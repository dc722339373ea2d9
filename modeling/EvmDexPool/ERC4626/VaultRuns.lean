import EvmDexPool.ERC4626.Quotes

/-!
# Runs of a vault beside its replay

The vault logs what is deposited and withdrawn, in shares and assets, and keeps its yield to itself. The
replayed shares are the vault's; the replayed assets are what was deposited less what was withdrawn, the
`booked` assets here. A withdrawal pays yield out too, and takes the replay below zero
(`quotable_fails`); and each quote guards one of the two reserves that it divides by.
-/

namespace EvmDexPool.ERC4626

open Fixed

/-! ## One state -/

namespace Vault
variable {p : Vault} {t : Nat}

/-- Every quote of an amount below `2 ^ 112` returns. -/
def Quotable (p : Vault) : Prop :=
  ∀ token amount, amount < 2 ^ 112 → Returns (p.calculateOutput token amount) ∧ Returns (p.calculateInput token amount)

end Vault

theorem returns_scaled_iff {amount times per fee : Nat} :
    Returns (scaled amount times per fee) ↔ per ≠ 0 ∧ fee ≤ FEE_DENOMINATOR := by
  unfold scaled udiv feeComplement
  by_cases hper : per = 0
  · rw [if_pos hper, error_bind]
    simp [Returns, hper]
  · rw [if_neg hper, ok_bind]
    by_cases hfee : fee ≤ FEE_DENOMINATOR
    · rw [if_pos hfee, ok_bind, if_neg (by decide)]
      simp [Returns, hper, hfee]
    · rw [if_neg hfee, error_bind]
      simp [Returns, hper, hfee]

/-- Shares and assets that a vault with these fees can be quoted with: neither without the other, and no
fee above the whole while there are any. -/
def Balanced (p : ERC4626Standard) (shares assets : Nat) : Prop :=
  (shares = 0 ↔ assets = 0) ∧ (shares ≠ 0 → p.depositFee ≤ FEE_DENOMINATOR ∧ p.withdrawFee ≤ FEE_DENOMINATOR)

theorem quotable_iff {p : Vault} : p.Quotable ↔ Balanced p.base p.base.vaultReserve p.base.assetReserve := by
  simp only [Vault.Quotable, Vault.calculateOutput_base, Vault.calculateInput_base]
  generalize p.base = p
  constructor
  · intro h
    -- one unit of the shares, and one of any other token
    obtain ⟨hvault, _⟩ := h p.vaultToken 1 (by decide)
    obtain ⟨hout, hin⟩ := h (p.vaultToken + 1) 1 (by decide)
    have hother : p.vaultToken + 1 ≠ p.vaultToken := Nat.succ_ne_self _
    unfold ERC4626Standard.calculateOutput ERC4626Standard.terms at hvault hout
    unfold ERC4626Standard.calculateInput ERC4626Standard.terms at hin
    rw [if_pos rfl] at hvault
    rw [if_neg hother] at hout hin
    rw [if_neg Nat.one_ne_zero] at hvault hout hin
    refine ⟨⟨fun hV => ?_, fun hA => ?_⟩, fun hV => ?_⟩
    · by_contra hA
      rw [if_neg hA] at hin
      exact (returns_scaled_iff.1 hin).1 hV
    · by_contra hV
      rw [if_neg hV] at hout
      exact (returns_scaled_iff.1 hout).1 hA
    · rw [if_neg hV] at hvault hout
      exact ⟨(returns_scaled_iff.1 hout).2, (returns_scaled_iff.1 hvault).2⟩
  · rintro ⟨hzero, hfees⟩ token amount -
    have hterms : p.vaultReserve ≠ 0 →
        (p.terms token).1 ≤ FEE_DENOMINATOR ∧ (p.terms token).2.1 ≠ 0 ∧ (p.terms token).2.2 ≠ 0 := by
      intro hV
      obtain ⟨hdeposit, hwithdraw⟩ := hfees hV
      have hA : p.assetReserve ≠ 0 := fun hA => hV (hzero.2 hA)
      unfold ERC4626Standard.terms
      split
      · exact ⟨hwithdraw, hV, hA⟩
      · exact ⟨hdeposit, hA, hV⟩
    constructor
    · unfold ERC4626Standard.calculateOutput
      split
      · exact returns_ok _
      split
      · exact returns_ok _
      · rename_i _ hV
        exact returns_scaled_iff.2 ⟨(hterms hV).2.1, (hterms hV).1⟩
    · unfold ERC4626Standard.calculateInput
      split
      · exact returns_ok _
      split
      · exact returns_ok _
      · rename_i _ hA
        have hV : p.vaultReserve ≠ 0 := fun hV => hA (hzero.1 hV)
        exact returns_scaled_iff.2 ⟨(hterms hV).2.2, (hterms hV).1⟩

/-! ## Runs -/

/-- What happens to a vault, with the log it leaves. -/
inductive VaultStep
  | deposit (assets shares : Nat) (log : Log)
  | withdraw (assets shares : Nat) (log : Log)
  | yield (assets : Nat)

/-- The replay of one step. -/
def Vault.replay (p : Vault) : VaultStep → Vault
  | .deposit _ _ log => (p.applyLog log).1
  | .withdraw _ _ log => (p.applyLog log).1
  | .yield _ => p

/-- The step takes neither replayed reserve below zero. -/
def Vault.Keeps (p : Vault) : VaultStep → Prop
  | .withdraw assets shares _ => shares ≤ p.base.vaultReserve ∧ assets ≤ p.base.assetReserve
  | _ => True

/-- The replay keeps its reserves and can be quoted, all along the run. -/
def Vault.Sound (p : Vault) : List VaultStep → Prop
  | [] => p.Quotable
  | s :: rest => p.Quotable ∧ p.Keeps s ∧ (p.replay s).Sound rest

/-- What the vault holds, and how much of its assets is not yield. -/
structure Totals where
  shares : Nat
  assets : Nat
  booked : Nat

namespace Totals

def after (t : Totals) : VaultStep → Totals
  | .deposit assets shares _ => ⟨t.shares + shares, t.assets + assets, t.booked + assets⟩
  | .withdraw assets shares _ => ⟨t.shares - shares, t.assets - assets, t.booked - assets⟩
  | .yield assets => ⟨t.shares, t.assets + assets, t.booked⟩

/-- What a vault of 256-bit totals lets happen: a withdrawal takes no more than it holds. -/
def Allows (t : Totals) : VaultStep → Prop
  | .deposit assets shares log =>
    log.payload = .event (.erc4626 (.deposit assets shares)) ∧ t.shares + shares < 2 ^ 256 ∧ t.assets + assets < 2 ^ 256
  | .withdraw assets shares log =>
    log.payload = .event (.erc4626 (.withdraw assets shares)) ∧ shares ≤ t.shares ∧ assets ≤ t.assets
  | .yield assets => t.assets + assets < 2 ^ 256

def Legal : Totals → List VaultStep → Prop
  | _, [] => True
  | t, s :: rest => t.Allows s ∧ (t.after s).Legal rest

/-- The step pays out no yield. -/
def Covers (t : Totals) : VaultStep → Prop
  | .withdraw assets _ _ => assets ≤ t.booked
  | _ => True

/-- All along the run the booked assets cover what is withdrawn, and run out with the shares. -/
def Books (p : ERC4626Standard) : Totals → List VaultStep → Prop
  | t, [] => Balanced p t.shares t.booked
  | t, s :: rest => Balanced p t.shares t.booked ∧ t.Covers s ∧ Books p (t.after s) rest

end Totals

/-- A vault beside its replay. -/
structure Replays (t : Totals) (p : ERC4626Standard) : Prop where
  vault : p.vaultReserve = t.shares
  asset : p.assetReserve = t.booked
  booked : t.booked ≤ t.assets
  shares_lt : t.shares < 2 ^ 256
  assets_lt : t.assets < 2 ^ 256

theorem Replays.quotable_iff {t : Totals} {p : Vault} (h : Replays t p.base) :
    p.Quotable ↔ Balanced p.base t.shares t.booked := by
  rw [EvmDexPool.ERC4626.quotable_iff, h.vault, h.asset]

theorem Replays.keeps_iff {t : Totals} {p : Vault} {s : VaultStep} (h : Replays t p.base) (hs : t.Allows s) :
    p.Keeps s ↔ t.Covers s := by
  cases s with
  | deposit assets shares log => exact Iff.rfl
  | withdraw assets shares log =>
    change shares ≤ p.base.vaultReserve ∧ assets ≤ p.base.assetReserve ↔ assets ≤ t.booked
    rw [h.vault, h.asset]
    exact ⟨And.right, fun hle => ⟨hs.2.1, hle⟩⟩
  | yield assets => exact Iff.rfl

/-- A step that pays out no yield keeps the replay beside the vault, and its fees. -/
theorem Replays.step {t : Totals} {p : Vault} {s : VaultStep} (h : Replays t p.base) (hs : t.Allows s) (hc : t.Covers s) :
    Replays (t.after s) (p.replay s).base ∧ (p.replay s).base.depositFee = p.base.depositFee ∧
      (p.replay s).base.withdrawFee = p.base.withdrawFee := by
  obtain ⟨hvault, hasset, hbooked, hshares, hassets⟩ := h
  cases s with
  | deposit assets shares log =>
    obtain ⟨hlog, hs1, hs2⟩ := hs
    simp only [Vault.replay, Vault.applyLog_base, ERC4626Standard.applyLog, hlog, Totals.after]
    refine ⟨⟨?_, ?_, by dsimp only; omega, hs1, hs2⟩, trivial, trivial⟩
    · dsimp only
      rw [hvault, wadd_of_lt hs1]
    · dsimp only
      rw [hasset, wadd_of_lt (by omega)]
  | withdraw assets shares log =>
    obtain ⟨hlog, hs1, hs2⟩ := hs
    have hc : assets ≤ t.booked := hc
    simp only [Vault.replay, Vault.applyLog_base, ERC4626Standard.applyLog, hlog, Totals.after]
    refine ⟨⟨?_, ?_, by dsimp only; omega, by dsimp only; omega, by dsimp only; omega⟩, trivial, trivial⟩
    · dsimp only
      rw [hvault, wsub_of_le hs1 hshares]
    · dsimp only
      rw [hasset, wsub_of_le hc (by omega)]
  | yield assets =>
    have hs : t.assets + assets < 2 ^ 256 := hs
    exact ⟨⟨hvault, hasset, hbooked.trans (Nat.le_add_right _ _), hshares, hs⟩, rfl, rfl⟩

theorem Totals.books_congr {p q : ERC4626Standard} (hd : q.depositFee = p.depositFee) (hw : q.withdrawFee = p.withdrawFee)
    (steps : List VaultStep) (t : Totals) : Totals.Books q t steps ↔ Totals.Books p t steps := by
  have hbalanced : ∀ shares assets, Balanced q shares assets ↔ Balanced p shares assets := by
    intro shares assets
    unfold Balanced
    rw [hd, hw]
  induction steps generalizing t with
  | nil => exact hbalanced _ _
  | cons s rest ih =>
    exact and_congr (hbalanced _ _) (and_congr Iff.rfl (ih _))

theorem Replays.run {steps : List VaultStep} {t : Totals} {p : Vault} (h : Replays t p.base) (hlegal : t.Legal steps) :
    p.Sound steps ↔ Totals.Books p.base t steps := by
  induction steps generalizing t p with
  | nil => exact h.quotable_iff
  | cons s rest ih =>
    obtain ⟨hs, hrest⟩ := hlegal
    change (p.Quotable ∧ p.Keeps s ∧ _) ↔ (Balanced _ _ _ ∧ t.Covers s ∧ _)
    rw [h.quotable_iff, h.keeps_iff hs]
    refine and_congr_right fun _ => and_congr_right fun hc => ?_
    obtain ⟨hnext, hd, hw⟩ := h.step hs hc
    rw [ih hnext hrest, Totals.books_congr hd hw]

/-- **A replay stays quotable** exactly along the runs that pay out no yield and leave neither side
without the other. -/
theorem quotable_all_along (p : Vault) (hvault : p.base.vaultReserve < 2 ^ 256) (hasset : p.base.assetReserve < 2 ^ 256)
    (steps : List VaultStep)
    (hlegal : (Totals.mk p.base.vaultReserve p.base.assetReserve p.base.assetReserve).Legal steps) :
    p.Sound steps ↔
      Totals.Books p.base ⟨p.base.vaultReserve, p.base.assetReserve, p.base.assetReserve⟩ steps :=
  Replays.run ⟨rfl, rfl, le_rfl, hvault, hasset⟩ hlegal

/-- A hundred shares of a hundred assets. -/
def evenVault : ERC4626Standard := ⟨1, 2, 3, 100, 100, 0, 0⟩

def depositOf (assets shares : Nat) : VaultStep :=
  .deposit assets shares ⟨1, .event (.erc4626 (.deposit assets shares)), some 7, some 0, some 0, none, none, false⟩

def withdrawalOf (assets shares : Nat) : VaultStep :=
  .withdraw assets shares ⟨1, .event (.erc4626 (.withdraw assets shares)), some 7, some 0, some 0, none, none, false⟩

/-- Fifty come in, thirty accrue and twenty go out. -/
theorem quotable_all_along_evenVault :
    (Vault.verioIP ⟨evenVault⟩).Sound [depositOf 50 50, .yield 30, withdrawalOf 20 20] := by
  have hlegal : (Totals.mk 100 100 100).Legal [depositOf 50 50, .yield 30, withdrawalOf 20 20] :=
    ⟨⟨rfl, by decide, by decide⟩, show (150 + 30 : Nat) < 2 ^ 256 by decide, ⟨rfl, by decide, by decide⟩, trivial⟩
  refine (quotable_all_along (.verioIP ⟨evenVault⟩) (by decide) (by decide) _ hlegal).2 ?_
  simp [Totals.Books, Totals.Covers, Totals.after, Balanced, depositOf, withdrawalOf, Vault.base, evenVault]

/-- The hundred assets double; half the shares take out a hundred, and a deposit of one cannot be quoted;
the other half takes the replayed assets, none by now, below zero. -/
theorem quotable_fails :
    let run := [VaultStep.yield 100, withdrawalOf 100 50, withdrawalOf 100 50]
    let p := Vault.standard evenVault
    (Totals.mk 100 100 100).Legal run ∧ ¬p.Sound (run.take 2) ∧ ¬p.Sound run ∧
      ((p.replay (.yield 100)).replay (withdrawalOf 100 50)).calculateOutput 3 1 = .error .panic ∧
      ¬((p.replay (.yield 100)).replay (withdrawalOf 100 50)).Keeps (withdrawalOf 100 50) := by
  have hpanic : (((Vault.standard evenVault).replay (.yield 100)).replay (withdrawalOf 100 50)).calculateOutput 3 1 =
      .error .panic := by decide
  have hkeeps : ¬(((Vault.standard evenVault).replay (.yield 100)).replay (withdrawalOf 100 50)).Keeps
      (withdrawalOf 100 50) := fun h => absurd h.2 (by decide)
  have hquote : ¬(((Vault.standard evenVault).replay (.yield 100)).replay (withdrawalOf 100 50)).Quotable := fun h => by
    have hret := (h 3 1 (by decide)).1
    rw [hpanic] at hret
    exact hret
  exact ⟨⟨show (100 + 100 : Nat) < 2 ^ 256 by decide, ⟨rfl, by decide, by decide⟩, ⟨rfl, by decide, by decide⟩, trivial⟩,
    fun h => hquote h.2.2.2.2, fun h => hquote h.2.2.2.2.1, hpanic, hkeeps⟩

end EvmDexPool.ERC4626
