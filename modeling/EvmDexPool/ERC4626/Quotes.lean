import EvmDexPool.ERC4626.Pool

/-!
# Quotes of a vault (`erc4626/standard.rs`, `erc4626/verio_ip.rs`)

A deposit is reckoned by `V / A` shares an asset and a redemption by `A / V`, `V` the shares and `A` the
assets. `calculate_input` takes both the ratio and the fee by the token that comes out, as
`calculate_output` does by the token that goes in, and multiplies by the fee's complement where its
inverse would divide: `roundTrip_covers` says when the round trip still pays.
-/

namespace EvmDexPool.ERC4626

open Fixed

def FEE_DENOMINATOR : Nat := 1000000

/-- `FEE_DENOMINATOR - fee as u128`. -/
def feeComplement (fee : Nat) : Except Fault Nat :=
  if fee ≤ FEE_DENOMINATOR then .ok (FEE_DENOMINATOR - fee) else .error .overflow

/-- The product both quotes end in (standard.rs:75, :97), `amount * times / by * (1 - fee)`. -/
def scaled (amount times per fee : Nat) : Except Fault Nat := do
  let shared ← udiv (wmul 256 amount times) per
  let complement ← feeComplement fee
  udiv (wmul 256 shared complement) FEE_DENOMINATOR

namespace ERC4626Standard
variable (p : ERC4626Standard)

/-- The fee and the reserves either side that both quotes take by their token (standard.rs:69, :91). -/
def terms (token : Address) : Nat × Nat × Nat :=
  if token = p.vaultToken then (p.withdrawFee, p.vaultReserve, p.assetReserve)
  else (p.depositFee, p.assetReserve, p.vaultReserve)

/-- `calculate_output` (standard.rs:60). -/
def calculateOutput (tokenIn : Address) (amountIn : Nat) : Except Fault Nat :=
  if amountIn = 0 then .ok 0
  else if p.vaultReserve = 0 then .ok amountIn
  else
    let (fee, reserveIn, reserveOut) := p.terms tokenIn
    scaled amountIn reserveOut reserveIn fee

/-- `calculate_input` (standard.rs:82). -/
def calculateInput (tokenOut : Address) (amountOut : Nat) : Except Fault Nat :=
  if amountOut = 0 then .ok 0
  else if p.assetReserve = 0 then .ok amountOut
  else
    let (fee, reserveIn, reserveOut) := p.terms tokenOut
    scaled amountOut reserveIn reserveOut fee

end ERC4626Standard

namespace VerioIP
variable (p : VerioIP)

/-- `VerioIP::calculate_output` (verio_ip.rs:48). -/
def calculateOutput (tokenIn : Address) (amountIn : Nat) : Except Fault Nat := p.base.calculateOutput tokenIn amountIn

/-- `VerioIP::calculate_input` (verio_ip.rs:52). -/
def calculateInput (tokenOut : Address) (amountOut : Nat) : Except Fault Nat := p.base.calculateInput tokenOut amountOut

end VerioIP

/-- Either of them, as `dyn PoolInterface` calls it. -/
inductive Vault
  | standard (p : ERC4626Standard)
  | verioIP (p : VerioIP)
deriving DecidableEq, Repr

namespace Vault

def base : Vault → ERC4626Standard
  | standard p => p
  | verioIP p => p.base

def calculateOutput (tokenIn : Address) (amountIn : Nat) : Vault → Except Fault Nat
  | standard p => p.calculateOutput tokenIn amountIn
  | verioIP p => p.calculateOutput tokenIn amountIn

def calculateInput (tokenOut : Address) (amountOut : Nat) : Vault → Except Fault Nat
  | standard p => p.calculateInput tokenOut amountOut
  | verioIP p => p.calculateInput tokenOut amountOut

def applyLog (l : Log) : Vault → Vault × Except Fault Unit
  | standard p => (.standard (p.applyLog l).1, (p.applyLog l).2)
  | verioIP p => (.verioIP (p.applyLog l).1, (p.applyLog l).2)

variable (p : Vault)

@[simp] theorem calculateOutput_base (tokenIn : Address) (amountIn : Nat) :
    p.calculateOutput tokenIn amountIn = p.base.calculateOutput tokenIn amountIn := by cases p <;> rfl

@[simp] theorem calculateInput_base (tokenOut : Address) (amountOut : Nat) :
    p.calculateInput tokenOut amountOut = p.base.calculateInput tokenOut amountOut := by cases p <;> rfl

@[simp] theorem applyLog_base (l : Log) : (p.applyLog l).1.base = (p.base.applyLog l).1 := by cases p <;> rfl

end Vault

/-! ## What a quote is -/

/-- No product of `scaled` wraps. -/
def Fits (amount times per fee : Nat) : Prop :=
  amount * times < 2 ^ 256 ∧ amount * times / per * (FEE_DENOMINATOR - fee) < 2 ^ 256

instance (amount times per fee : Nat) : Decidable (Fits amount times per fee) := inferInstanceAs (Decidable (_ ∧ _))

theorem scaled_eq {amount times per fee : Nat} (hper : per ≠ 0) (hfee : fee < FEE_DENOMINATOR)
    (h : Fits amount times per fee) :
    scaled amount times per fee = .ok (amount * times / per * (FEE_DENOMINATOR - fee) / FEE_DENOMINATOR) := by
  unfold scaled feeComplement
  rw [wmul_of_lt h.1, udiv_of_pos (Nat.pos_of_ne_zero hper), ok_bind, if_pos hfee.le, ok_bind, wmul_of_lt h.2,
    udiv_of_pos (by decide)]

/-- A share rounded down reaches `x` from the least amount on, which is rounded up. -/
theorem le_share_iff {x amount times per : Nat} (htimes : 0 < times) (hper : 0 < per) :
    x ≤ amount * times / per ↔ (x * per) ⌈/⌉ times ≤ amount := by
  rw [Nat.le_div_iff_mul_le hper, ceilDiv_le_iff_le_mul htimes, Nat.mul_comm amount]

namespace ERC4626Standard
variable {p : ERC4626Standard} {token : Address} {amount : Nat}

/-- A vault that holds shares and assets and charges less than everything. -/
structure Stocked (p : ERC4626Standard) : Prop where
  vault : p.vaultReserve ≠ 0
  asset : p.assetReserve ≠ 0
  depositFee : p.depositFee < FEE_DENOMINATOR
  withdrawFee : p.withdrawFee < FEE_DENOMINATOR

theorem Stocked.terms (h : p.Stocked) (token : Address) :
    (p.terms token).1 < FEE_DENOMINATOR ∧ (p.terms token).2.1 ≠ 0 ∧ (p.terms token).2.2 ≠ 0 := by
  unfold ERC4626Standard.terms
  split
  · exact ⟨h.withdrawFee, h.vault, h.asset⟩
  · exact ⟨h.depositFee, h.asset, h.vault⟩

def OutputFits (p : ERC4626Standard) (tokenIn : Address) (amountIn : Nat) : Prop :=
  Fits amountIn (p.terms tokenIn).2.2 (p.terms tokenIn).2.1 (p.terms tokenIn).1

def InputFits (p : ERC4626Standard) (tokenOut : Address) (amountOut : Nat) : Prop :=
  Fits amountOut (p.terms tokenOut).2.1 (p.terms tokenOut).2.2 (p.terms tokenOut).1

instance (tokenIn : Address) (amountIn : Nat) : Decidable (p.OutputFits tokenIn amountIn) :=
  inferInstanceAs (Decidable (Fits _ _ _ _))

instance (tokenOut : Address) (amountOut : Nat) : Decidable (p.InputFits tokenOut amountOut) :=
  inferInstanceAs (Decidable (Fits _ _ _ _))

theorem calculateOutput_eq (h : p.Stocked) (hfits : p.OutputFits token amount) :
    p.calculateOutput token amount = .ok (amount * (p.terms token).2.2 / (p.terms token).2.1 *
      (FEE_DENOMINATOR - (p.terms token).1) / FEE_DENOMINATOR) := by
  unfold calculateOutput
  split
  · rename_i hzero
    simp [hzero]
  · rw [if_neg h.vault]
    exact scaled_eq (h.terms token).2.1 (h.terms token).1 hfits

theorem calculateInput_eq (h : p.Stocked) (hfits : p.InputFits token amount) :
    p.calculateInput token amount = .ok (amount * (p.terms token).2.1 / (p.terms token).2.2 *
      (FEE_DENOMINATOR - (p.terms token).1) / FEE_DENOMINATOR) := by
  unfold calculateInput
  split
  · rename_i hzero
    simp [hzero]
  · rw [if_neg h.asset]
    exact scaled_eq (h.terms token).2.2 (h.terms token).1 hfits

/-! ## The round trip -/

/-- No product of the two quotes wraps. -/
def RoundTripFits (p : ERC4626Standard) (tokenOut tokenIn : Address) (x : Nat) : Prop :=
  p.InputFits tokenOut x ∧ ∀ y, p.calculateInput tokenOut x = .ok y → p.OutputFits tokenIn y

/-- `x`, grossed up for the fee of each quote and rounded up at each division, is worth no more at the
ratio of the output quote than at the ratio the input quote took. -/
def Covers (p : ERC4626Standard) (tokenOut tokenIn : Address) (x : Nat) : Prop :=
  let (feeTaken, timesTaken, overTaken) := p.terms tokenOut
  let (fee, reserveIn, reserveOut) := p.terms tokenIn
  let gross := (x * FEE_DENOMINATOR) ⌈/⌉ (FEE_DENOMINATOR - fee)
  let paid := (gross * reserveIn) ⌈/⌉ reserveOut
  (paid * FEE_DENOMINATOR) ⌈/⌉ (FEE_DENOMINATOR - feeTaken) * overTaken ≤ x * timesTaken

/-- Without fees, an amount is worth as much at one ratio as at its inverse only if the first is at least one. -/
theorem ratio_covers_iff {x times per : Nat} (htimes : 0 < times) (hper : 0 < per) :
    (x * per) ⌈/⌉ times * per ≤ x * times ↔ x = 0 ∨ per ≤ times := by
  constructor
  · intro h
    by_contra hno
    obtain ⟨hx, hlt⟩ : 0 < x ∧ times < per := by omega
    have hceil : x * per ≤ (x * per) ⌈/⌉ times * times := by
      rw [Nat.mul_comm _ times]
      exact le_smul_ceilDiv htimes
    have hless : x * times * times < x * per * per :=
      (Nat.mul_lt_mul_of_pos_right (Nat.mul_lt_mul_of_pos_left hlt hx) htimes).trans
        (Nat.mul_lt_mul_of_pos_left hlt (Nat.mul_pos hx hper))
    have hmore : x * per * per ≤ x * times * times :=
      calc x * per * per ≤ (x * per) ⌈/⌉ times * times * per := Nat.mul_le_mul_right _ hceil
        _ = (x * per) ⌈/⌉ times * per * times := Nat.mul_right_comm _ _ _
        _ ≤ x * times * times := Nat.mul_le_mul_right _ h
    exact absurd hmore (Nat.not_le.2 hless)
  · rintro (rfl | hle)
    · simp
    · have hceil : (x * per) ⌈/⌉ times ≤ x := by
        rw [ceilDiv_le_iff_le_mul htimes, Nat.mul_comm times]
        exact Nat.mul_le_mul_left _ hle
      exact Nat.mul_le_mul hceil hle

/-- A vault without fees, as the fetcher makes them, covers its deposits while a share is worth at most
one asset, and its redemptions while it is worth at least one. -/
theorem covers_feeless {tokenIn : Address} {x : Nat} (h : p.Stocked) (hdeposit : p.depositFee = 0)
    (hwithdraw : p.withdrawFee = 0) (htoken : tokenIn ≠ p.vaultToken) :
    (p.Covers p.vaultToken tokenIn x ↔ x = 0 ∨ p.assetReserve ≤ p.vaultReserve) ∧
      (p.Covers tokenIn p.vaultToken x ↔ x = 0 ∨ p.vaultReserve ≤ p.assetReserve) := by
  have hvault : p.terms p.vaultToken = (0, p.vaultReserve, p.assetReserve) := by simp [terms, hwithdraw]
  have hasset : p.terms tokenIn = (0, p.assetReserve, p.vaultReserve) := by simp [terms, hdeposit, htoken]
  have hwhole : ∀ n : Nat, (n * FEE_DENOMINATOR) ⌈/⌉ (FEE_DENOMINATOR - 0) = n := fun n => by
    rw [Nat.sub_zero, Nat.mul_comm]
    exact smul_ceilDiv (by decide) n
  have hV := Nat.pos_of_ne_zero h.vault
  have hA := Nat.pos_of_ne_zero h.asset
  unfold Covers
  rw [hvault, hasset]
  dsimp only
  simp only [hwhole]
  exact ⟨ratio_covers_iff hV hA, ratio_covers_iff hA hV⟩

end ERC4626Standard

/-- An input quote, spent, buys what it was quoted for. -/
def Vault.RoundTrips (p : Vault) (tokenOut tokenIn : Address) (x : Nat) : Prop :=
  ∀ y, p.calculateInput tokenOut x = .ok y → ∀ z, p.calculateOutput tokenIn y = .ok z → x ≤ z

/-- An input quote buys what it was quoted for exactly where the ratio and the fee that were taken make
up for those of the other direction. -/
theorem roundTrip_covers (p : Vault) (h : p.base.Stocked) (tokenOut tokenIn : Address) (x : Nat)
    (hfits : p.base.RoundTripFits tokenOut tokenIn x) :
    p.RoundTrips tokenOut tokenIn x ↔ p.base.Covers tokenOut tokenIn x := by
  obtain ⟨hfee, _, hper⟩ := h.terms tokenOut
  obtain ⟨hfee', hin, hout⟩ := h.terms tokenIn
  have hy := ERC4626Standard.calculateInput_eq h hfits.1
  have hz := ERC4626Standard.calculateOutput_eq h (hfits.2 _ hy)
  have hless : 0 < FEE_DENOMINATOR - (p.base.terms tokenOut).1 := by omega
  have hless' : 0 < FEE_DENOMINATOR - (p.base.terms tokenIn).1 := by omega
  simp only [Vault.RoundTrips, Vault.calculateInput_base, Vault.calculateOutput_base, hy, hz, Except.ok.injEq, forall_eq']
  rw [le_share_iff hless' (by decide), le_share_iff (Nat.pos_of_ne_zero hout) (Nat.pos_of_ne_zero hin),
    le_share_iff hless (by decide), Nat.le_div_iff_mul_le (Nat.pos_of_ne_zero hper)]
  rfl

/-- Two hundred shares of a hundred assets, with a fee each way. -/
def cheapVault : ERC4626Standard := ⟨1, 2, 3, 200, 100, 1000, 2000⟩

/-- Fifty of its shares: quoted 99 assets, which buy 197. -/
theorem roundTrip_covers_fifty :
    (Vault.verioIP ⟨cheapVault⟩).RoundTrips 2 3 50 ↔ cheapVault.Covers 2 3 50 :=
  roundTrip_covers (.verioIP ⟨cheapVault⟩) ⟨by decide, by decide, by decide, by decide⟩ 2 3 50
    ⟨by decide, fun y hy => by cases hy.symm.trans (show _ = Except.ok 99 by decide); decide⟩

/-- A hundred shares of two hundred assets, without fees. -/
def dearVault : ERC4626Standard := ⟨1, 2, 3, 100, 200, 0, 0⟩

/-- A hundred of its shares are quoted 50 assets, which buy 25. -/
theorem roundTrip_covers_fails :
    dearVault.Stocked ∧ dearVault.RoundTripFits 2 3 100 ∧ ¬(Vault.standard dearVault).RoundTrips 2 3 100 ∧
      ¬(Vault.verioIP ⟨dearVault⟩).RoundTrips 2 3 100 := by
  have hinput : dearVault.calculateInput 2 100 = .ok 50 := by decide
  have houtput : dearVault.calculateOutput 3 50 = .ok 25 := by decide
  refine ⟨⟨by decide, by decide, by decide, by decide⟩, ⟨by decide, fun y hy => ?_⟩, fun h => ?_, fun h => ?_⟩
  · cases hy.symm.trans hinput
    decide
  · exact absurd (h _ hinput _ houtput) (by decide)
  · exact absurd (h _ hinput _ houtput) (by decide)

end EvmDexPool.ERC4626
