import EvmDexPool.LB.Waiting

/-!
# When a quote returns

The narrowings are `to()`, which panics, and the sums are native. What the two walks reach and add up
is told by the pool alone: the exact-input one prices every bin whole as long as the bins before have
not used the input up (`OutFits`), the exact-output one prices what it takes (`InFits`).
-/

namespace EvmDexPool.LB.LBPool

variable {p : LBPool} {swapForY : Bool} {t amount : Nat}

/-- `max_amount_in_with_fees` of a bin with these reserves. -/
def askedFor (p : LBPool) (swapForY : Bool) (t id : Nat) (r : Nat × Nat) : Nat :=
  let maxAmountIn := p.netCost swapForY id (outSide swapForY r)
  Fixed.satAdd 128 maxAmountIn (getFeeAmount maxAmountIn (p.feeAt t id))

/-- What the bin gives for `left`. -/
def given (p : LBPool) (swapForY : Bool) (t id left : Nat) : Nat :=
  if p.askedFor swapForY t id (p.bin id) ≤ left then p.reserveOut swapForY id
  else min (p.bought swapForY id (left - getFeeAmountFrom left (p.feeAt t id))) (p.reserveOut swapForY id)

/-- In every bin with something to sell that the input reaches, the input for the whole bin and the
output so far fit `u128`. -/
def OutFits (p : LBPool) (swapForY : Bool) (t amountIn : Nat) : Prop :=
  ∀ id, p.onPath swapForY id → 0 < p.reserveOut swapForY id →
    (id = p.activeId ∨ p.sumBefore swapForY (p.askedFor swapForY t) id < amountIn) →
    p.netCost swapForY id (p.reserveOut swapForY id) < 2 ^ 128 ∧
      p.reserveBefore swapForY id +
        p.given swapForY t id (amountIn - p.sumBefore swapForY (p.askedFor swapForY t) id) < 2 ^ 128

/-- What an exact output of `amountOut` pays in a bin with these reserves. -/
def paidIn (p : LBPool) (swapForY : Bool) (t amountOut id : Nat) (r : Nat × Nat) : Nat :=
  p.grossCost swapForY t id (min (outSide swapForY r) (amountOut - p.reserveBefore swapForY id))

/-- All that the output costs fits `u128`. -/
def InFits (p : LBPool) (swapForY : Bool) (t amountOut : Nat) : Prop :=
  p.sumPath swapForY (p.paidIn swapForY t amountOut) < 2 ^ 128

/-- The field types of a pool: `u128` reserves and `uint24` ids. -/
structure Typed (p : LBPool) : Prop where
  reserves : ∀ (id : Nat) (r : Nat × Nat), p.bins[id]? = some r → r.1 < 2 ^ 128 ∧ r.2 < 2 ^ 128
  activeId : p.activeId < 2 ^ 24
  ids : ∀ (id : Nat) (r : Nat × Nat), p.bins[id]? = some r → id < 2 ^ 24

theorem Typed.reserveOut_lt (h : p.Typed) (id : Nat) : p.reserveOut swapForY id < 2 ^ 128 := by
  cases hb : p.bins[id]? with
  | none => rw [reserveOut_none hb]; norm_num
  | some r =>
    obtain ⟨h1, h2⟩ := h.reserves id r hb
    cases swapForY <;> simpa [reserveOut, bin, hb, outSide]

/-- An id of 24 bits has a price. -/
theorem Typed.priced (h : p.Typed) {id : Nat} (hid : id = p.activeId ∨ ∃ r, p.bins[id]? = some r) : Priced id := by
  rcases hid with rfl | ⟨r, hr⟩
  · exact priced_of_lt (h.activeId.trans (by norm_num))
  · exact priced_of_lt ((h.ids id r hr).trans (by norm_num))

/-- With `uint24` ids the walk never looks past the last `u32`. -/
theorem Typed.next (h : p.Typed) {id : Nat} (hid : id = p.activeId ∨ ∃ r, p.bins[id]? = some r) (e : Fault) :
    p.nextNonEmptyBin swapForY id ≠ .error e := by
  intro he
  obtain ⟨-, hlast, -⟩ := next_error he
  rcases hid with rfl | ⟨r, hr⟩
  · have := h.activeId
    omega
  · have := h.ids id r hr
    omega

/-! ## An exact input -/

theorem askedFor_empty (id : Nat) : p.askedFor swapForY t id (0, 0) = 0 := by
  have : p.grossCost swapForY t id 0 = 0 := grossCost_zero id
  unfold grossCost at this
  unfold askedFor outSide
  rw [ite_self]
  dsimp only
  unfold Fixed.satAdd
  omega

/-- A bin that a net input does not pay for gives less than it holds. -/
theorem bought_lt {id k : Nat} (hR : p.reserveOut swapForY id < 2 ^ 128) (hk : k < 2 ^ 128)
    (h : k < p.netCost swapForY id (p.reserveOut swapForY id)) :
    p.bought swapForY id k < p.reserveOut swapForY id := by
  have hprice : 0 < binPrice id p.binStep := by
    by_contra h0
    obtain h0 : binPrice id p.binStep = 0 := by omega
    unfold netCost binInput at h
    rw [h0] at h
    cases swapForY <;> simp [shiftDivRoundUp, mulShiftRoundUp, mulShiftRoundDown] at h
  by_contra hle
  have := (binInput_le_iff hR hk hprice (binPrice_lt _ _)).2 (not_lt.1 hle)
  exact absurd (h.trans_le this) (Nat.lt_irrefl _)

/-- A visit returns exactly when the bin can be priced whole and the output fits: the fees always do. -/
theorem swapOutBin_ok_iff (hp : p.Typed) {s : SwapOut} {id : Nat} (hid : Priced id)
    (hfees : s.totalFee + s.amountInLeft < 2 ^ 128) :
    (∃ s', p.swapOutBin swapForY t s id (p.reserveOut swapForY id) = .ok s') ↔
      p.netCost swapForY id (p.reserveOut swapForY id) < 2 ^ 128 ∧
        s.amountOut + p.given swapForY t id s.amountInLeft < 2 ^ 128 := by
  have hasked : p.askedFor swapForY t id (p.bin id) =
      Fixed.satAdd 128 (p.netCost swapForY id (p.reserveOut swapForY id))
        (getFeeAmount (p.netCost swapForY id (p.reserveOut swapForY id)) (p.feeAt t id)) := rfl
  have hR : p.reserveOut swapForY id < 2 ^ 128 := hp.reserveOut_lt id
  have hfee := feeAt_le p t id
  rw [swapOutBin_eq hid]
  unfold given
  rw [hasked]
  by_cases hm : p.netCost swapForY id (p.reserveOut swapForY id) < 2 ^ 128
  · have hmax := getFeeAmount_lt hfee hm
    rw [toU128_of_lt hm, ok_bind, and_iff_right hm]
    split
    · rename_i hwhole
      have hfits : s.totalFee + getFeeAmount (p.netCost swapForY id (p.reserveOut swapForY id)) (p.feeAt t id) <
          2 ^ 128 := by
        unfold Fixed.satAdd at hwhole
        omega
      constructor
      · rintro ⟨s', h⟩
        obtain ⟨out, hout, -⟩ := bind_eq_ok.1 h
        exact (addU128_eq_ok.1 hout).1
      · intro hout
        rw [addU128_of_lt hout, ok_bind, addU128_of_lt hfits, ok_bind]
        exact ⟨_, rfl⟩
    · rename_i hpart
      have hle := getFeeAmountFrom_le hfee s.amountInLeft
      have hnet : s.amountInLeft - getFeeAmountFrom s.amountInLeft (p.feeAt t id) <
          p.netCost swapForY id (p.reserveOut swapForY id) := by
        rw [sub_getFeeAmountFrom_lt_iff hfee]
        unfold Fixed.satAdd at hpart
        omega
      have hb := bought_lt hR (by omega) hnet
      rw [toU128_of_lt (hb.trans hR), ok_bind]
      constructor
      · rintro ⟨s', h⟩
        obtain ⟨out, hout, -⟩ := bind_eq_ok.1 h
        exact (addU128_eq_ok.1 hout).1
      · intro hout
        rw [addU128_of_lt hout, ok_bind, addU128_of_lt (by omega), ok_bind]
        exact ⟨_, rfl⟩
  · rw [toU128_of_le hm, error_bind]
    exact iff_of_false (by rintro ⟨s', h⟩; cases h) fun h => hm h.1

theorem swapOutBin_left {s s' : SwapOut} {id : Nat} (hlt : s.amountInLeft < 2 ^ 128)
    (h : p.swapOutBin swapForY t s id (p.reserveOut swapForY id) = .ok s') :
    s.amountInLeft ≤ s'.amountInLeft + p.askedFor swapForY t id (p.bin id) ∧
      (s'.amountInLeft ≠ 0 → s.amountInLeft = s'.amountInLeft + p.askedFor swapForY t id (p.bin id) ∧
        s'.totalFee + s'.amountInLeft ≤ s.totalFee + s.amountInLeft) := by
  rw [swapOutBin_eq (priced_of_swapOutBin h)] at h
  obtain ⟨m, hm, h⟩ := bind_eq_ok.1 h
  obtain ⟨-, rfl⟩ := toU128_eq_ok.1 hm
  change (if p.askedFor swapForY t id (p.bin id) ≤ s.amountInLeft then _ else _) = _ at h
  have hasked : p.askedFor swapForY t id (p.bin id) =
      Fixed.satAdd 128 (p.netCost swapForY id (p.reserveOut swapForY id))
        (getFeeAmount (p.netCost swapForY id (p.reserveOut swapForY id)) (p.feeAt t id)) := rfl
  rw [← hasked] at h
  unfold Fixed.satAdd at hasked
  split at h
  · obtain ⟨out, ho, h⟩ := bind_eq_ok.1 h
    obtain ⟨f, hf, h⟩ := bind_eq_ok.1 h
    obtain ⟨-, rfl⟩ := addU128_eq_ok.1 hf
    cases h
    dsimp only
    refine ⟨by omega, fun hleft => ⟨by omega, by omega⟩⟩
  · obtain ⟨b, hb, h⟩ := bind_eq_ok.1 h
    obtain ⟨out, ho, h⟩ := bind_eq_ok.1 h
    obtain ⟨f, hf, h⟩ := bind_eq_ok.1 h
    cases h
    exact ⟨by dsimp only; omega, fun h => absurd rfl h⟩

theorem roundAt_left {s s' : SwapOut} {id : Nat} (hlt : s.amountInLeft < 2 ^ 128)
    (h : p.roundAt swapForY (p.swapOutBin swapForY t) s id = .ok s') :
    s.amountInLeft ≤ s'.amountInLeft + p.askedFor swapForY t id (p.bin id) ∧
      (s'.amountInLeft ≠ 0 → s.amountInLeft = s'.amountInLeft + p.askedFor swapForY t id (p.bin id) ∧
        s'.totalFee + s'.amountInLeft ≤ s.totalFee + s.amountInLeft) := by
  unfold roundAt at h
  split at h
  · exact swapOutBin_left hlt h
  · rename_i hr
    cases h
    have hzero : p.askedFor swapForY t id (p.bin id) = 0 := by
      have hside : outSide swapForY (p.bin id) = 0 := Nat.eq_zero_of_not_pos hr
      have : p.askedFor swapForY t id (0, 0) = 0 := askedFor_empty id
      unfold askedFor at this ⊢
      rw [hside]
      rwa [show outSide swapForY (0, 0) = 0 by cases swapForY <;> rfl] at this
    omega

/-- Where an exact-input walk stands, it has what the bins behind it left. -/
theorem outWalks_left (ha : amount < 2 ^ 128) {l : List (Nat × SwapOut × SwapOut)} {s : SwapOut} {id : Nat}
    (h : p.OutWalks swapForY t amount l s id) :
    s.amountInLeft + p.sumBefore swapForY (p.askedFor swapForY t) id = amount ∧
      s.totalFee + s.amountInLeft ≤ amount := by
  induction h with
  | start => exact ⟨by rw [sumBefore_active, Nat.add_zero], by dsimp only; omega⟩
  | next hw hround hleft hnext ih =>
    obtain ⟨hsum, hfees⟩ := ih
    obtain ⟨hspent, hfee⟩ := (roundAt_left (by omega) hround).2 hleft
    rw [sumBefore_next askedFor_empty hw.onPath hnext]
    exact ⟨by omega, by omega⟩

section
variable (hp : p.Typed) (ha : amount < 2 ^ 128)
include hp ha

/-- A bin the walk stands at is one that `OutFits` is about, and the walk has what it says there. -/
theorem outWalks_visit {l : List (Nat × SwapOut × SwapOut)} {s : SwapOut} {id : Nat}
    (h : p.OutWalks swapForY t amount l s id) :
    (id = p.activeId ∨ p.sumBefore swapForY (p.askedFor swapForY t) id < amount) ∧
      ((∃ s', p.swapOutBin swapForY t s id (p.reserveOut swapForY id) = .ok s') ↔
        p.netCost swapForY id (p.reserveOut swapForY id) < 2 ^ 128 ∧
          p.reserveBefore swapForY id +
            p.given swapForY t id (amount - p.sumBefore swapForY (p.askedFor swapForY t) id) < 2 ^ 128) := by
  obtain ⟨hsum, hfees⟩ := outWalks_left ha h
  refine ⟨(outWalks_reached h).imp_right fun h0 => by omega, ?_⟩
  rw [swapOutBin_ok_iff hp (hp.priced h.mem) (by omega), walks_bought h,
    show amount - p.sumBefore swapForY (p.askedFor swapForY t) id = s.amountInLeft by omega]

theorem swapOut_returns_of_fits (h : p.OutFits swapForY t amount) :
    ∃ s, p.simulateSwapOutAt amount swapForY t = .ok s := by
  cases hrun : p.simulateSwapOutAt amount swapForY t with
  | ok s => exact ⟨s, rfl⟩
  | error e =>
    exfalso
    rcases binLoop_fails .start hrun with rfl | ⟨l, s, id, hw, hround | ⟨s', -, -, hnext⟩⟩
    · exact simulateSwapOutAt_ne_diverges amount hrun
    · unfold roundAt at hround
      split at hround
      · rename_i hr
        obtain ⟨hreached, hok⟩ := outWalks_visit hp ha hw
        obtain ⟨s', hs'⟩ := hok.2 (h id hw.onPath hr hreached)
        rw [hs'] at hround
        cases hround
      · cases hround
    · exact hp.next hw.mem e hnext

/-- A walk that ended has visited every bin its input reaches. -/
theorem fits_of_swapOut {s : SwapOut} (h : p.simulateSwapOutAt amount swapForY t = .ok s) :
    p.OutFits swapForY t amount := by
  obtain ⟨l, l₀, s₀, last, hw, hround, -, hend⟩ := binLoop_finishes .start h
  have hvisited : ∀ {l : List (Nat × SwapOut × SwapOut)} {s s' : SwapOut} {id : Nat},
      p.OutWalks swapForY t amount l s id → p.roundAt swapForY (p.swapOutBin swapForY t) s id = .ok s' →
      0 < p.reserveOut swapForY id → p.netCost swapForY id (p.reserveOut swapForY id) < 2 ^ 128 ∧
        p.reserveBefore swapForY id +
          p.given swapForY t id (amount - p.sumBefore swapForY (p.askedFor swapForY t) id) < 2 ^ 128 := by
    intro l s s' id hw hround hr
    rw [roundAt, if_pos hr] at hround
    exact (outWalks_visit hp ha hw).2.1 ⟨s', hround⟩
  intro id hid hr hreached
  rcases after_total swapForY id last with hbefore | rfl | hafter
  · obtain ⟨l₁, s₁, s₂, hw₁, hround₁⟩ := hw.at hid hr hbefore
    exact hvisited hw₁ hround₁ hr
  · exact hvisited hw hround hr
  · -- past the last bin there is none, or the input is used up
    exfalso
    obtain ⟨r, hb⟩ := reserveOut_pos hr
    rcases hend with hleft | hnone
    · obtain ⟨hsum, -⟩ := outWalks_left ha hw
      obtain ⟨hspent, -⟩ := roundAt_left (by omega) hround
      have hle := sumBefore_after (f := p.askedFor swapForY t) askedFor_empty hw.onPath hafter
      rcases hreached with rfl | hlt
      · exact onPath_not_after hw.onPath hafter
      · omega
    · exact next_none hnone hb hafter

end

/-! ## An exact output -/

theorem paidIn_empty (id : Nat) : p.paidIn swapForY t amount id (0, 0) = 0 := by
  unfold paidIn outSide
  rw [ite_self, Nat.zero_min, grossCost_zero]

theorem netCost_le_grossCost (id out : Nat) : p.netCost swapForY id out ≤ p.grossCost swapForY t id out :=
  Nat.le_add_right _ _

/-- A round buys what is left to buy of the bin, and pays for it. -/
theorem roundAt_paid {s s' : SwapIn} {id : Nat} (hrest : s.amountOutLeft = amount - p.reserveBefore swapForY id)
    (hpaid : s.amountIn = p.sumBefore swapForY (p.paidIn swapForY t amount) id) (hfees : s.totalFee ≤ s.amountIn)
    (h : p.roundAt swapForY (p.swapInBin swapForY t) s id = .ok s') :
    s'.amountOutLeft = s.amountOutLeft - p.reserveOut swapForY id ∧
      s'.amountIn = p.sumBefore swapForY (p.paidIn swapForY t amount) id + p.paidIn swapForY t amount id (p.bin id) ∧
      s'.totalFee ≤ s'.amountIn ∧ (s.amountIn < 2 ^ 128 → s'.amountIn < 2 ^ 128) := by
  have hterm : p.paidIn swapForY t amount id (p.bin id) =
      p.grossCost swapForY t id (min (p.reserveOut swapForY id) s.amountOutLeft) := by
    unfold paidIn
    rw [hrest]
    rfl
  unfold roundAt at h
  rw [hterm]
  split at h
  · obtain ⟨-, hfit, -, rfl⟩ := swapInBin_eq_ok.1 h
    have hnet : p.netCost swapForY id (min (p.reserveOut swapForY id) s.amountOutLeft) ≤
        p.grossCost swapForY t id (min (p.reserveOut swapForY id) s.amountOutLeft) := netCost_le_grossCost id _
    dsimp only
    exact ⟨by omega, by omega, by omega, fun _ => hfit⟩
  · rename_i hr
    cases h
    rw [Nat.eq_zero_of_not_pos hr, Nat.zero_min, grossCost_zero]
    exact ⟨rfl, hpaid, hfees, fun h => h⟩

/-- Where an exact-output walk stands, it has bought the bins behind it and paid for them. -/
theorem inWalks_paid {l : List (Nat × SwapIn × SwapIn)} {s : SwapIn} {id : Nat}
    (h : Walks p swapForY (p.swapInBin swapForY t) SwapIn.amountOutLeft ⟨0, amount, 0⟩ l s id) :
    s.amountOutLeft = amount - p.reserveBefore swapForY id ∧
      s.amountIn = p.sumBefore swapForY (p.paidIn swapForY t amount) id ∧ s.totalFee ≤ s.amountIn ∧
      s.amountIn < 2 ^ 128 := by
  induction h with
  | start => exact ⟨by rw [reserveBefore_active, Nat.sub_zero], (sumBefore_active _).symm, le_rfl, by norm_num⟩
  | next hw hround _ hnext ih =>
    obtain ⟨hrest, hpaid, hfees, hlt⟩ := ih
    obtain ⟨hrest', hpaid', hfees', hlt'⟩ := roundAt_paid hrest hpaid hfees hround
    rw [reserveBefore_next hw.onPath hnext, sumBefore_next paidIn_empty hw.onPath hnext]
    exact ⟨by omega, hpaid', hfees', hlt' hlt⟩

theorem swapIn_returns_of_fits (hp : p.Typed) (h : p.InFits swapForY t amount) :
    ∃ s, p.simulateSwapInAt amount swapForY t = .ok s := by
  cases hrun : p.simulateSwapInAt amount swapForY t with
  | ok s => exact ⟨s, rfl⟩
  | error e =>
    exfalso
    rcases binLoop_fails .start hrun with rfl | ⟨l, s, id, hw, hround | ⟨s', -, -, hnext⟩⟩
    · exact simulateSwapInAt_ne_diverges amount hrun
    · unfold roundAt at hround
      split at hround
      · obtain ⟨hrest, hpaid, hfees, -⟩ := inWalks_paid hw
        have hle := sumBefore_le_path (f := p.paidIn swapForY t amount) paidIn_empty hw.onPath
        have hterm : p.paidIn swapForY t amount id (p.bin id) =
            p.grossCost swapForY t id (min (p.reserveOut swapForY id) s.amountOutLeft) := by
          unfold paidIn
          rw [hrest]
          rfl
        unfold InFits at h
        rw [swapInBin_eq_ok.2 ⟨hp.priced hw.mem, by omega, by omega, rfl⟩] at hround
        cases hround
      · cases hround
    · exact hp.next hw.mem e hnext

theorem fits_of_swapIn {s : SwapIn} (h : p.simulateSwapInAt amount swapForY t = .ok s) : p.InFits swapForY t amount := by
  obtain ⟨l, l₀, s₀, last, hw, hround, -, hend⟩ := binLoop_finishes .start h
  obtain ⟨hrest, hpaid, hfees, hlt⟩ := inWalks_paid hw
  obtain ⟨hrest', hpaid', -, hlt'⟩ := roundAt_paid hrest hpaid hfees hround
  unfold InFits
  rw [sumPath_eq paidIn_empty hw.onPath fun k r hk hafter => ?_, ← hpaid']
  · exact hlt' hlt
  · rcases hend with hleft | hnone
    · -- nothing is left to buy after the last bin
      have hbefore := reserveBefore_after hw.onPath hafter
      unfold paidIn
      rw [show amount - p.reserveBefore swapForY k = 0 by omega, Nat.min_zero, grossCost_zero]
    · exact absurd hafter (next_none hnone hk)

/-! ## When they return -/

/-- The only errors of the two quotes are the native ones. -/
theorem binLoop_returns {σ : Type} {visit : σ → Nat → Nat → Except Fault σ} {left : σ → Nat} {s₀ : σ} {fuel : Nat}
    (hvisit : ∀ s id r m, visit s id r ≠ .error (.error m)) :
    Returns (p.binLoop swapForY visit left fuel s₀ p.activeId) ↔
      ∃ s, p.binLoop swapForY visit left fuel s₀ p.activeId = .ok s := by
  constructor
  · intro h
    cases hrun : p.binLoop swapForY visit left fuel s₀ p.activeId with
    | ok s => exact ⟨s, rfl⟩
    | error e =>
      rw [hrun] at h
      cases e with
      | error m =>
        exfalso
        rcases binLoop_fails .start hrun with he | ⟨l, s, id, -, hround | ⟨s', -, -, hnext⟩⟩
        · cases he
        · unfold roundAt at hround
          split at hround
          · exact hvisit _ _ _ m hround
          · cases hround
        · cases (next_error hnext).2.2
      | panic => exact absurd h id
      | overflow => exact absurd h id
      | diverges => exact absurd h id
  · rintro ⟨s, hs⟩
    rw [hs]
    trivial

/-- **When the quotes return.** On every pool with `u128` reserves and `uint24` ids, whatever its other
parameters, the exact-input quote returns exactly when it is `OutFits`, and the exact-output one exactly
when it is `InFits`. -/
theorem quotes_return_iff (hp : p.Typed) (ha : amount < 2 ^ 128) :
    (Returns (p.simulateSwapOutAt amount swapForY t) ↔ p.OutFits swapForY t amount) ∧
      (Returns (p.simulateSwapInAt amount swapForY t) ↔ p.InFits swapForY t amount) := by
  unfold simulateSwapOutAt simulateSwapInAt
  rw [binLoop_returns fun s id r _ => swapOutBin_ne (by simp) (by simp) s id r,
    binLoop_returns fun s id r _ => swapInBin_ne (by simp) (by simp) s id r]
  exact ⟨⟨fun ⟨_, hs⟩ => fits_of_swapOut hp ha hs, swapOut_returns_of_fits hp ha⟩,
    ⟨fun ⟨_, hs⟩ => fits_of_swapIn hs, swapIn_returns_of_fits hp⟩⟩

theorem oneBinPool_typed {reserveY : Nat} (h : reserveY < 2 ^ 128) : (oneBinPool reserveY).Typed := by
  refine ⟨(oneBinPool_sound h).reserves, (by norm_num : 8386608 < 2 ^ 24), fun id r hb => ?_⟩
  rw [(oneBinPool_bins hb).1]
  norm_num

theorem quotes_return_iff_one :
    (Returns ((oneBinPool (2 ^ 90)).simulateSwapOutAt 1000 true 0) ↔ (oneBinPool (2 ^ 90)).OutFits true 0 1000) ∧
      (Returns ((oneBinPool (2 ^ 90)).simulateSwapInAt 1000 true 0) ↔ (oneBinPool (2 ^ 90)).InFits true 0 1000) :=
  quotes_return_iff (oneBinPool_typed (by norm_num)) (by norm_num)

/-- A pool anyone can make: `2^101` of Y far below parity cost more X than `u128` holds, so a quote of
one unit panics. -/
theorem quotes_return_fails :
    (oneBinPool (2 ^ 101)).Typed ∧ (oneBinPool (2 ^ 101)).simulateSwapOutAt 1 true 0 = .error .panic ∧
      ¬Returns ((oneBinPool (2 ^ 101)).simulateSwapOutAt 1 true 0) ∧
      (oneBinPool (2 ^ 101)).simulateSwapInAt (2 ^ 101) true 0 = .error .panic ∧
      ¬Returns ((oneBinPool (2 ^ 101)).simulateSwapInAt (2 ^ 101) true 0) := by
  have hout : (oneBinPool (2 ^ 101)).simulateSwapOutAt 1 true 0 = .error .panic := by decide +kernel
  have hin : (oneBinPool (2 ^ 101)).simulateSwapInAt (2 ^ 101) true 0 = .error .panic := by decide +kernel
  refine ⟨oneBinPool_typed (by norm_num), hout, ?_, hin, ?_⟩
  · rw [hout]
    exact id
  · rw [hin]
    exact id

end EvmDexPool.LB.LBPool
