import EvmDexPool.V3.PriceUpdates
import EvmDexPool.V3.StepReturns

/-!
# What it takes to get to a price

Whether a step of `compute_swap_step` reaches its target is a matter of its amount and of the exact amounts between
the two prices, in whichever direction they lie: an exact input reaches it when it pays for the range and the fee on
it, an exact output when it leaves nothing of the range, or so little that the price rounds onto the target.
-/

namespace EvmDexPool.V3

open Fixed

/-- The input between two prices, rounded up. -/
def rangeInput (price stop liquidity : Nat) : Nat :=
  if stop ≤ price then exactAmount0 price stop liquidity true else exactAmount1 price stop liquidity true

/-- The output between two prices, rounded down. -/
def rangeOutput (price stop liquidity : Nat) : Nat :=
  if stop ≤ price then exactAmount1 price stop liquidity false else exactAmount0 price stop liquidity false

/-- The input between two prices with the fee on it. -/
def rangeCharge (fee price stop liquidity : Nat) : Nat :=
  rangeInput price stop liquidity + (rangeInput price stop liquidity * fee ⌈/⌉ (MAX_FEE - fee))

/-- The least output that takes the price to `stop`: more than a move to one short of it gives is enough. -/
def reachingOutput (price stop liquidity : Nat) : Nat :=
  min (rangeOutput price stop liquidity)
    (rangeOutput price (if stop ≤ price then stop + 1 else stop - 1) liquidity + 1)

section Ranges
variable {price stop liquidity : Nat} (hp0 : 0 < price) (hp : price < 2 ^ 160) (hs0 : 0 < stop) (hs : stop < 2 ^ 160)
  (hl : liquidity < 2 ^ 128)
include hp0 hp hs0 hs hl

theorem inputDelta_range : inputDelta (price ≥ stop) price stop liquidity = .ok (rangeInput price stop liquidity) := by
  unfold inputDelta rangeInput
  by_cases hle : stop ≤ price
  · rw [decide_eq_true hle, if_pos rfl, if_pos hle, getAmount0Delta_comm, getAmount0Delta_eq hl true hp0 hp hs0 hs]
  · rw [decide_eq_false hle, if_neg Bool.false_ne_true, if_neg hle, getAmount1Delta_exact hl true hp hs]

theorem outputDelta_range : outputDelta (price ≥ stop) price stop liquidity = .ok (rangeOutput price stop liquidity) := by
  unfold outputDelta rangeOutput
  by_cases hle : stop ≤ price
  · rw [decide_eq_true hle, if_pos rfl, if_pos hle, getAmount1Delta_comm, getAmount1Delta_exact hl false hp hs]
  · rw [decide_eq_false hle, if_neg Bool.false_ne_true, if_neg hle, getAmount0Delta_eq hl false hp0 hp hs0 hs]

theorem rangeInput_le_iff {k : Nat} : rangeInput price stop liquidity ≤ k ↔ Covers (price ≥ stop) price stop liquidity k := by
  obtain ⟨x, hx, hcovers⟩ := inputDelta_eq hp0 hp hs0 hs hl (onSide_of_ge price stop)
  cases hx.symm.trans (inputDelta_range hp0 hp hs0 hs hl)
  exact hcovers k

theorem le_rangeOutput_iff {k : Nat} : k ≤ rangeOutput price stop liquidity ↔ Pays (price ≥ stop) price stop liquidity k := by
  obtain ⟨x, hx, hpays⟩ := outputDelta_eq hp0 hp hs0 hs hl (onSide_of_ge price stop)
  cases hx.symm.trans (outputDelta_range hp0 hp hs0 hs hl)
  exact hpays k

end Ranges

theorem rangeOutput_self (price liquidity : Nat) : rangeOutput price price liquidity = 0 := by
  unfold rangeOutput exactAmount1
  rw [if_pos le_rfl, if_neg Bool.false_ne_true, max_self, min_self, Nat.sub_self, Nat.mul_zero, Nat.zero_div]

/-- An amount pays for a range when what the fee leaves of it does. -/
theorem rangeCharge_le_iff {fee price stop liquidity amount : Nat} (hfee : fee < MAX_FEE) :
    rangeCharge fee price stop liquidity ≤ amount ↔ rangeInput price stop liquidity ≤ lessFee amount fee := by
  have hden : 0 < MAX_FEE - fee := Nat.sub_pos_of_lt hfee
  refine ⟨fun h => le_lessFee hfee ?_ h, fun h => fee_fits hfee h⟩
  rw [Nat.mul_comm _ (MAX_FEE - fee)]
  exact (ceilDiv_le_iff hden).1 le_rfl

section Steps
variable {price target liquidity amount fee : Nat} {st : SwapStep} (hp0 : 0 < price) (hp : price < 2 ^ 160) (ht0 : 0 < target)
  (ht : target < 2 ^ 160) (hl : liquidity < 2 ^ 128) (ha : amount < 2 ^ 255)
include hp0 hp ht0 ht hl ha

/-- An exact input pays for the range, or goes in whole and stops short. -/
theorem exactInStep_range (hfee : fee < MAX_FEE) (h : exactInStep (price ≥ target) price target liquidity amount fee = .ok st) :
    (rangeCharge fee price target liquidity ≤ amount ∧ st.sqrtRatioNextX96 = target ∧
      st.amountIn + st.feeAmount = rangeCharge fee price target liquidity) ∨
    (amount < rangeCharge fee price target liquidity ∧ st.sqrtRatioNextX96 ≠ target ∧
      st.amountIn + st.feeAmount = amount ∧
      getNextSqrtPriceFromInput price liquidity (lessFee amount fee) (price ≥ target) = .ok st.sqrtRatioNextX96) := by
  have hside := onSide_of_ge price target
  have hrange := inputDelta_range hp0 hp ht0 ht hl
  rcases exactInStep_cases hp0 hp ht0 ht hl hside hfee ha h with ⟨hnext, hless, hin, -, hf⟩ | ⟨hshort, hnext, -, hin, hf⟩
  · have hin : st.amountIn = rangeInput price target liquidity := Except.ok.inj (hin.symm.trans hrange)
    refine .inl ⟨(rangeCharge_le_iff hfee).2 (hin ▸ hless), hnext, ?_⟩
    rw [hf, hin]
    rfl
  · have hcovers := (exactInStep_ok hp0 hp ht0 ht hl hside hfee ha h).covers
    refine .inr ⟨?_, fun heq => hshort ?_, ?_, hnext⟩
    · rw [← Nat.not_le, rangeCharge_le_iff hfee, rangeInput_le_iff hp0 hp ht0 ht hl]
      exact hshort
    · rw [heq, hin] at hcovers
      exact hcovers
    · have := lessFee_le amount fee
      omega

/-- An exact output empties the range, or comes out whole; it gets to the target then only by rounding. -/
theorem exactOutStep_range (h : exactOutStep (price ≥ target) price target liquidity amount fee = .ok st) :
    (rangeOutput price target liquidity ≤ amount ∧ st.sqrtRatioNextX96 = target ∧
      st.amountOut = rangeOutput price target liquidity) ∨
    (amount < rangeOutput price target liquidity ∧ st.amountOut = amount ∧
      (st.sqrtRatioNextX96 = target ↔ reachingOutput price target liquidity ≤ amount) ∧
      getNextSqrtPriceFromOutput price liquidity amount (price ≥ target) = .ok st.sqrtRatioNextX96) := by
  have hside := onSide_of_ge price target
  have hrange := outputDelta_range hp0 hp ht0 ht hl
  obtain ⟨stop, rfl, -, -, ⟨hnext, hle, hout⟩ | ⟨hmore, hout, hnext⟩⟩ := exactOutStep_cases hp0 hp ht0 ht hl hside h
  · have hout : st.amountOut = rangeOutput price target liquidity := Except.ok.inj (hout.symm.trans hrange)
    exact .inl ⟨hout ▸ hle, hnext, hout⟩
  have hshort : amount < rangeOutput price target liquidity := (le_rangeOutput_iff hp0 hp ht0 ht hl).2 hmore
  refine .inr ⟨hshort, hout, ?_, hnext⟩
  have hreach : reachingOutput price target liquidity ≤ amount ↔
      ¬amount ≤ rangeOutput price (if target ≤ price then target + 1 else target - 1) liquidity := by
    unfold reachingOutput
    omega
  rw [hreach]
  clear hreach
  generalize st.sqrtRatioNextX96 = next at *
  have hne : price ≠ target := by
    rintro rfl
    rw [rangeOutput_self] at hshort
    omega
  rcases Nat.lt_or_ge target price with hlt | hge
  · -- down: the price stops above the target when a move to one above it gives the amount
    rw [decide_eq_true hlt.le] at hnext hmore
    obtain ⟨-, -, hfirst⟩ := getNextSqrtPriceFromOutput_down hl (ha.trans (by decide)) hnext
    obtain ⟨hon, hpast, hpays⟩ := nextFromOutput_mem hp hl (show OnSide true price target from hlt.le) ha hmore hnext
    have hpast : target ≤ next := hpast
    rw [if_pos hlt.le, le_rangeOutput_iff hp0 hp (by omega) (by omega) hl, decide_eq_true (show price ≥ target + 1 from hlt)]
    refine ⟨?_, fun hno => ?_⟩
    · rintro rfl hone
      rw [Pays, if_pos rfl] at hone
      exact absurd (hfirst _ hlt hone) (Nat.not_succ_le_self _)
    · by_contra hne'
      exact hno (hpays.further (by omega) hon (show target + 1 ≤ next by omega))
  · have hlt : price < target := by omega
    have hdir : ¬price ≥ target := by omega
    rw [decide_eq_false hdir] at hnext hmore
    obtain ⟨-, -, hfirst⟩ := getNextSqrtPriceFromOutput_up hl hp hnext
    obtain ⟨hon, hpast, hpays⟩ := nextFromOutput_mem hp hl (show OnSide false price target from hlt.le) ha hmore hnext
    have hpast : next ≤ target := hpast
    have hon' : price ≤ next := hon
    have hiff : amount ≤ rangeOutput price (target - 1) liquidity ↔ Pays false price (target - 1) liquidity amount := by
      by_cases hnear : target - 1 = price
      · rw [hnear, rangeOutput_self, Pays, if_neg Bool.false_ne_true, Nat.sub_self, Nat.mul_zero, Nat.le_zero, Nat.le_zero,
          Nat.mul_eq_zero, or_iff_left (Nat.mul_pos hp0 hp0).ne']
      · rw [le_rangeOutput_iff hp0 hp (by omega) (by omega) hl, decide_eq_false (by omega)]
    rw [if_neg hdir, hiff]
    refine ⟨?_, fun hno => ?_⟩
    · rintro rfl hone
      rw [Pays, if_neg Bool.false_ne_true] at hone
      have := hfirst _ (by omega) hone
      omega
    · by_contra hne'
      exact hno (hpays.further (by omega) hon (show next ≤ target - 1 by omega))

end Steps

/-! ## A move down that an amount does not finish -/

/-- The range down to `stop` takes the whole amount, which is enough to move the price at all. -/
def FallsBack (fee price stop liquidity : Nat) (amount : Int) : Prop :=
  if 0 ≤ amount then
    amount ≤ rangeCharge fee price stop liquidity ∧ liquidity * 2 ^ 96 ≤ lessFee amount.toNat fee * (price * (price - 1))
  else -amount ≤ rangeOutput price stop liquidity

section Falls
variable {price stop liquidity : Nat} (hp : price < 2 ^ 160) (hl : liquidity < 2 ^ 128)
include hp hl

/-- An input of token 0 moves the price when it is not rounded away. -/
theorem inputDown_lt_iff {amount next : Nat} (hp1 : 1 < price) (ha : amount < 2 ^ 255)
    (h : getNextSqrtPriceFromInput price liquidity amount true = .ok next) :
    next < price ↔ liquidity * 2 ^ 96 ≤ amount * (price * (price - 1)) := by
  obtain ⟨-, hl0, rfl⟩ := getNextSqrtPriceFromInput_down_eq hl hp ha h
  have hN : liquidity * 2 ^ 96 < 2 ^ 224 := by omega
  have hN0 : 0 < liquidity * 2 ^ 96 := by omega
  clear h hl hl0
  generalize liquidity * 2 ^ 96 = N at *
  obtain ⟨q, rfl⟩ : ∃ q, price = q + 1 := ⟨price - 1, by omega⟩
  rw [Nat.add_sub_cancel]
  split
  · rw [Nat.lt_succ_iff, ceilDiv_le_iff (by omega)]
    have hsplit : (N + amount * (q + 1)) * q = N * q + amount * ((q + 1) * q) := by ring
    rw [hsplit, Nat.mul_succ]
    omega
  · rename_i hlarge
    have hmoves : N ≤ amount * ((q + 1) * q) := by
      calc N ≤ amount * (q + 1) := by omega
        _ ≤ amount * (q + 1) * q := Nat.le_mul_of_pos_right _ (by omega)
        _ = amount * ((q + 1) * q) := Nat.mul_assoc _ _ _
    refine iff_of_true ?_ hmoves
    have ha0 : 0 < amount := Nat.pos_of_ne_zero fun h0 => by rw [h0, Nat.zero_mul] at hlarge; omega
    rw [Nat.lt_succ_iff, ceilDiv_le_iff (Nat.add_pos_right _ ha0)]
    have hhalf : amount * (q + 1) ≤ 2 * (amount * q) := by
      rw [Nat.mul_left_comm]
      exact Nat.mul_le_mul_left _ (by omega)
    calc N ≤ amount * q := by omega
      _ ≤ (N / (q + 1) + amount) * q := Nat.mul_le_mul_right _ (Nat.le_add_left _ _)

variable {fee : Nat} {amount : Int} (hfee : fee < MAX_FEE) (hs0 : 0 < stop) (hs : stop ≤ price)
include hfee hs0 hs

theorem exactIn_fallsBack {a : Nat} (ha0 : 0 < a) (ha : a < 2 ^ 255) {step : SwapStep}
    (h : exactInStep (price ≥ stop) price stop liquidity a fee = .ok step) :
    step.sqrtRatioNextX96 < price ∧ step.amountIn + step.feeAmount = a ↔ FallsBack fee price stop liquidity a := by
  have hp0 : 0 < price := by omega
  have hsame : rangeCharge fee price price liquidity = 0 := by
    simp [rangeCharge, rangeInput, exactAmount0]
  have hdown : decide (price ≥ stop) = true := decide_eq_true hs
  unfold FallsBack
  rw [if_pos (Int.natCast_nonneg a), Int.toNat_natCast]
  rcases exactInStep_range hp0 hp hs0 (by omega) hl ha hfee h with ⟨hpays, hnext, hin⟩ | ⟨hshort, -, hin, hnext⟩
  · rw [hnext, hin]
    constructor
    · rintro ⟨hlt, rfl⟩
      refine ⟨le_rfl, ?_⟩
      have hcovers := (rangeInput_le_iff hp0 hp hs0 (by omega) hl).1 ((rangeCharge_le_iff hfee).1 le_rfl)
      rw [hdown, Covers, if_pos rfl] at hcovers
      generalize lessFee _ fee = less at *
      calc liquidity * 2 ^ 96 ≤ liquidity * 2 ^ 96 * (price - stop) := Nat.le_mul_of_pos_right _ (by omega)
        _ ≤ less * (price * stop) := hcovers
        _ ≤ less * (price * (price - 1)) := Nat.mul_le_mul_left _ (Nat.mul_le_mul_left _ (by omega))
    · rintro ⟨hle, -⟩
      refine ⟨lt_of_le_of_ne hs ?_, by omega⟩
      rintro rfl
      omega
  · have hp1 : 1 < price := by
      by_contra hone
      obtain rfl : price = stop := by omega
      omega
    rw [hdown] at hnext
    have hmoves := inputDown_lt_iff hp hl hp1 (by have := lessFee_le a fee; omega) hnext
    rw [hmoves, hin]
    exact ⟨fun h => ⟨by omega, h.1⟩, fun h => ⟨h.2, rfl⟩⟩

omit hfee in
theorem exactOut_fallsBack {a : Nat} (ha0 : 0 < a) (ha : a < 2 ^ 255) {step : SwapStep}
    (h : exactOutStep (price ≥ stop) price stop liquidity a fee = .ok step) :
    step.sqrtRatioNextX96 < price ∧ step.amountOut = a ↔ FallsBack fee price stop liquidity (-a) := by
  have hp0 : 0 < price := by omega
  unfold FallsBack
  rw [if_neg (by omega), Int.neg_neg]
  rcases exactOutStep_range hp0 hp hs0 (by omega) hl ha h with ⟨hpays, hnext, hout⟩ | ⟨hshort, hout, -, hnext⟩
  · rw [hnext, hout]
    refine ⟨fun h => by omega, fun hle => ⟨lt_of_le_of_ne hs ?_, by omega⟩⟩
    rintro rfl
    rw [rangeOutput_self] at hle
    omega
  · refine iff_of_true ⟨?_, hout⟩ (by omega)
    rw [decide_eq_true (show price ≥ stop from hs)] at hnext
    obtain ⟨hle, hpaid, -⟩ := getNextSqrtPriceFromOutput_down hl (ha.trans (by decide)) hnext
    refine lt_of_le_of_ne hle fun heq => ?_
    rw [heq, Nat.sub_self, Nat.mul_zero] at hpaid
    omega

/-- A step down takes the whole amount and lowers the price exactly when it falls back. -/
theorem fallsBack_iff (ha : -2 ^ 255 ≤ amount ∧ amount < 2 ^ 255) (hne : amount ≠ 0) :
    FallsBack fee price stop liquidity amount ↔
      ∃ step, computeSwapStep price stop liquidity amount fee = .ok step ∧ step.sqrtRatioNextX96 < price ∧
        (if 0 ≤ amount then (step.amountIn + step.feeAmount : Int) = amount else (step.amountOut : Int) = -amount) := by
  have hp0 : 0 < price := by omega
  have hside := onSide_of_ge price stop
  unfold computeSwapStep
  dsimp only
  by_cases hin : 0 ≤ amount
  · obtain ⟨a, rfl⟩ := Int.eq_ofNat_of_zero_le hin
    rw [if_pos (ge_iff_le.2 hin), Int.toNat_natCast]
    simp only [if_pos hin]
    obtain ⟨step, hstep⟩ := exactInStep_returns hp0 hp hs0 (by omega) hl hside hfee (show a < 2 ^ 255 by omega)
    rw [← exactIn_fallsBack hp hl hfee hs0 hs (by omega) (by omega) hstep]
    constructor
    · rintro ⟨hlt, hall⟩
      exact ⟨step, hstep, hlt, by exact_mod_cast hall⟩
    · rintro ⟨step', hstep', hlt, hall⟩
      cases hstep.symm.trans hstep'
      exact ⟨hlt, by exact_mod_cast hall⟩
  · obtain ⟨a, ha'⟩ := Int.eq_ofNat_of_zero_le (show 0 ≤ -amount by omega)
    obtain rfl : amount = -a := by omega
    rw [if_neg (by omega)]
    simp only [if_neg hin, Int.neg_neg]
    by_cases hmin : (-a : Int) = -2 ^ 255
    · -- no step, and no range gives so much
      rw [if_pos hmin]
      refine iff_of_false (fun hfalls => ?_) (by rintro ⟨_, h, -⟩; cases h)
      rw [FallsBack, if_neg hin, Int.neg_neg] at hfalls
      have hpays := (le_rangeOutput_iff hp0 hp hs0 (by omega) hl).1 (Int.ofNat_le.1 hfalls)
      rw [decide_eq_true (show price ≥ stop from hs), Pays, if_pos rfl] at hpays
      have hroom : liquidity * (price - stop) ≤ 2 ^ 128 * 2 ^ 160 := Nat.mul_le_mul hl.le (by omega)
      omega
    · rw [if_neg hmin, Int.toNat_natCast]
      obtain ⟨step, hstep⟩ := exactOutStep_returns hp0 hp hs0 (by omega) hl hside (hfee.trans (by decide)) hfee.ne
        (show a < 2 ^ 255 by omega)
      rw [← exactOut_fallsBack hp hl hs0 hs (by omega) (by omega) hstep]
      constructor
      · rintro ⟨hlt, hall⟩
        exact ⟨step, hstep, hlt, by exact_mod_cast hall⟩
      · rintro ⟨step', hstep', hlt, hall⟩
        cases hstep.symm.trans hstep'
        exact ⟨hlt, by exact_mod_cast hall⟩

end Falls

end EvmDexPool.V3
