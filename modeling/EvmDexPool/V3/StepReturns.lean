import EvmDexPool.V3.SwapMath

/-!
# A step between two prices in bounds returns

Where a price update is asked for at all, the amount falls short of the target: its price lies between two
prices that fit their words, so nothing on the way to it leaves a word (`nextFromInput_returns`,
`nextFromOutput_returns`). So neither arm of `compute_swap_step` fails (`computeSwapStep_returns`).
-/

namespace EvmDexPool.V3

open Fixed

/-! ## Price updates -/

section Prices
variable {price liquidity amount target : Nat} (hl : liquidity < 2 ^ 128)
include hl

theorem inputDown_returns (hp0 : 0 < price) (hp : price < 2 ^ 160) (hl0 : 0 < liquidity) (ha : amount < 2 ^ 255) :
    ∃ next, getNextSqrtPriceFromInput price liquidity amount true = .ok next := by
  have hnum : liquidity * 2 ^ 96 % 2 ^ 256 = liquidity * 2 ^ 96 := Nat.mod_eq_of_lt (by omega)
  have hN : liquidity * 2 ^ 96 < 2 ^ 224 := by omega
  have hN0 : 0 < liquidity * 2 ^ 96 := by omega
  unfold getNextSqrtPriceFromInput getNextSqrtPriceFromAmount0RoundingUp
  rw [if_neg (by omega), if_pos rfl, hnum]
  clear hnum hl hl0
  generalize liquidity * 2 ^ 96 = N at *
  split
  · exact ⟨_, rfl⟩
  rename_i ha0
  dsimp only
  rw [if_pos rfl]
  split
  · rename_i hfit
    have hden : 0 < wadd 256 N (wmul 256 amount price) := hN0.trans_le hfit.2
    have hle : N * price ⌈/⌉ wadd 256 N (wmul 256 amount price) ≤ price :=
      (ceilDiv_le_iff hden).2 (Nat.mul_le_mul_right _ hfit.2)
    rw [mulDivRoundingUp_eq (by omega) (by omega) wadd_lt, if_pos ⟨hden, by omega⟩, ok_bind]
    exact ⟨_, toU160_ok.2 ⟨by omega, rfl⟩⟩
  · have hfloor := Nat.lt_mul_div_succ N hp0
    have hle : N / price ≤ N := Nat.div_le_self _ _
    have hsum : wadd 256 (N / price) amount = N / price + amount := wadd_of_lt (by omega)
    have hden : 0 < N / price + amount := Nat.add_pos_right _ (Nat.pos_of_ne_zero ha0)
    have hprice : N ⌈/⌉ (N / price + amount) ≤ price := by
      refine (ceilDiv_le_iff hden).2 ?_
      calc N ≤ price * (N / price + 1) := hfloor.le
        _ ≤ (N / price + amount) * price := by rw [Nat.mul_comm]; exact Nat.mul_le_mul_right _ (by omega)
    rw [udiv_ok.2 ⟨hp0, rfl⟩, ok_bind, hsum, udivCeil_ok.2 ⟨hden, rfl⟩, ok_bind]
    exact ⟨_, toU160_ok.2 ⟨by omega, rfl⟩⟩

theorem inputUp_returns (hp0 : 0 < price) (hl0 : 0 < liquidity) (ha : amount < 2 ^ 256) (ht : target < 2 ^ 160)
    (hpt : price ≤ target) (hle : amount * 2 ^ 96 ≤ liquidity * (target - price)) :
    getNextSqrtPriceFromInput price liquidity amount false = .ok (price + amount * 2 ^ 96 / liquidity) := by
  have hq : amount * 2 ^ 96 / liquidity ≤ target - price := Nat.div_le_of_le_mul hle
  have hquotient : (if amount ≤ U160_MAX then udiv (amount * 2 ^ 96 % 2 ^ 256) liquidity else mulDiv amount Q96 liquidity) =
      .ok (amount * 2 ^ 96 / liquidity) := by
    split
    · rename_i hsmall
      unfold U160_MAX at hsmall
      rw [Nat.mod_eq_of_lt (by omega)]
      exact udiv_ok.2 ⟨hl0, rfl⟩
    · have hQ : (Q96 : Nat) = 2 ^ 96 := rfl
      rw [mulDiv_eq ha (by decide) (by omega), hQ, if_pos ⟨hl0, by omega⟩]
  unfold getNextSqrtPriceFromInput getNextSqrtPriceFromAmount1RoundingDown
  rw [if_neg (by omega), if_neg Bool.false_ne_true, if_pos rfl]
  dsimp only
  rw [hquotient, ok_bind, wadd_of_lt (by omega)]
  exact tryU160_ok.2 ⟨by omega, rfl⟩

theorem outputDown_returns (hp : price < 2 ^ 160) (hl0 : 0 < liquidity) (ha : amount < 2 ^ 256) (ht0 : 0 < target)
    (htp : target ≤ price) (hle : amount * 2 ^ 96 ≤ liquidity * (price - target)) :
    getNextSqrtPriceFromOutput price liquidity amount true = .ok (price - amount * 2 ^ 96 ⌈/⌉ liquidity) := by
  have hq : amount * 2 ^ 96 ⌈/⌉ liquidity ≤ price - target := (ceilDiv_le_iff hl0).2 hle
  have hquotient : (if amount ≤ U160_MAX then udivCeil (amount * 2 ^ 96 % 2 ^ 256) liquidity
      else mulDivRoundingUp amount Q96 liquidity) = .ok (amount * 2 ^ 96 ⌈/⌉ liquidity) := by
    split
    · rename_i hsmall
      unfold U160_MAX at hsmall
      rw [Nat.mod_eq_of_lt (by omega)]
      exact udivCeil_ok.2 ⟨hl0, rfl⟩
    · have hQ : (Q96 : Nat) = 2 ^ 96 := rfl
      rw [mulDivRoundingUp_eq ha (by decide) (by omega), hQ, if_pos ⟨hl0, by omega⟩]
  unfold getNextSqrtPriceFromOutput getNextSqrtPriceFromAmount1RoundingDown
  rw [if_neg (by omega), if_pos rfl, if_neg Bool.false_ne_true]
  dsimp only
  rw [hquotient, ok_bind, if_pos (show price > _ by omega)]
  exact toU160_ok.2 ⟨by omega, rfl⟩

theorem outputUp_returns (hp0 : 0 < price) (hp : price < 2 ^ 160) (hl0 : 0 < liquidity) (ht : target < 2 ^ 160)
    (hlt : amount * price < liquidity * 2 ^ 96)
    (hreach : amount * (price * target) + liquidity * 2 ^ 96 * price ≤ liquidity * 2 ^ 96 * target) :
    getNextSqrtPriceFromOutput price liquidity amount false =
      .ok (liquidity * 2 ^ 96 * price ⌈/⌉ (liquidity * 2 ^ 96 - amount * price)) := by
  have hnum : liquidity * 2 ^ 96 % 2 ^ 256 = liquidity * 2 ^ 96 := Nat.mod_eq_of_lt (by omega)
  have hN : liquidity * 2 ^ 96 < 2 ^ 224 := by omega
  unfold getNextSqrtPriceFromOutput getNextSqrtPriceFromAmount0RoundingUp
  rw [if_neg (by omega), if_neg Bool.false_ne_true, hnum]
  clear hnum hl
  have hN0 : 0 < liquidity * 2 ^ 96 := by omega
  generalize liquidity * 2 ^ 96 = N at *
  have hden : 0 < N - amount * price := by omega
  have hnext : N * price ⌈/⌉ (N - amount * price) ≤ target := by
    rw [ceilDiv_le_iff hden, Nat.sub_mul, Nat.mul_assoc]
    omega
  split
  · rename_i ha0
    rw [ha0, Nat.zero_mul, Nat.sub_zero]
    refine congrArg Except.ok (Nat.le_antisymm ?_ ((ceilDiv_le_iff hN0).2 le_rfl))
    exact Nat.le_of_mul_le_mul_left ((ceilDiv_le_iff hN0 (n := N * price)).1 le_rfl) hN0
  rename_i ha0
  have hprod : wmul 256 amount price = amount * price := wmul_of_lt (by omega)
  dsimp only
  rw [if_neg Bool.false_ne_true, hprod, Nat.mul_div_cancel_left _ (Nat.pos_of_ne_zero ha0), if_neg (not_not.2 ⟨rfl, hlt⟩),
    mulDivRoundingUp_eq (by omega) (by omega) (by omega), if_pos ⟨hden, by omega⟩, ok_bind]
  exact tryU160_ok.2 ⟨by omega, rfl⟩

end Prices

/-! ## A step -/

/-- The fee on an input fits, also where the rate is above one and its complement wraps. -/
theorem fee_returns {x fee : Nat} (hx : x < 2 ^ 225) (hfee : fee < 2 ^ 24) (hne : fee ≠ MAX_FEE) :
    ∃ f, mulDivRoundingUp x fee (wsub 256 MAX_FEE fee) = .ok f := by
  have hden : 0 < wsub 256 MAX_FEE fee := by
    unfold wsub MAX_FEE at *
    omega
  have hle : x * fee ⌈/⌉ wsub 256 MAX_FEE fee ≤ x * fee := (ceilDiv_le_iff hden).2 (Nat.le_mul_of_pos_left _ hden)
  have hmul : x * fee ≤ 2 ^ 225 * 2 ^ 24 := Nat.mul_le_mul hx.le hfee.le
  rw [mulDivRoundingUp_eq (by omega) (by omega) wsub_lt, if_pos ⟨hden, by omega⟩]
  exact ⟨_, rfl⟩

section Step
variable {zeroForOne : Bool} {price target liquidity amount fee : Nat} (hp0 : 0 < price) (hp : price < 2 ^ 160)
  (ht0 : 0 < target) (ht : target < 2 ^ 160) (hl : liquidity < 2 ^ 128) (hside : OnSide zeroForOne price target)

/-- Without liquidity every move is covered. -/
theorem liquidity_pos_of_short (hshort : ¬Covers zeroForOne price target liquidity amount) : 0 < liquidity := by
  refine Nat.pos_of_ne_zero fun h0 => hshort ?_
  rw [h0, Covers, Nat.zero_mul, Nat.zero_mul, Nat.zero_mul]
  split <;> exact Nat.zero_le _

include hp0 hp ht hl hside

theorem nextFromInput_returns (ha : amount < 2 ^ 255) (hshort : ¬Covers zeroForOne price target liquidity amount) :
    ∃ next, getNextSqrtPriceFromInput price liquidity amount zeroForOne = .ok next := by
  have hl0 := liquidity_pos_of_short hshort
  cases zeroForOne with
  | true => exact inputDown_returns hl hp0 hp hl0 ha
  | false =>
    rw [Covers, if_neg Bool.false_ne_true] at hshort
    exact ⟨_, inputUp_returns hl hp0 hl0 (by omega) ht hside (by omega)⟩

include ht0

/-- An output that falls short of the target moves the price by the one formula or the other. -/
theorem nextFromOutput_returns (ha : amount < 2 ^ 255) (hmore : Pays zeroForOne price target liquidity (amount + 1)) :
    0 < liquidity ∧ (zeroForOne = false → amount * price < liquidity * 2 ^ 96) ∧
      getNextSqrtPriceFromOutput price liquidity amount zeroForOne =
        .ok (if zeroForOne then price - amount * 2 ^ 96 ⌈/⌉ liquidity
          else liquidity * 2 ^ 96 * price ⌈/⌉ (liquidity * 2 ^ 96 - amount * price)) := by
  have hpt : 0 < price * target := Nat.mul_pos hp0 ht0
  cases zeroForOne with
  | true =>
    rw [Pays, if_pos rfl] at hmore
    have hl0 : 0 < liquidity := Nat.pos_of_ne_zero fun h0 => by
      rw [h0, Nat.zero_mul] at hmore
      omega
    rw [if_pos rfl]
    exact ⟨hl0, Bool.noConfusion, outputDown_returns hl hp hl0 (ha.trans (by decide)) ht0 hside
      ((Nat.mul_le_mul_right _ (Nat.le_succ _)).trans hmore)⟩
  | false =>
    have hle : price ≤ target := hside
    rw [Pays, if_neg Bool.false_ne_true] at hmore
    have hl0 : 0 < liquidity := Nat.pos_of_ne_zero fun h0 => by
      rw [h0, Nat.zero_mul, Nat.zero_mul, Nat.succ_mul] at hmore
      omega
    have hfits : amount * (price * target) + liquidity * 2 ^ 96 * price ≤ liquidity * 2 ^ 96 * target ∧
        amount * price < liquidity * 2 ^ 96 := by
      have hN0 : 0 < liquidity * 2 ^ 96 := Nat.mul_pos hl0 (Nat.two_pow_pos _)
      generalize liquidity * 2 ^ 96 = N at *
      have hsplit : N * (target - price) + N * price = N * target := by rw [← Nat.mul_add, Nat.sub_add_cancel hle]
      rw [Nat.succ_mul] at hmore
      refine ⟨by omega, Nat.lt_of_mul_lt_mul_right (a := target) ?_⟩
      rw [Nat.mul_assoc]
      have hNp : 0 < N * price := Nat.mul_pos hN0 hp0
      omega
    rw [if_neg Bool.false_ne_true]
    exact ⟨hl0, fun _ => hfits.2, outputUp_returns hl hp0 hp hl0 ht hfits.2 hfits.1⟩

theorem exactInStep_returns (hfee : fee < MAX_FEE) (ha : amount < 2 ^ 255) :
    ∃ st, exactInStep zeroForOne price target liquidity amount fee = .ok st := by
  have hfee' : fee < 1000000 := hfee
  have hlessle := lessFee_le amount fee
  obtain ⟨x, hx, hcovers⟩ := inputDelta_eq hp0 hp ht0 ht hl hside
  obtain ⟨y, hy, -⟩ := outputDelta_eq hp0 hp ht0 ht hl hside
  have hxlt := inputDelta_lt hp0 hp ht0 ht hl hside hx
  have hless : mulDiv amount (MAX_FEE - fee) MAX_FEE = .ok (lessFee amount fee) := by
    rw [mulDiv_eq (by omega) (by unfold MAX_FEE; omega) (by decide)]
    exact if_pos ⟨by decide, by change lessFee amount fee < _; omega⟩
  unfold exactInStep
  rw [feeComplement_eq hfee]
  dsimp only
  rw [hless, ok_bind, hx, ok_bind]
  split
  · obtain ⟨f, hf⟩ := fee_returns hxlt (by omega) hfee.ne
    rw [feeComplement_eq hfee] at hf
    rw [hf, ok_bind, hy, ok_bind]
    exact ⟨_, rfl⟩
  · rename_i hshort
    have hshort : ¬Covers zeroForOne price target liquidity (lessFee amount fee) := fun h => hshort ((hcovers _).2 h)
    obtain ⟨next, hnext⟩ := nextFromInput_returns hp0 hp ht hl hside (by omega) hshort
    obtain ⟨hon, hpast, -⟩ := nextFromInput_mem hp hl hside ht (by omega) hshort hnext
    have hmem := onSide_mem hon hpast
    obtain ⟨z, hz, -⟩ := outputDelta_eq hp0 hp (show 0 < next by omega) (by omega) hl hon
    rw [hnext, ok_bind, hz, ok_bind]
    exact ⟨_, rfl⟩

theorem exactOutStep_returns (hfee : fee < 2 ^ 24) (hne : fee ≠ MAX_FEE) (ha : amount < 2 ^ 255) :
    ∃ st, exactOutStep zeroForOne price target liquidity amount fee = .ok st := by
  obtain ⟨y, hy, hpays⟩ := outputDelta_eq hp0 hp ht0 ht hl hside
  unfold exactOutStep
  dsimp only
  rw [hy, ok_bind]
  split
  · obtain ⟨x, hx, -⟩ := inputDelta_eq hp0 hp ht0 ht hl hside
    obtain ⟨f, hf⟩ := fee_returns (inputDelta_lt hp0 hp ht0 ht hl hside hx) hfee hne
    rw [hx, ok_bind, hf, ok_bind]
    exact ⟨_, rfl⟩
  · have hmore : Pays zeroForOne price target liquidity (amount + 1) := (hpays _).1 (by omega)
    obtain ⟨-, -, hnext⟩ := nextFromOutput_returns hp0 hp ht0 ht hl hside ha hmore
    generalize (if zeroForOne then _ else _ : Nat) = next at hnext
    obtain ⟨hon, hpast, -⟩ := nextFromOutput_mem hp hl hside ha hmore hnext
    have hmem := onSide_mem hon hpast
    have hn0 : 0 < next := by omega
    have hn : next < 2 ^ 160 := by omega
    obtain ⟨x, hx, -⟩ := inputDelta_eq hp0 hp hn0 hn hl hon
    obtain ⟨f, hf⟩ := fee_returns (inputDelta_lt hp0 hp hn0 hn hl hon hx) hfee hne
    rw [hnext, ok_bind, hx, ok_bind, hf, ok_bind]
    exact ⟨_, rfl⟩

end Step

/-- At a rate of one there is no step to a target that takes an input; the whole amount is the fee of one that does not move. -/
theorem exactInStep_wholeFee {zeroForOne : Bool} {price target liquidity amount : Nat} {st : SwapStep} (hp0 : 0 < price)
    (hp : price < 2 ^ 160) (ht0 : 0 < target) (ht : target < 2 ^ 160) (hl : liquidity < 2 ^ 128)
    (hside : OnSide zeroForOne price target) (ha : amount < 2 ^ 255)
    (h : exactInStep zeroForOne price target liquidity amount MAX_FEE = .ok st) :
    st.sqrtRatioNextX96 = price ∧ price ≠ target ∧ st.amountIn = 0 ∧ st.feeAmount = amount := by
  have hcomplement : wsub 256 MAX_FEE MAX_FEE = 0 := by decide
  have hless : mulDiv amount 0 MAX_FEE = .ok 0 := by
    rw [mulDiv_eq (by omega) (by decide) (by decide), Nat.mul_zero, Nat.zero_div, if_pos ⟨by decide, by decide⟩]
  obtain ⟨x, hx, hcovers⟩ := inputDelta_eq hp0 hp ht0 ht hl hside
  unfold exactInStep at h
  rw [hcomplement] at h
  dsimp only at h
  rw [hless, ok_bind, hx, ok_bind] at h
  split at h
  · rw [mulDivRoundingUp_eq (by omega) (by decide) (by decide), if_neg (fun h => absurd h.1 (Nat.lt_irrefl 0))] at h
    cases h
  · rename_i hshort
    have hshort : ¬Covers zeroForOne price target liquidity 0 := fun h => hshort ((hcovers 0).2 h)
    obtain ⟨next, hnext, h⟩ := bind_eq_ok.1 h
    obtain ⟨out, -, h⟩ := bind_eq_ok.1 h
    cases h
    obtain ⟨hon, -, hcov⟩ := nextFromInput_mem hp hl hside ht (by decide) hshort hnext
    have hl0 := liquidity_pos_of_short hshort
    refine ⟨?_, ?_, rfl, wsub_of_le (Nat.zero_le _) (by omega)⟩
    · cases zeroForOne with
      | true =>
        have hon : next ≤ price := hon
        rw [Covers, if_pos rfl, Nat.zero_mul, Nat.le_zero, Nat.mul_eq_zero, or_iff_right (by omega)] at hcov
        change next = price
        omega
      | false =>
        have hon : price ≤ next := hon
        rw [Covers, if_neg Bool.false_ne_true, Nat.zero_mul, Nat.le_zero, Nat.mul_eq_zero, or_iff_right (by omega)] at hcov
        change next = price
        omega
    · rintro rfl
      refine hshort ?_
      rw [Covers, Nat.sub_self, Nat.mul_zero, Nat.mul_zero]
      split <;> exact Nat.zero_le _

/-- **What a step does at every rate**, an exact input's being at most one. -/
theorem computeSwapStep_moves {price target liquidity fee : Nat} {remaining : Int} {st : SwapStep} (hp0 : 0 < price)
    (hp : price < 2 ^ 160) (ht0 : 0 < target) (ht : target < 2 ^ 160) (hl : liquidity < 2 ^ 128)
    (hrate : 0 ≤ remaining → fee ≤ MAX_FEE) (hr : -2 ^ 255 ≤ remaining ∧ remaining < 2 ^ 255)
    (h : computeSwapStep price target liquidity remaining fee = .ok st) :
    StepMoves (price ≥ target) price target remaining st := by
  have hside := onSide_of_ge price target
  unfold computeSwapStep at h
  dsimp only at h
  by_cases hin : remaining ≥ 0
  · rw [if_pos hin] at h
    rcases (hrate hin).lt_or_eq with hlt | rfl
    · have hok := exactInStep_ok hp0 hp ht0 ht hl hside hlt (by omega) h
      rw [Int.toNat_of_nonneg hin] at hok
      exact hok.moves
    · obtain ⟨hnext, hne, hfree, hall⟩ := exactInStep_wholeFee hp0 hp ht0 ht hl hside (by omega) h
      refine ⟨?_, ?_, fun _ => ⟨by omega, fun _ => by omega⟩, fun hneg => by omega⟩
      · rw [hnext]
        exact onSide_refl _ _
      · rw [hnext]
        exact hside
  · rw [if_neg hin] at h
    split at h
    · cases h
    obtain ⟨hon, hpast, -, hle, hall⟩ := exactOutStep_moves hp0 hp ht0 ht hl hside (by omega) h
    refine ⟨hon, hpast, fun hge => absurd hge hin, fun _ => ⟨by omega, fun hne => ?_⟩⟩
    have := hall hne
    omega

/-- **A step returns** for every amount but the one that has no negative, and for every rate but one; an exact input
asks for a rate below one. -/
theorem computeSwapStep_returns {price target liquidity fee : Nat} {remaining : Int} (hp0 : 0 < price) (hp : price < 2 ^ 160)
    (ht0 : 0 < target) (ht : target < 2 ^ 160) (hl : liquidity < 2 ^ 128) (hfee : fee < 2 ^ 24) (hne : fee ≠ MAX_FEE)
    (hrate : 0 ≤ remaining → fee < MAX_FEE) (hr : -2 ^ 255 < remaining ∧ remaining < 2 ^ 255) :
    ∃ st, computeSwapStep price target liquidity remaining fee = .ok st := by
  have hside := onSide_of_ge price target
  unfold computeSwapStep
  dsimp only
  split
  · rename_i hin
    exact exactInStep_returns hp0 hp ht0 ht hl hside (hrate hin) (by omega)
  · rw [if_neg (by omega)]
    exact exactOutStep_returns hp0 hp ht0 ht hl hside hfee hne (by omega)

end EvmDexPool.V3
