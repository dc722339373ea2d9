import EvmDexPool.V3.InRange
import EvmDexPool.V3.SwapTermination

/-!
# What an exact-output run is charged

A step between two prices in bounds is charged less than `2^213`, its fee included, and a run has fewer
than `2^25` rounds. So what it is charged adds up without a wrap (`loop_charged`).
-/

namespace EvmDexPool.V3

open Fixed

section Step
variable {zeroForOne : Bool} {price target liquidity amount fee : Nat} {st : SwapStep} (hp0 : 2 ^ 32 ≤ price)
  (hp : price < 2 ^ 160) (ht0 : 2 ^ 32 ≤ target) (ht : target < 2 ^ 160) (hl : liquidity < 2 ^ 128)
  (hside : OnSide zeroForOne price target)
include hp0 hp ht0 ht hl hside

theorem exactOutStep_charge (hfee : fee < MAX_FEE) (ha : amount < 2 ^ 255)
    (h : exactOutStep zeroForOne price target liquidity amount fee = .ok st) : st.amountIn + st.feeAmount < 2 ^ 213 := by
  obtain ⟨hon, hpast, -⟩ := exactOutStep_moves (by omega) hp (by omega) ht hl hside ha h
  obtain ⟨stop, rfl, hin, hf, -⟩ := exactOutStep_cases (by omega) hp (by omega) ht hl hside h
  have hmem := onSide_mem hon hpast
  have hle := inputDelta_le (by omega) hp (by omega) (by omega) hl hon (fun _ => by omega) hin
  have hfee' : fee < 1000000 := hfee
  rw [feeComplement_eq hfee] at hf
  obtain ⟨hc, -, hceil⟩ := mulDivRoundingUp_ok (by omega) (by omega) (by unfold MAX_FEE; omega) hf
  have hfeele : st.feeAmount ≤ st.amountIn * fee := by
    rw [hceil, ceilDiv_le_iff hc]
    exact Nat.le_mul_of_pos_left _ hc
  have hmul : st.amountIn * fee ≤ 2 ^ 192 * 1000000 := Nat.mul_le_mul hle hfee'.le
  omega

end Step

theorem computeSwapStep_exactOut {price target liquidity fee : Nat} {remaining : Int} {st : SwapStep} (h : remaining < 0)
    (hstep : computeSwapStep price target liquidity remaining fee = .ok st) :
    exactOutStep (price ≥ target) price target liquidity (-remaining).toNat fee = .ok st := by
  unfold computeSwapStep at hstep
  dsimp only at hstep
  rw [if_neg (by omega)] at hstep
  split at hstep
  · cases hstep
  · exact hstep

/-- Where nothing is to cover there is nothing to pay. -/
theorem Pays.nothing {zeroForOne : Bool} {price stop liquidity amount : Nat} (hp0 : 0 < price) (hs0 : 0 < stop)
    (h : Pays zeroForOne price stop liquidity amount) (hcovers : Covers zeroForOne price stop liquidity 0) : amount = 0 := by
  cases zeroForOne with
  | true =>
    rw [Covers, if_pos rfl, Nat.zero_mul, Nat.mul_right_comm] at hcovers
    rw [Pays, if_pos rfl] at h
    omega
  | false =>
    rw [Covers, if_neg Bool.false_ne_true, Nat.zero_mul] at hcovers
    rw [Pays, if_neg Bool.false_ne_true, Nat.mul_right_comm, Nat.le_zero.1 hcovers, Nat.zero_mul] at h
    exact (Nat.mul_eq_zero.1 (Nat.le_zero.1 h)).resolve_right (Nat.mul_pos hp0 hs0).ne'

/-- A step that takes nothing in gives nothing out. -/
theorem StepOk.givesNothing {zeroForOne : Bool} {price target liquidity fee : Nat} {remaining : Int} {step : SwapStep}
    (h : StepOk zeroForOne price target liquidity fee remaining step) (hp0 : 0 < price) (hn0 : 0 < step.sqrtRatioNextX96)
    (hin : step.amountIn = 0) : step.amountOut = 0 :=
  h.pays.nothing hp0 hn0 (hin ▸ h.covers)

/-- The least word has no negative. -/
theorem computeSwapStep_not_min {price target liquidity fee : Nat} {remaining : Int} {st : SwapStep} (h : remaining < 0)
    (hstep : computeSwapStep price target liquidity remaining fee = .ok st) : remaining ≠ -2 ^ 255 := by
  rintro rfl
  unfold computeSwapStep at hstep
  dsimp only at hstep
  rw [if_neg (by omega), if_pos rfl] at hstep
  cases hstep

namespace SwapCall

variable {c : SwapCall} {s s' s₀ : SwapState} {stop : Bool} {found : Int} {initialized : Bool} {step : SwapStep}

/-- The prices of a round's step are in bounds. -/
theorem Onward.bounds (hg : Grounded c) (hc : Consistent c s) (h : Onward c s s' stop found initialized step) :
    2 ^ 32 ≤ s.sqrtPriceX96 ∧ 2 ^ 32 ≤ c.target (sqrtRatio (clampTick found)) := by
  have hmin : MIN_SQRT_RATIO ≤ s.sqrtPriceX96 := (sqrtRatio_mem hc.mem).1.trans hc.low
  have hside := h.side
  have hlimit := hg.limit
  have hratio : 2 ^ 32 ≤ MIN_SQRT_RATIO := by decide
  refine ⟨hratio.trans hmin, ?_⟩
  cases hz : c.zeroForOne with
  | true =>
    rw [hz, if_pos rfl] at hlimit
    unfold target
    rw [if_pos hz]
    omega
  | false =>
    rw [hz] at hside
    have hside : s.sqrtPriceX96 ≤ c.target (sqrtRatio (clampTick found)) := hside
    omega

/-- The price that a round's step leaves is there. -/
theorem Onward.next_pos (hg : Grounded c) (h : Onward c s s' stop found initialized step) : 0 < step.sqrtRatioNextX96 := by
  have hmem := onSide_mem h.ok.onSide h.ok.notPast
  have htarget := (hg.target_mem found).1
  have hpos := h.pos
  omega

/-- What a run has been charged, within a bound that leaves room for the rounds to come. -/
structure Charged (c : SwapCall) (bound : Nat) (s : SwapState) (n : Nat) : Prop where
  calculated : s.amountCalculated = n
  within : n ≤ bound
  left : c.goesOn s → n + (c.rank s + 1) * 2 ^ 213 ≤ bound

theorem charged_start {price liquidity : Nat} {tick amount : Int} (hmem : MIN_TICK ≤ tick ∧ tick ≤ MAX_TICK) :
    Charged c (2 ^ 238) ⟨amount, 0, price, tick, liquidity⟩ 0 := by
  refine ⟨rfl, Nat.zero_le _, fun _ => ?_⟩
  have hrank : c.rank ⟨amount, 0, price, tick, liquidity⟩ < 2 ^ 25 - 1 :=
    rank_lt (by unfold MIN_TICK MAX_TICK at hmem; dsimp only; omega)
  generalize c.rank _ = r at *
  omega

/-- A round adds its step's input, with the fee, to what is charged. -/
theorem Onward.charged (hg : Grounded c) (hout : ¬c.exactInput) {bound n : Nat} (hb : bound < 2 ^ 255) (hs : Steady c s)
    (hc : Consistent c s) (hgo : c.goesOn s) (hround : c.round s = .ok (s', stop))
    (h : Onward c s s' stop found initialized step) (hn : Charged c bound s n) :
    Charged c bound s' (n + (step.amountIn + step.feeAmount)) := by
  obtain ⟨hp0, ht0⟩ := h.bounds hg hc
  have hfits := hs.fits
  have hneg := hfits.remaining.neg hgo.1 hout
  have hlow := hfits.remaining.mem.1
  have hexact := computeSwapStep_exactOut hneg h.swapStep
  have hlt : (-s.amountSpecifiedRemaining).toNat < 2 ^ 255 := by
    have := computeSwapStep_not_min hneg h.swapStep
    omega
  have hcharge := exactOutStep_charge hp0 hfits.price ht0 (hg.target_mem found).2 hfits.liquidity (onSide_of_ge _ _) hg.fee
    hlt hexact
  have hleft := hn.left hgo
  have hfit : n + (step.amountIn + step.feeAmount) ≤ bound := by omega
  obtain ⟨-, -, hcalc⟩ := h.ending.state
  refine ⟨?_, hfit, fun hgo' => ?_⟩
  · have hin : wadd 256 n step.amountIn = n + step.amountIn := wadd_of_lt (by omega)
    have hall : wadd 256 (n + step.amountIn) step.feeAmount = n + (step.amountIn + step.feeAmount) := by
      rw [wadd_of_lt (by omega), Nat.add_assoc]
    rw [hcalc, account, if_neg hout, hn.calculated, intoRaw_natCast (by omega), hin, hall]
    exact fromRaw_of_lt (by omega)
  · have hrank := (round_progress hg.admitted hfits hs.within hgo hround).2.2 hgo'
    have hmul : (c.rank s' + 1) * 2 ^ 213 ≤ c.rank s * 2 ^ 213 := Nat.mul_le_mul_right _ hrank
    rw [Nat.add_mul] at hleft
    omega

/-- **What an exact-output run is charged.** What it was charged before stays, and what it goes on to be given it is
charged for. -/
theorem loop_charged (hg : Grounded c) (hout : ¬c.exactInput) {fuel bound n : Nat} (hb : bound < 2 ^ 255)
    (hs : Steady c s) (hc : Consistent c s) (hn : Charged c bound s n) (h : c.loop fuel s = .ok s') :
    ∃ m, n ≤ m ∧ Charged c bound s' m ∧ (m = n → s'.amountSpecifiedRemaining = s.amountSpecifiedRemaining) := by
  obtain ⟨-, ⟨-, -, hm⟩, -⟩ := loop_ok (I := fun u _ => Steady c u ∧ Consistent c u ∧ ∃ m, n ≤ m ∧ Charged c bound u m ∧
    (m = n → u.amountSpecifiedRemaining = s.amountSpecifiedRemaining)) h ⟨hs, hc, n, le_rfl, hn, fun _ => rfl⟩
    fun u u' stop ⟨hu, hcu, m, hle, hm, hsame⟩ hgo hround => by
      obtain ⟨found, _, step, ho⟩ := hu.onward hg hgo hround
      refine ⟨ho.steady hg hu hgo, (ho.advances hg hcu).consistent, m + (step.amountIn + step.feeAmount), by omega,
        ho.charged hg hout hb hu hcu hgo hround hm, fun heq => ?_⟩
      have hgiven := ho.ok.givesNothing ho.pos (by have := ho.next_pos hg; omega) (by omega)
      have hrem := (account_remaining hu.fits.remaining hgo.1 ho.ok).1
      rw [ho.ending.state.2.1, hrem, if_neg hout, hgiven, ← hsame (by omega)]
      exact add_zero _
  exact hm

end SwapCall

end EvmDexPool.V3
