import EvmDexPool.V3.SwapMath
import Mathlib.Algebra.Order.Field.Basic
import Mathlib.Data.Rat.Cast.Order
import Mathlib.Tactic.FieldSimp
import Mathlib.Tactic.Positivity

/-!
# Steps against the exact amounts

Between two prices the curve fixes two rational amounts. A step asks for at least the one and gives
at most the other, and its fee is at least the rate's share (`computeSwapStep_bounds`).
-/

namespace EvmDexPool.V3

/-- The token 0 that `liquidity` holds between two prices. -/
def exactToken0 (liquidity low high : Nat) : ℚ := liquidity * 2 ^ 96 * (1 / low - 1 / high)

/-- The token 1 that `liquidity` holds between two prices. -/
def exactToken1 (liquidity low high : Nat) : ℚ := liquidity * (high - low) / 2 ^ 96

/-- What moving the price to `stop` takes in. -/
def exactInput (zeroForOne : Bool) (liquidity price stop : Nat) : ℚ :=
  if zeroForOne then exactToken0 liquidity stop price else exactToken1 liquidity price stop

/-- What moving the price to `stop` gives out. -/
def exactOutput (zeroForOne : Bool) (liquidity price stop : Nat) : ℚ :=
  if zeroForOne then exactToken1 liquidity stop price else exactToken0 liquidity price stop

theorem exactToken0_eq {liquidity low high : Nat} (hl : 0 < low) (hh : 0 < high) (hle : low ≤ high) :
    exactToken0 liquidity low high = ((liquidity * 2 ^ 96 * (high - low) : Nat) : ℚ) / ((high * low : Nat) : ℚ) := by
  have hl' : (low : ℚ) ≠ 0 := by exact_mod_cast hl.ne'
  have hh' : (high : ℚ) ≠ 0 := by exact_mod_cast hh.ne'
  unfold exactToken0
  push_cast [hle]
  field_simp
  ring

theorem exactToken1_eq {liquidity low high : Nat} (hle : low ≤ high) :
    exactToken1 liquidity low high = ((liquidity * (high - low) : Nat) : ℚ) / ((2 ^ 96 : Nat) : ℚ) := by
  unfold exactToken1
  push_cast [hle]
  rfl

section Spans
variable {zeroForOne : Bool} {price stop liquidity amount : Nat} (hp0 : 0 < price) (hs0 : 0 < stop)
  (hside : OnSide zeroForOne price stop)
include hp0 hs0 hside

theorem covers_iff : Covers zeroForOne price stop liquidity amount ↔ exactInput zeroForOne liquidity price stop ≤ amount := by
  cases zeroForOne with
  | true =>
    have hpos : (0 : ℚ) < ((price * stop : Nat) : ℚ) := by exact_mod_cast Nat.mul_pos hp0 hs0
    rw [Covers, if_pos rfl, exactInput, if_pos rfl, exactToken0_eq hs0 hp0 hside, div_le_iff₀ hpos]
    exact_mod_cast Iff.rfl
  | false =>
    rw [Covers, if_neg (by decide), exactInput, if_neg (by decide), exactToken1_eq hside,
      div_le_iff₀ (by positivity)]
    exact_mod_cast Iff.rfl

theorem pays_iff : Pays zeroForOne price stop liquidity amount ↔ (amount : ℚ) ≤ exactOutput zeroForOne liquidity price stop := by
  cases zeroForOne with
  | true =>
    rw [Pays, if_pos rfl, exactOutput, if_pos rfl, exactToken1_eq hside, le_div_iff₀ (by positivity)]
    exact_mod_cast Iff.rfl
  | false =>
    have hpos : (0 : ℚ) < ((stop * price : Nat) : ℚ) := by exact_mod_cast Nat.mul_pos hs0 hp0
    rw [Pays, if_neg (by decide), exactOutput, if_neg (by decide), exactToken0_eq hp0 hs0 hside, le_div_iff₀ hpos,
      Nat.mul_comm stop price]
    exact_mod_cast Iff.rfl

end Spans

/-- **The postconditions of `compute_swap_step`.** The next price lies between the two given ones; the
amounts stay within what remains and use it up short of the target; each rounding is the pool's. -/
theorem computeSwapStep_bounds {price target liquidity fee : Nat} {remaining : Int} {st : SwapStep}
    (hp : MIN_SQRT_RATIO ≤ price ∧ price ≤ MAX_SQRT_RATIO) (ht : MIN_SQRT_RATIO ≤ target ∧ target ≤ MAX_SQRT_RATIO)
    (hl : liquidity < 2 ^ 128) (hr : -2 ^ 255 < remaining ∧ remaining < 2 ^ 255) (hfee : fee < MAX_FEE)
    (h : computeSwapStep price target liquidity remaining fee = .ok st) :
    (min price target ≤ st.sqrtRatioNextX96 ∧ st.sqrtRatioNextX96 ≤ max price target) ∧
      (0 ≤ remaining → (st.amountIn + st.feeAmount : Int) ≤ remaining ∧
        (st.sqrtRatioNextX96 ≠ target → (st.amountIn + st.feeAmount : Int) = remaining)) ∧
      (remaining < 0 → (st.amountOut : Int) ≤ |remaining| ∧
        (st.sqrtRatioNextX96 ≠ target → (st.amountOut : Int) = |remaining|)) ∧
      exactInput (price ≥ target) liquidity price st.sqrtRatioNextX96 ≤ st.amountIn ∧
      st.amountOut ≤ exactOutput (price ≥ target) liquidity price st.sqrtRatioNextX96 ∧
      (st.amountIn * fee / (MAX_FEE - fee) : ℚ) ≤ st.feeAmount := by
  unfold MIN_SQRT_RATIO MAX_SQRT_RATIO at hp ht
  have hok := computeSwapStep_ok (by omega) (by omega) (by omega) (by omega) hl hfee ⟨hr.1.le, hr.2⟩ h
  have hmem := onSide_mem hok.onSide hok.notPast
  have hnext : 0 < st.sqrtRatioNextX96 := by omega
  refine ⟨hmem, hok.exactIn, fun hneg => ?_, (covers_iff (by omega) hnext hok.onSide).1 hok.covers,
    (pays_iff (by omega) hnext hok.onSide).1 hok.pays, ?_⟩
  · rw [abs_of_neg hneg]
    exact hok.exactOut hneg
  · have hpos : (0 : ℚ) < (MAX_FEE - fee : ℚ) := by
      have : (fee : ℚ) < MAX_FEE := by exact_mod_cast hfee
      linarith
    rw [div_le_iff₀ hpos]
    have := hok.feeCovers
    have hcast : ((MAX_FEE - fee : Nat) : ℚ) = MAX_FEE - fee := Nat.cast_sub hfee.le
    rw [← hcast]
    exact_mod_cast this

/-- Liquidity 10^18 at price 1, a thousand in at 500 millionths: a step short of its target. -/
theorem computeSwapStep_bounds_short :
    ∃ st, computeSwapStep (2 ^ 96) (2 ^ 95) (10 ^ 18) 1000 500 = .ok st ∧ 2 ^ 95 ≤ st.sqrtRatioNextX96 ∧
      (st.amountIn + st.feeAmount : Int) = 1000 := by
  have hstep : computeSwapStep (2 ^ 96) (2 ^ 95) (10 ^ 18) 1000 500 =
      .ok ⟨79228162514264258444609598587, 999, 998, 1⟩ := by decide +kernel
  obtain ⟨⟨hlow, -⟩, hin, -⟩ :=
    computeSwapStep_bounds (by decide) (by decide) (by decide) (by decide) (by decide) hstep
  exact ⟨_, hstep, hlow, (hin (by decide)).2 (by decide)⟩

end EvmDexPool.V3
