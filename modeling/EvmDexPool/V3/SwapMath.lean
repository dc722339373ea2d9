import EvmDexPool.V3.SqrtPriceMath
import EvmDexPool.V3.Tick
import EvmDexPool.V3.TickMath

/-!
# The V3 swap (`v3/swap_math.rs`)

Amounts that the source keeps in an `I256` are integers here, and `I256::from_raw` reads the wrapped
word back. `compute_swap_step` takes its direction from the two prices (`computeSwapStep_ok`), not
from the caller's flag.
-/

namespace EvmDexPool.V3

open Fixed

/-- `MAX_FEE` (swap_math.rs:43). -/
def MAX_FEE : Nat := 1000000

/-- The tuple `compute_swap_step` returns. -/
structure SwapStep where
  sqrtRatioNextX96 : Nat
  amountIn : Nat
  amountOut : Nat
  feeAmount : Nat
deriving DecidableEq, Repr

/-- The input between the current price and where a step ends, rounded up. -/
def inputDelta (zeroForOne : Bool) (sqrtRatioCurrentX96 stop liquidity : Nat) : Except Fault Nat :=
  if zeroForOne then getAmount0Delta stop sqrtRatioCurrentX96 liquidity true
  else getAmount1Delta sqrtRatioCurrentX96 stop liquidity true

/-- The output between the current price and where a step ends, rounded down. -/
def outputDelta (zeroForOne : Bool) (sqrtRatioCurrentX96 stop liquidity : Nat) : Except Fault Nat :=
  if zeroForOne then getAmount1Delta stop sqrtRatioCurrentX96 liquidity false
  else getAmount0Delta sqrtRatioCurrentX96 stop liquidity false

/-- The exact-input arm (swap_math.rs:53-103). -/
def exactInStep (zeroForOne : Bool) (sqrtRatioCurrentX96 sqrtRatioTargetX96 liquidity amountRemainingAbs feePips : Nat) :
    Except Fault SwapStep := do
  let feeComplement := wsub 256 MAX_FEE feePips
  let amountRemainingLessFee ← mulDiv amountRemainingAbs feeComplement MAX_FEE
  let amountIn ← inputDelta zeroForOne sqrtRatioCurrentX96 sqrtRatioTargetX96 liquidity
  if amountRemainingLessFee ≥ amountIn then do
    let feeAmount ← mulDivRoundingUp amountIn feePips feeComplement
    let amountOut ← outputDelta zeroForOne sqrtRatioCurrentX96 sqrtRatioTargetX96 liquidity
    .ok ⟨sqrtRatioTargetX96, amountIn, amountOut, feeAmount⟩
  else do
    let amountIn := amountRemainingLessFee
    let next ← getNextSqrtPriceFromInput sqrtRatioCurrentX96 liquidity amountIn zeroForOne
    let feeAmount := wsub 256 amountRemainingAbs amountIn
    let amountOut ← outputDelta zeroForOne sqrtRatioCurrentX96 next liquidity
    .ok ⟨next, amountIn, amountOut, feeAmount⟩

/-- The exact-output arm (swap_math.rs:104-139). -/
def exactOutStep (zeroForOne : Bool) (sqrtRatioCurrentX96 sqrtRatioTargetX96 liquidity amountRemainingAbs feePips : Nat) :
    Except Fault SwapStep := do
  let feeComplement := wsub 256 MAX_FEE feePips
  let amountOut ← outputDelta zeroForOne sqrtRatioCurrentX96 sqrtRatioTargetX96 liquidity
  if amountRemainingAbs ≥ amountOut then do
    let amountIn ← inputDelta zeroForOne sqrtRatioCurrentX96 sqrtRatioTargetX96 liquidity
    let feeAmount ← mulDivRoundingUp amountIn feePips feeComplement
    .ok ⟨sqrtRatioTargetX96, amountIn, amountOut, feeAmount⟩
  else do
    let amountOut := amountRemainingAbs
    let next ← getNextSqrtPriceFromOutput sqrtRatioCurrentX96 liquidity amountOut zeroForOne
    let amountIn ← inputDelta zeroForOne sqrtRatioCurrentX96 next liquidity
    let feeAmount ← mulDivRoundingUp amountIn feePips feeComplement
    .ok ⟨next, amountIn, amountOut, feeAmount⟩

/-- `compute_swap_step` (swap_math.rs:36). Negating `I256::MIN` overflows. -/
def computeSwapStep (sqrtRatioCurrentX96 sqrtRatioTargetX96 liquidity : Nat) (amountRemaining : Int) (feePips : Nat) :
    Except Fault SwapStep :=
  let zeroForOne : Bool := sqrtRatioCurrentX96 ≥ sqrtRatioTargetX96
  if amountRemaining ≥ 0 then
    exactInStep zeroForOne sqrtRatioCurrentX96 sqrtRatioTargetX96 liquidity amountRemaining.toNat feePips
  else if amountRemaining = -2 ^ 255 then .error .overflow
  else exactOutStep zeroForOne sqrtRatioCurrentX96 sqrtRatioTargetX96 liquidity (-amountRemaining).toNat feePips

/-! ## The loop -/

structure SwapState where
  amountSpecifiedRemaining : Int
  amountCalculated : Int
  sqrtPriceX96 : Nat
  tickCurrent : Int
  liquidity : Nat
deriving DecidableEq, Repr

/-- What the loop of `v3_swap` only reads. -/
structure SwapCall where
  fee : Nat
  ticks : TickMap
  tickSearch : TickSearch
  zeroForOne : Bool
  sqrtPriceLimitX96 : Nat
  exactInput : Bool

/-- `add_delta` (liquidity_math.rs:16). -/
def addDelta (x : Nat) (y : Int) : Except Fault Nat :=
  if 0 ≤ x + y ∧ x + y < 2 ^ 128 then .ok (x + y).toNat else .error (.error "Liquidity delta overflow")

/-- `I256::from_raw`, of a word. -/
def fromRaw (x : Nat) : Int := toSigned 256 x

/-- `into_raw`. -/
def intoRaw (x : Int) : Nat := ofSigned 256 x

namespace SwapCall
variable (c : SwapCall)

/-- The price a step aims at: the next tick's, or the limit where that comes first. -/
def target (sqrtPriceNextX96 : Nat) : Nat :=
  if c.zeroForOne then max sqrtPriceNextX96 c.sqrtPriceLimitX96 else min sqrtPriceNextX96 c.sqrtPriceLimitX96

/-- The books after a step (swap_math.rs:224-235), the price included. -/
def account (s : SwapState) (step : SwapStep) : SwapState :=
  if c.exactInput then
    { s with
      sqrtPriceX96 := step.sqrtRatioNextX96
      amountSpecifiedRemaining :=
        fromRaw (wsub 256 (wsub 256 (intoRaw s.amountSpecifiedRemaining) step.amountIn) step.feeAmount)
      amountCalculated := fromRaw (wsub 256 (intoRaw s.amountCalculated) step.amountOut) }
  else
    { s with
      sqrtPriceX96 := step.sqrtRatioNextX96
      amountSpecifiedRemaining := fromRaw (wadd 256 (intoRaw s.amountSpecifiedRemaining) step.amountOut)
      amountCalculated :=
        fromRaw (wadd 256 (wadd 256 (intoRaw s.amountCalculated) step.amountIn) step.feeAmount) }

/-- A step that moved nothing, and did not get the swap past a tick either (swap_math.rs:247-251). -/
def noProgress (s : SwapState) (tickNext : Int) (sqrtPriceNextX96 : Nat) (step : SwapStep) : Prop :=
  step.amountIn = 0 ∧ step.amountOut = 0 ∧ step.feeAmount = 0 ∧
    (step.sqrtRatioNextX96 ≠ sqrtPriceNextX96 ∨ (¬c.zeroForOne ∧ tickNext ≤ s.tickCurrent))

instance (s : SwapState) (tickNext : Int) (sqrtPriceNextX96 : Nat) (step : SwapStep) :
    Decidable (c.noProgress s tickNext sqrtPriceNextX96 step) :=
  inferInstanceAs (Decidable (_ ∧ _ ∧ _ ∧ (_ ∨ (_ ∧ _))))

/-- The liquidity past a tick (swap_math.rs:260-266). -/
def crossTick (liquidity : Nat) (tickNext : Int) : Except Fault Nat := do
  let tick ← getTick c.ticks tickNext
  if c.zeroForOne then
    if tick.liquidityNet = -2 ^ 127 then .error .overflow else addDelta liquidity (-tick.liquidityNet)
  else addDelta liquidity tick.liquidityNet

/-- A round of the loop after its step; the flag says whether it breaks out (swap_math.rs:224-279). -/
def settle (s : SwapState) (tickNext : Int) (initialized : Bool) (sqrtPriceNextX96 : Nat) (step : SwapStep) :
    Except Fault (SwapState × Bool) :=
  let s' := c.account s step
  if c.noProgress s tickNext sqrtPriceNextX96 step then
    .error (.error s!"v3_swap: no progress (zero amounts, liquidity={s.liquidity}, tick={s.tickCurrent})")
  else if step.sqrtRatioNextX96 = sqrtPriceNextX96 then do
    let liquidity ← if initialized then c.crossTick s.liquidity tickNext else .ok s.liquidity
    .ok ({ s' with liquidity := liquidity, tickCurrent := if c.zeroForOne then tickNext - 1 else tickNext },
      decide (liquidity = 0))
  else if step.sqrtRatioNextX96 ≠ s.sqrtPriceX96 then do
    let tick ← getTickAtSqrtRatio step.sqrtRatioNextX96
    .ok ({ s' with tickCurrent := tick }, false)
  else .ok (s', false)

/-- A round of the loop (swap_math.rs:192-279). -/
def round (s : SwapState) : Except Fault (SwapState × Bool) := do
  let (tickNext, initialized) ← nextInitializedTick c.ticks s.tickCurrent c.zeroForOne c.tickSearch
  let tickNext := max MIN_TICK (min tickNext MAX_TICK)
  let sqrtPriceNextX96 ← getSqrtRatioAtTick tickNext
  let step ← computeSwapStep s.sqrtPriceX96 (c.target sqrtPriceNextX96) s.liquidity s.amountSpecifiedRemaining c.fee
  c.settle s tickNext initialized sqrtPriceNextX96 step

/-- The condition of the loop. -/
def goesOn (s : SwapState) : Prop := s.amountSpecifiedRemaining ≠ 0 ∧ s.sqrtPriceX96 ≠ c.sqrtPriceLimitX96

instance (s : SwapState) : Decidable (c.goesOn s) := inferInstanceAs (Decidable (_ ∧ _))

/-- The loop (swap_math.rs:189), over at most `fuel` rounds. -/
def loop : (fuel : Nat) → SwapState → Except Fault SwapState
  | 0, _ => .error .diverges
  | fuel + 1, s =>
    if c.goesOn s then
      match c.round s with
      | .ok (s', stop) => if stop then .ok s' else loop fuel s'
      | .error e => .error e
    else .ok s

/-- The checks of the price limit (swap_math.rs:163-177). -/
def checkLimit (sqrtPriceX96 : Nat) : Except Fault Unit :=
  if c.zeroForOne then
    if ¬c.sqrtPriceLimitX96 > MIN_SQRT_RATIO then .error (.error "RATIO_MIN")
    else if ¬c.sqrtPriceLimitX96 < sqrtPriceX96 then .error (.error "RATIO_CURRENT")
    else .ok ()
  else
    if ¬c.sqrtPriceLimitX96 < MAX_SQRT_RATIO then .error (.error "RATIO_MAX")
    else if ¬c.sqrtPriceLimitX96 > sqrtPriceX96 then .error (.error "RATIO_CURRENT")
    else .ok ()

end SwapCall

/-- `v3_swap` (swap_math.rs:146), over at most `fuel` rounds. -/
def v3Swap (fuel fee sqrtPriceX96 : Nat) (tickCurrent : Int) (liquidity : Nat) (ticks : TickMap)
    (tickSearch : TickSearch) (zeroForOne : Bool) (amountSpecified : Int) (sqrtPriceLimitX96 : Option Nat) :
    Except Fault SwapState :=
  let limit := sqrtPriceLimitX96.getD (if zeroForOne then MIN_SQRT_RATIO + 1 else MAX_SQRT_RATIO - 1)
  let c : SwapCall := ⟨fee, ticks, tickSearch, zeroForOne, limit, amountSpecified ≥ 0⟩
  c.checkLimit sqrtPriceX96 >>= fun _ =>
    c.loop fuel ⟨amountSpecified, 0, sqrtPriceX96, tickCurrent, liquidity⟩

/-! ## What a step takes and gives

The exact amounts between two prices are fractions; a whole amount is compared to them by cross
multiplication. -/

/-- `amount` is at least the exact input that moves the price to `stop`. -/
def Covers (zeroForOne : Bool) (price stop liquidity amount : Nat) : Prop :=
  if zeroForOne then liquidity * 2 ^ 96 * (price - stop) ≤ amount * (price * stop)
  else liquidity * (stop - price) ≤ amount * 2 ^ 96

/-- `amount` is at most the exact output of a move to `stop`. -/
def Pays (zeroForOne : Bool) (price stop liquidity amount : Nat) : Prop :=
  if zeroForOne then amount * 2 ^ 96 ≤ liquidity * (price - stop)
  else amount * (price * stop) ≤ liquidity * 2 ^ 96 * (stop - price)

/-- `stop` is on the side of the price that a swap moves to. -/
def OnSide (zeroForOne : Bool) (price stop : Nat) : Prop := if zeroForOne then stop ≤ price else price ≤ stop

section Deltas
variable {zeroForOne : Bool} {price stop liquidity : Nat} (hp0 : 0 < price) (hp : price < 2 ^ 160) (hs0 : 0 < stop)
  (hs : stop < 2 ^ 160) (hl : liquidity < 2 ^ 128) (hside : OnSide zeroForOne price stop)
include hp0 hp hs0 hs hl hside

/-- The input of a step is the least amount that covers it. -/
theorem inputDelta_eq : ∃ x, inputDelta zeroForOne price stop liquidity = .ok x ∧
    ∀ k, x ≤ k ↔ Covers zeroForOne price stop liquidity k := by
  cases zeroForOne with
  | true =>
    have hsp : stop ≤ price := hside
    refine ⟨_, getAmount0Delta_up hsp hp hl hs0, fun k => ?_⟩
    rw [ceilDiv_le_iff hs0, ceilDiv_le_iff hp0, Covers, if_pos rfl, Nat.mul_comm stop k, ← Nat.mul_assoc,
      Nat.mul_comm price k, Nat.mul_assoc k]
  | false =>
    have hps : price ≤ stop := hside
    refine ⟨_, getAmount1Delta_eq hps hs hl true, fun k => ?_⟩
    rw [if_pos rfl, ceilDiv_le_iff (by decide), Covers, if_neg (by decide), Nat.mul_comm k]

theorem inputDelta_lt {x : Nat} (h : inputDelta zeroForOne price stop liquidity = .ok x) : x < 2 ^ 225 := by
  obtain ⟨y, hy, hcovers⟩ := inputDelta_eq hp0 hp hs0 hs hl hside
  rw [hy] at h
  cases h
  cases zeroForOne with
  | true =>
    have hle := (hcovers (liquidity * 2 ^ 96)).2 (by
      rw [Covers, if_pos rfl]
      exact Nat.mul_le_mul_left _ ((Nat.sub_le _ _).trans (Nat.le_mul_of_pos_right _ hs0)))
    omega
  | false =>
    have hle := (hcovers (2 ^ 192)).2 (by
      rw [Covers, if_neg (by decide)]
      exact (Nat.mul_le_mul hl.le (show stop - price ≤ 2 ^ 160 by omega)).trans (by norm_num))
    omega

/-- The input between two prices in bounds. -/
theorem inputDelta_le (hlow : zeroForOne = true → 2 ^ 32 ≤ stop) {x : Nat}
    (h : inputDelta zeroForOne price stop liquidity = .ok x) : x ≤ 2 ^ 192 := by
  obtain ⟨y, hy, hcovers⟩ := inputDelta_eq hp0 hp hs0 hs hl hside
  cases hy.symm.trans h
  rw [hcovers, Covers]
  cases zeroForOne with
  | true =>
    have hstop := hlow rfl
    rw [if_pos rfl]
    calc liquidity * 2 ^ 96 * (price - stop) ≤ 2 ^ 224 * price := Nat.mul_le_mul (by omega) (Nat.sub_le _ _)
      _ ≤ 2 ^ 192 * stop * price := Nat.mul_le_mul_right _ (by omega)
      _ = 2 ^ 192 * (price * stop) := by ring
  | false =>
    rw [if_neg Bool.false_ne_true]
    exact (Nat.mul_le_mul hl.le (show stop - price ≤ 2 ^ 160 by omega)).trans (by norm_num)

/-- The output of a step is the most that it pays. -/
theorem outputDelta_eq : ∃ x, outputDelta zeroForOne price stop liquidity = .ok x ∧
    ∀ k, k ≤ x ↔ Pays zeroForOne price stop liquidity k := by
  cases zeroForOne with
  | true =>
    have hsp : stop ≤ price := hside
    refine ⟨_, getAmount1Delta_eq hsp hp hl false, fun k => ?_⟩
    rw [if_neg (by decide), Nat.le_div_iff_mul_le (by decide), Pays, if_pos rfl]
  | false =>
    have hps : price ≤ stop := hside
    refine ⟨_, getAmount0Delta_down hps hs hl hp0, fun k => ?_⟩
    rw [Nat.le_div_iff_mul_le hp0, Nat.le_div_iff_mul_le hs0, Pays, if_neg (by decide), Nat.mul_assoc]

end Deltas

/-- The output alone needs both prices to be there. -/
theorem outputDelta_pos {price stop liquidity x : Nat} (hps : price ≤ stop)
    (h : outputDelta false price stop liquidity = .ok x) : 0 < price := by
  refine Nat.pos_of_ne_zero fun h0 => ?_
  rw [outputDelta, if_neg (by decide), getAmount0Delta, sort2_of_le hps] at h
  dsimp only at h
  rw [if_pos h0] at h
  cases h

/-! ## One step -/

/-- `amount_remaining_less_fee`. -/
def lessFee (amount fee : Nat) : Nat := amount * (MAX_FEE - fee) / MAX_FEE

/-- What a step does, whichever way its prices lie. -/
structure StepOk (zeroForOne : Bool) (price target liquidity fee : Nat) (remaining : Int) (st : SwapStep) : Prop where
  onSide : OnSide zeroForOne price st.sqrtRatioNextX96
  notPast : OnSide zeroForOne st.sqrtRatioNextX96 target
  covers : Covers zeroForOne price st.sqrtRatioNextX96 liquidity st.amountIn
  pays : Pays zeroForOne price st.sqrtRatioNextX96 liquidity st.amountOut
  feeCovers : st.amountIn * fee ≤ st.feeAmount * (MAX_FEE - fee)
  exactIn : 0 ≤ remaining → (st.amountIn + st.feeAmount : Int) ≤ remaining ∧
    (st.sqrtRatioNextX96 ≠ target → (st.amountIn + st.feeAmount : Int) = remaining)
  exactOut : remaining < 0 → (st.amountOut : Int) ≤ -remaining ∧
    (st.sqrtRatioNextX96 ≠ target → (st.amountOut : Int) = -remaining)

/-- The part of it that a rate of one and more leaves. -/
structure StepMoves (zeroForOne : Bool) (price target : Nat) (remaining : Int) (st : SwapStep) : Prop where
  onSide : OnSide zeroForOne price st.sqrtRatioNextX96
  notPast : OnSide zeroForOne st.sqrtRatioNextX96 target
  exactIn : 0 ≤ remaining → (st.amountIn + st.feeAmount : Int) ≤ remaining ∧
    (st.sqrtRatioNextX96 ≠ target → (st.amountIn + st.feeAmount : Int) = remaining)
  exactOut : remaining < 0 → (st.amountOut : Int) ≤ -remaining ∧
    (st.sqrtRatioNextX96 ≠ target → (st.amountOut : Int) = -remaining)

theorem StepOk.moves {zeroForOne : Bool} {price target liquidity fee : Nat} {remaining : Int} {st : SwapStep}
    (h : StepOk zeroForOne price target liquidity fee remaining st) : StepMoves zeroForOne price target remaining st :=
  ⟨h.onSide, h.notPast, h.exactIn, h.exactOut⟩

theorem onSide_of_ge (price target : Nat) : OnSide (price ≥ target) price target := by
  by_cases h : price ≥ target
  · rw [decide_eq_true h]; exact h
  · rw [decide_eq_false h]; exact (Nat.lt_of_not_le h).le

theorem onSide_refl (zeroForOne : Bool) (price : Nat) : OnSide zeroForOne price price := by
  cases zeroForOne <;> exact Nat.le_refl _

/-- A price between two others. -/
theorem onSide_mem {zeroForOne : Bool} {price next target : Nat} (h : OnSide zeroForOne price next)
    (h' : OnSide zeroForOne next target) :
    min price target ≤ next ∧ next ≤ max price target := by
  cases zeroForOne <;> simp only [OnSide, if_true, Bool.false_eq_true, if_false] at h h' <;> omega

/-- What is left of the amount after a share of it went, with the fee on it. -/
theorem fee_short (amount fee : Nat) (hfee : fee < MAX_FEE) :
    lessFee amount fee * fee ≤ (amount - lessFee amount fee) * (MAX_FEE - fee) := by
  have hmul : lessFee amount fee * MAX_FEE ≤ amount * (MAX_FEE - fee) := Nat.div_mul_le_self _ _
  have hsplit : lessFee amount fee * MAX_FEE = lessFee amount fee * fee + lessFee amount fee * (MAX_FEE - fee) := by
    rw [← Nat.mul_add, Nat.add_sub_cancel' hfee.le]
  rw [Nat.sub_mul]
  omega

theorem lessFee_le (amount fee : Nat) : lessFee amount fee ≤ amount :=
  Nat.div_le_of_le_mul (by rw [Nat.mul_comm MAX_FEE]; exact Nat.mul_le_mul_left _ (Nat.sub_le _ _))

/-- The fee on top of a reached target leaves the amount at least whole. -/
theorem fee_fits {amount fee x : Nat} (hfee : fee < MAX_FEE) (hx : x ≤ lessFee amount fee) :
    x + (x * fee ⌈/⌉ (MAX_FEE - fee)) ≤ amount := by
  have hmul : x * MAX_FEE ≤ amount * (MAX_FEE - fee) := (Nat.le_div_iff_mul_le (by decide)).1 hx
  have hxa : x ≤ amount := hx.trans (lessFee_le _ _)
  have hceil : x * fee ⌈/⌉ (MAX_FEE - fee) ≤ amount - x := by
    rw [ceilDiv_le_iff (by omega), Nat.mul_sub, Nat.mul_comm _ amount]
    have hsplit : x * MAX_FEE = x * fee + (MAX_FEE - fee) * x := by
      rw [Nat.mul_comm (MAX_FEE - fee), ← Nat.mul_add, Nat.add_sub_cancel' hfee.le]
    omega
  omega

/-- An input with a fee on it, taken as an amount, leaves the input. -/
theorem le_lessFee {amount fee x f : Nat} (hfee : fee < MAX_FEE) (hf : x * fee ≤ f * (MAX_FEE - fee)) (h : x + f ≤ amount) :
    x ≤ lessFee amount fee := by
  refine (Nat.le_div_iff_mul_le (by decide)).2 ?_
  have hsplit : x * MAX_FEE = x * fee + x * (MAX_FEE - fee) := by rw [← Nat.mul_add, Nat.add_sub_cancel' hfee.le]
  calc x * MAX_FEE ≤ f * (MAX_FEE - fee) + x * (MAX_FEE - fee) := by omega
    _ = (x + f) * (MAX_FEE - fee) := by ring
    _ ≤ amount * (MAX_FEE - fee) := Nat.mul_le_mul_right _ h

section Arms
variable {zeroForOne : Bool} {price target liquidity amount fee : Nat} {st : SwapStep}
  (hp0 : 0 < price) (hp : price < 2 ^ 160) (ht0 : 0 < target) (ht : target < 2 ^ 160) (hl : liquidity < 2 ^ 128)
  (hside : OnSide zeroForOne price target) (hfee : fee < MAX_FEE)

include hfee in
theorem feeComplement_eq : wsub 256 MAX_FEE fee = MAX_FEE - fee := wsub_of_le hfee.le (by decide)

section Stops
include hp hl hside

/-- A price that an exact-input step stops at short of its target. -/
theorem nextFromInput_mem {next : Nat} (ht : target < 2 ^ 160) (ha : amount < 2 ^ 255)
    (hshort : ¬Covers zeroForOne price target liquidity amount)
    (h : getNextSqrtPriceFromInput price liquidity amount zeroForOne = .ok next) :
    OnSide zeroForOne price next ∧ OnSide zeroForOne next target ∧ Covers zeroForOne price next liquidity amount := by
  cases zeroForOne with
  | true =>
    have htp : target ≤ price := hside
    rw [Covers, if_pos rfl] at hshort ⊢
    obtain ⟨hle, hspent, hreach⟩ := getNextSqrtPriceFromInput_down hl hp ha h
    generalize liquidity * 2 ^ 96 = N at *
    refine ⟨hle, hreach target ?_, ?_⟩
    · have h1 : N * (price - target) + N * target = N * price := by rw [← Nat.mul_add]; congr 1; omega
      calc target * (N + amount * price) = N * target + amount * (price * target) := by ring
        _ ≤ N * (price - target) + N * target := by omega
        _ = N * price := h1
    · have h1 : N * (price - next) + N * next = N * price := by rw [← Nat.mul_add]; congr 1; omega
      have h2 : next * (N + amount * price) = N * next + amount * (price * next) := by ring
      omega
  | false =>
    have hpt : price ≤ target := hside
    rw [Covers, if_neg (by decide)] at hshort ⊢
    obtain ⟨hge, hle, hspent⟩ := getNextSqrtPriceFromInput_up hl (by omega) ht hpt (by omega) h
    exact ⟨hge, hle, hspent⟩

/-- A price that an exact-output step stops at short of its target. -/
theorem nextFromOutput_mem {next : Nat} (ha : amount < 2 ^ 255)
    (hshort : Pays zeroForOne price target liquidity (amount + 1))
    (h : getNextSqrtPriceFromOutput price liquidity amount zeroForOne = .ok next) :
    OnSide zeroForOne price next ∧ OnSide zeroForOne next target ∧ Pays zeroForOne price next liquidity amount := by
  cases zeroForOne with
  | true =>
    have htp : target ≤ price := hside
    rw [Pays, if_pos rfl] at hshort ⊢
    obtain ⟨hle, hpaid, hreach⟩ := getNextSqrtPriceFromOutput_down hl (ha.trans (by decide)) h
    exact ⟨hle, hreach target htp ((Nat.mul_le_mul_right _ (Nat.le_succ _)).trans hshort), hpaid⟩
  | false =>
    have hpt : price ≤ target := hside
    rw [Pays, if_neg (by decide)] at hshort ⊢
    obtain ⟨hge, hpaid, hreach⟩ := getNextSqrtPriceFromOutput_up hl hp h
    refine ⟨hge, hreach target hpt ?_, hpaid⟩
    rw [Nat.add_mul] at hshort
    omega

end Stops

include hp0 hp ht0 ht hl hside

/-- The two ways an exact-output step ends. -/
theorem exactOutStep_cases (h : exactOutStep zeroForOne price target liquidity amount fee = .ok st) :
    ∃ stop, st.sqrtRatioNextX96 = stop ∧ inputDelta zeroForOne price stop liquidity = .ok st.amountIn ∧
      mulDivRoundingUp st.amountIn fee (wsub 256 MAX_FEE fee) = .ok st.feeAmount ∧
      ((stop = target ∧ st.amountOut ≤ amount ∧ outputDelta zeroForOne price target liquidity = .ok st.amountOut) ∨
        (Pays zeroForOne price target liquidity (amount + 1) ∧ st.amountOut = amount ∧
          getNextSqrtPriceFromOutput price liquidity amount zeroForOne = .ok stop)) := by
  obtain ⟨x, hx, hpays⟩ := outputDelta_eq hp0 hp ht0 ht hl hside
  unfold exactOutStep at h
  rw [hx, ok_bind] at h
  split at h
  · rename_i hreach
    obtain ⟨inn, hin, h⟩ := bind_eq_ok.1 h
    obtain ⟨f, hf, h⟩ := bind_eq_ok.1 h
    cases h
    exact ⟨_, rfl, hin, hf, .inl ⟨rfl, hreach, hx⟩⟩
  · rename_i hshort
    obtain ⟨next, hnext, h⟩ := bind_eq_ok.1 h
    obtain ⟨inn, hin, h⟩ := bind_eq_ok.1 h
    obtain ⟨f, hf, h⟩ := bind_eq_ok.1 h
    cases h
    exact ⟨_, rfl, hin, hf, .inr ⟨(hpays _).1 (by omega), rfl, hnext⟩⟩

/-- Where an exact-output step ends, and what it pays there, whatever the fee. -/
theorem exactOutStep_moves (ha : amount < 2 ^ 255) (h : exactOutStep zeroForOne price target liquidity amount fee = .ok st) :
    OnSide zeroForOne price st.sqrtRatioNextX96 ∧ OnSide zeroForOne st.sqrtRatioNextX96 target ∧
      Pays zeroForOne price st.sqrtRatioNextX96 liquidity st.amountOut ∧
      st.amountOut ≤ amount ∧ (st.sqrtRatioNextX96 ≠ target → st.amountOut = amount) := by
  obtain ⟨stop, rfl, -, -, ⟨hnext, hle, hout⟩ | ⟨hmore, hout, hnext⟩⟩ := exactOutStep_cases hp0 hp ht0 ht hl hside h
  · obtain ⟨y, hy, hpays⟩ := outputDelta_eq hp0 hp ht0 ht hl hside
    cases hy.symm.trans hout
    rw [hnext]
    exact ⟨hside, onSide_refl _ _, (hpays _).1 le_rfl, hle, fun hne => absurd rfl hne⟩
  · obtain ⟨hon, hpast, hpay⟩ := nextFromOutput_mem hp hl hside ha hmore hnext
    exact ⟨hon, hpast, hout ▸ hpay, hout.le, fun _ => hout⟩

include hfee

/-- The two ways an exact-input step ends: at its target, or with the whole amount gone. -/
theorem exactInStep_cases (ha : amount < 2 ^ 255) (h : exactInStep zeroForOne price target liquidity amount fee = .ok st) :
    (st.sqrtRatioNextX96 = target ∧ st.amountIn ≤ lessFee amount fee ∧
      inputDelta zeroForOne price target liquidity = .ok st.amountIn ∧
      outputDelta zeroForOne price target liquidity = .ok st.amountOut ∧
      st.feeAmount = st.amountIn * fee ⌈/⌉ (MAX_FEE - fee)) ∨
    (¬Covers zeroForOne price target liquidity (lessFee amount fee) ∧
      getNextSqrtPriceFromInput price liquidity (lessFee amount fee) zeroForOne = .ok st.sqrtRatioNextX96 ∧
      outputDelta zeroForOne price st.sqrtRatioNextX96 liquidity = .ok st.amountOut ∧
      st.amountIn = lessFee amount fee ∧ st.feeAmount = amount - lessFee amount fee) := by
  have hlessle := lessFee_le amount fee
  have hfee' : fee < 1000000 := hfee
  obtain ⟨x, hx, hcovers⟩ := inputDelta_eq hp0 hp ht0 ht hl hside
  unfold exactInStep at h
  rw [feeComplement_eq hfee] at h
  obtain ⟨less, hless, h⟩ := bind_eq_ok.1 h
  obtain ⟨-, -, rfl⟩ := mulDiv_ok (by omega) (by unfold MAX_FEE; omega) (by decide) hless
  rw [hx, ok_bind] at h
  change (if lessFee amount fee ≥ x then _ else _) = _ at h
  split at h
  · rename_i hreach
    obtain ⟨f, hf, h⟩ := bind_eq_ok.1 h
    obtain ⟨out, hout, h⟩ := bind_eq_ok.1 h
    cases h
    exact .inl ⟨rfl, hreach, hx, hout, (mulDivRoundingUp_ok (by omega) (by omega) (by unfold MAX_FEE; omega) hf).2.2⟩
  · rename_i hshort
    obtain ⟨next, hnext, h⟩ := bind_eq_ok.1 h
    obtain ⟨out, hout, h⟩ := bind_eq_ok.1 h
    cases h
    exact .inr ⟨fun hc => hshort ((hcovers _).2 hc), hnext, hout, rfl, wsub_of_le hlessle (by omega)⟩

/-- The exact-input arm keeps to its amount. -/
theorem exactInStep_ok (ha : amount < 2 ^ 255) (h : exactInStep zeroForOne price target liquidity amount fee = .ok st) :
    StepOk zeroForOne price target liquidity fee amount st := by
  rcases exactInStep_cases hp0 hp ht0 ht hl hside hfee ha h with
    ⟨hnext, hless, hin, hout, hf⟩ | ⟨hshort, hnext, hout, hin, hf⟩
  · obtain ⟨x, hx, hcovers⟩ := inputDelta_eq hp0 hp ht0 ht hl hside
    obtain ⟨y, hy, hpays⟩ := outputDelta_eq hp0 hp ht0 ht hl hside
    cases hx.symm.trans hin
    cases hy.symm.trans hout
    have hfits := fee_fits hfee hless
    rw [← hf] at hfits
    refine ⟨hnext ▸ hside, hnext ▸ onSide_refl _ _, hnext ▸ (hcovers _).1 le_rfl, hnext ▸ (hpays _).1 le_rfl, ?_,
      fun _ => ⟨by exact_mod_cast hfits, fun hne => absurd hnext hne⟩, fun hneg => by omega⟩
    rw [Nat.mul_comm st.feeAmount]
    exact (ceilDiv_le_iff (by omega)).1 hf.ge
  · have hlessle := lessFee_le amount fee
    obtain ⟨hon, hpast, hcov⟩ := nextFromInput_mem hp hl hside ht (by omega) hshort hnext
    obtain ⟨hlow, hhigh⟩ := onSide_mem hon hpast
    obtain ⟨y, hy, hpays⟩ := outputDelta_eq hp0 hp (by omega) (by omega) hl hon
    cases hy.symm.trans hout
    refine ⟨hon, hpast, hin ▸ hcov, (hpays _).1 le_rfl, ?_, fun _ => ?_, fun hneg => by omega⟩
    · rw [hin, hf]
      exact fee_short amount fee hfee
    · rw [hin, hf]
      omega

/-- The exact-output arm keeps to its amount. -/
theorem exactOutStep_ok (ha : amount < 2 ^ 255) (h0 : 0 < amount)
    (h : exactOutStep zeroForOne price target liquidity amount fee = .ok st) :
    StepOk zeroForOne price target liquidity fee (-amount) st := by
  obtain ⟨hon, hpast, hpay, hle, heq⟩ := exactOutStep_moves hp0 hp ht0 ht hl hside ha h
  obtain ⟨stop, rfl, hin, hf, -⟩ := exactOutStep_cases hp0 hp ht0 ht hl hside h
  rw [feeComplement_eq hfee] at hf
  obtain ⟨hlow, hhigh⟩ := onSide_mem hon hpast
  have hstop0 : 0 < st.sqrtRatioNextX96 := by omega
  have hstop1 : st.sqrtRatioNextX96 < 2 ^ 160 := by omega
  obtain ⟨x, hx, hcovers⟩ := inputDelta_eq hp0 hp hstop0 hstop1 hl hon
  have hlt := inputDelta_lt hp0 hp hstop0 hstop1 hl hon hin
  cases hx.symm.trans hin
  refine ⟨hon, hpast, (hcovers _).1 le_rfl, hpay, ?_, fun hneg => by omega, fun _ => ⟨by omega, fun hne => ?_⟩⟩
  · obtain ⟨hc, -, hceil⟩ := mulDivRoundingUp_ok (by omega) (by unfold MAX_FEE at hfee; omega)
      (by unfold MAX_FEE; omega) hf
    rw [Nat.mul_comm st.feeAmount]
    exact (ceilDiv_le_iff hc).1 hceil.ge
  · have := heq hne
    omega

end Arms

/-- **`compute_swap_step` keeps to its amounts.** -/
theorem computeSwapStep_ok {price target liquidity fee : Nat} {remaining : Int} {st : SwapStep} (hp0 : 0 < price)
    (hp : price < 2 ^ 160) (ht0 : 0 < target) (ht : target < 2 ^ 160) (hl : liquidity < 2 ^ 128) (hfee : fee < MAX_FEE)
    (hr : -2 ^ 255 ≤ remaining ∧ remaining < 2 ^ 255)
    (h : computeSwapStep price target liquidity remaining fee = .ok st) :
    StepOk (price ≥ target) price target liquidity fee remaining st := by
  have hside := onSide_of_ge price target
  unfold computeSwapStep at h
  dsimp only at h
  by_cases hin : remaining ≥ 0
  · rw [if_pos hin] at h
    have hok := exactInStep_ok hp0 hp ht0 ht hl hside hfee (by omega) h
    rwa [Int.toNat_of_nonneg hin] at hok
  · rw [if_neg hin] at h
    split at h
    · cases h
    have hok := exactOutStep_ok hp0 hp ht0 ht hl hside hfee (by omega) (by omega) h
    rwa [Int.toNat_of_nonneg (by omega), Int.neg_neg] at hok

theorem StepOk.le {price target liquidity fee : Nat} {remaining : Int} {step : SwapStep}
    (h : StepOk (price ≥ target) price target liquidity fee remaining step) (hle : target ≤ price) :
    target ≤ step.sqrtRatioNextX96 ∧ step.sqrtRatioNextX96 ≤ price := by
  have := onSide_mem h.onSide h.notPast
  omega

theorem StepOk.ge {price target liquidity fee : Nat} {remaining : Int} {step : SwapStep}
    (h : StepOk (price ≥ target) price target liquidity fee remaining step) (hge : price ≤ target) :
    price ≤ step.sqrtRatioNextX96 ∧ step.sqrtRatioNextX96 ≤ target := by
  have := onSide_mem h.onSide h.notPast
  omega

/-- Without a price there is no step up. -/
theorem computeSwapStep_pos {price target liquidity fee : Nat} {remaining : Int} {st : SwapStep} (ht0 : 0 < target)
    (h : computeSwapStep price target liquidity remaining fee = .ok st) : 0 < price := by
  refine Nat.pos_of_ne_zero fun h0 => ?_
  subst h0
  have hdir : decide (0 ≥ target) = false := decide_eq_false (by omega)
  have hout : ∀ x, outputDelta false 0 target liquidity ≠ .ok x := fun x hx =>
    absurd (outputDelta_pos (Nat.zero_le _) hx) (by decide)
  unfold computeSwapStep at h
  dsimp only at h
  rw [hdir] at h
  split at h
  · unfold exactInStep at h
    obtain ⟨less, -, h⟩ := bind_eq_ok.1 h
    obtain ⟨x, -, h⟩ := bind_eq_ok.1 h
    split at h
    · obtain ⟨f, -, h⟩ := bind_eq_ok.1 h
      obtain ⟨out, hx, -⟩ := bind_eq_ok.1 h
      exact hout _ hx
    · obtain ⟨next, hnext, -⟩ := bind_eq_ok.1 h
      rw [getNextSqrtPriceFromInput, if_pos (.inl rfl)] at hnext
      cases hnext
  split at h
  · cases h
  · unfold exactOutStep at h
    obtain ⟨out, hx, -⟩ := bind_eq_ok.1 h
    exact hout _ hx

theorem inputDelta_word {zeroForOne : Bool} {price stop liquidity x : Nat}
    (h : inputDelta zeroForOne price stop liquidity = .ok x) : x < 2 ^ 256 := by
  unfold inputDelta at h
  split at h
  · exact getAmount0Delta_lt h
  · exact getAmount1Delta_lt h

/-- An exact-input step keeps to its amount between any two prices. -/
theorem exactInStep_within {zeroForOne : Bool} {price target liquidity amount fee : Nat} {st : SwapStep}
    (ha : amount < 2 ^ 255) (hfee : fee ≤ MAX_FEE)
    (h : exactInStep zeroForOne price target liquidity amount fee = .ok st) : st.amountIn + st.feeAmount ≤ amount := by
  have hword : MAX_FEE < 2 ^ 256 := by decide
  have hle := lessFee_le amount fee
  unfold exactInStep at h
  rw [show wsub 256 MAX_FEE fee = MAX_FEE - fee from wsub_of_le hfee hword] at h
  obtain ⟨less, hless, h⟩ := bind_eq_ok.1 h
  obtain ⟨-, -, hless⟩ := mulDiv_ok (by omega) (by omega) hword hless
  change less = lessFee amount fee at hless
  subst hless
  obtain ⟨x, hx, h⟩ := bind_eq_ok.1 h
  have hxlt := inputDelta_word hx
  split at h
  · rename_i hreach
    obtain ⟨f, hf, h⟩ := bind_eq_ok.1 h
    obtain ⟨out, -, h⟩ := bind_eq_ok.1 h
    cases h
    obtain ⟨hpos, -, rfl⟩ := mulDivRoundingUp_ok hxlt (by omega) (by omega) hf
    exact fee_fits (by omega) hreach
  · obtain ⟨next, -, h⟩ := bind_eq_ok.1 h
    obtain ⟨out, -, h⟩ := bind_eq_ok.1 h
    cases h
    dsimp only
    rw [wsub_of_le hle (by omega)]
    omega

/-- An exact-output step keeps to its amount between any two prices, whatever the fee. -/
theorem exactOutStep_within {zeroForOne : Bool} {price target liquidity amount fee : Nat} {st : SwapStep}
    (h : exactOutStep zeroForOne price target liquidity amount fee = .ok st) : st.amountOut ≤ amount := by
  unfold exactOutStep at h
  obtain ⟨out, -, h⟩ := bind_eq_ok.1 h
  split at h
  · rename_i hreach
    obtain ⟨inn, -, h⟩ := bind_eq_ok.1 h
    obtain ⟨f, -, h⟩ := bind_eq_ok.1 h
    cases h
    exact hreach
  · obtain ⟨next, -, h⟩ := bind_eq_ok.1 h
    obtain ⟨inn, -, h⟩ := bind_eq_ok.1 h
    obtain ⟨f, -, h⟩ := bind_eq_ok.1 h
    cases h
    exact le_rfl

/-- No step goes past what remains: an exact input for any rate up to one, an exact output for every rate. -/
theorem computeSwapStep_within {price target liquidity fee : Nat} {remaining : Int} {st : SwapStep}
    (hr : remaining < 2 ^ 255) (h : computeSwapStep price target liquidity remaining fee = .ok st) :
    (0 ≤ remaining → fee ≤ MAX_FEE → (st.amountIn + st.feeAmount : Int) ≤ remaining) ∧
      (remaining < 0 → (st.amountOut : Int) ≤ -remaining) := by
  unfold computeSwapStep at h
  dsimp only at h
  split at h
  · refine ⟨fun h0 hfee => ?_, fun hneg => by omega⟩
    have := exactInStep_within (by omega) hfee h
    omega
  split at h
  · cases h
  · refine ⟨fun h0 => by omega, fun hneg => ?_⟩
    have := exactOutStep_within h
    omega

theorem Covers.mono {zeroForOne : Bool} {price stop liquidity a b : Nat} (h : Covers zeroForOne price stop liquidity a)
    (hab : a ≤ b) : Covers zeroForOne price stop liquidity b := by
  unfold Covers at *
  split <;> rename_i hz <;> simp only [hz, if_true, Bool.false_eq_true, if_false] at h
  · exact h.trans (Nat.mul_le_mul_right _ hab)
  · exact h.trans (Nat.mul_le_mul_right _ hab)

/-- What a move pays, a longer one pays too. -/
theorem Pays.further {zeroForOne : Bool} {price stop stop' liquidity amount : Nat} (hs0 : 0 < stop)
    (hside : OnSide zeroForOne price stop) (hon : OnSide zeroForOne stop stop') (h : Pays zeroForOne price stop liquidity amount) :
    Pays zeroForOne price stop' liquidity amount := by
  cases zeroForOne with
  | true =>
    have hon : stop' ≤ stop := hon
    rw [Pays, if_pos rfl] at h ⊢
    exact h.trans (Nat.mul_le_mul_left _ (by omega))
  | false =>
    have hside : price ≤ stop := hside
    have hon : stop ≤ stop' := hon
    rw [Pays, if_neg (by decide), Nat.mul_sub, ← Nat.mul_assoc] at h ⊢
    generalize liquidity * 2 ^ 96 = N at *
    generalize amount * price = K at *
    have hN := Nat.mul_le_mul_left N hside
    have hKN : K ≤ N := Nat.le_of_mul_le_mul_right (c := stop) (by omega) hs0
    obtain ⟨d, rfl⟩ := Nat.exists_eq_add_of_le hon
    have hd := Nat.mul_le_mul_right d hKN
    rw [Nat.mul_add, Nat.mul_add]
    omega

section Idle
variable {price target liquidity fee : Nat} {remaining : Int} {st : SwapStep} (hp : price < 2 ^ 160) (ht0 : 0 < target)
  (ht : target < 2 ^ 160) (hl : liquidity < 2 ^ 128) (hfee : fee < 2 ^ 24)
include hp ht0 ht hl hfee

/-- A step over a distance that holds nothing moves nothing but the price. -/
theorem computeSwapStep_idle (hcovers : Covers (price ≥ target) price target liquidity 0)
    (hpays : ∀ k, Pays (price ≥ target) price target liquidity k → k = 0)
    (h : computeSwapStep price target liquidity remaining fee = .ok st) :
    st.sqrtRatioNextX96 = target ∧ st.amountIn = 0 ∧ st.amountOut = 0 ∧ st.feeAmount = 0 := by
  have hp0 := computeSwapStep_pos ht0 h
  have hside := onSide_of_ge price target
  obtain ⟨x, hx, hxcovers⟩ := inputDelta_eq hp0 hp ht0 ht hl hside
  obtain ⟨y, hy, hypays⟩ := outputDelta_eq hp0 hp ht0 ht hl hside
  obtain rfl : x = 0 := Nat.le_zero.1 ((hxcovers 0).2 hcovers)
  obtain rfl : y = 0 := hpays y ((hypays y).1 le_rfl)
  have hfree : ∀ {d f : Nat}, d < 2 ^ 256 → mulDivRoundingUp 0 fee d = .ok f → f = 0 := fun hd hf => by
    obtain ⟨-, -, hceil⟩ := mulDivRoundingUp_ok (by decide) (by omega) hd hf
    rwa [Nat.zero_mul, zero_ceilDiv] at hceil
  unfold computeSwapStep at h
  dsimp only at h
  split at h
  · unfold exactInStep at h
    obtain ⟨less, -, h⟩ := bind_eq_ok.1 h
    rw [hx, ok_bind, if_pos (Nat.zero_le _)] at h
    obtain ⟨f, hf, h⟩ := bind_eq_ok.1 h
    rw [hy, ok_bind] at h
    cases h
    exact ⟨rfl, rfl, rfl, hfree wsub_lt hf⟩
  split at h
  · cases h
  · unfold exactOutStep at h
    dsimp only at h
    rw [hy, ok_bind, if_pos (Nat.zero_le _), hx, ok_bind] at h
    obtain ⟨f, hf, h⟩ := bind_eq_ok.1 h
    cases h
    exact ⟨rfl, rfl, rfl, hfree wsub_lt hf⟩

theorem computeSwapStep_self (heq : price = target)
    (h : computeSwapStep price target liquidity remaining fee = .ok st) :
    st.sqrtRatioNextX96 = target ∧ st.amountIn = 0 ∧ st.amountOut = 0 ∧ st.feeAmount = 0 := by
  have hdir : decide (price ≥ target) = true := decide_eq_true heq.ge
  refine computeSwapStep_idle hp ht0 ht hl hfee ?_ (fun k hk => ?_) h
  · rw [hdir, heq, Covers, if_pos rfl, Nat.sub_self, Nat.mul_zero]
    exact Nat.zero_le _
  · rw [hdir, heq, Pays, if_pos rfl, Nat.sub_self, Nat.mul_zero] at hk
    omega

theorem computeSwapStep_noLiquidity (hl0 : liquidity = 0)
    (h : computeSwapStep price target liquidity remaining fee = .ok st) :
    st.sqrtRatioNextX96 = target ∧ st.amountIn = 0 ∧ st.amountOut = 0 ∧ st.feeAmount = 0 := by
  have hp0 := computeSwapStep_pos ht0 h
  have hpt : 0 < price * target := Nat.mul_pos hp0 ht0
  refine computeSwapStep_idle hp ht0 ht hl hfee ?_ (fun k hk => ?_) h
  · rw [hl0, Covers]
    split <;> simp
  · rw [hl0, Pays] at hk
    split at hk
    · omega
    · rw [Nat.zero_mul, Nat.zero_mul] at hk
      exact (Nat.mul_eq_zero.1 (Nat.le_zero.1 hk)).resolve_right hpt.ne'

end Idle

end EvmDexPool.V3
