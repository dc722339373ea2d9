import EvmDexPool.V3.ExactAmounts
import EvmDexPool.V3.Nets
import EvmDexPool.V3.Quote
import EvmDexPool.V3.StepReturns
import EvmDexPool.V3.WordSearch
import Mathlib.Algebra.Order.Floor.Semifield
import Mathlib.Data.Rat.Floor

/-!
# The swap loop of the pool contract

What the contract of a word-bounded pool does with a swap, as a relation between its states. A step goes for
the nearer of the next initialized tick and the edge of the bitmap's word; its amounts are the exact ones of
the move, rounded against the trader; a range without liquidity is gone through like any other. The only
bounds are the contract's own: of the liquidity, of the prices that have a tick, and of the product in the price of
token 0.
-/

namespace EvmDexPool.V3

namespace Contract

/-- The share of an amount that is the fee. -/
def rate (fee : Nat) : ℚ := fee / MAX_FEE

/-- What the fee leaves of an amount. -/
def afterFee (fee amount : Nat) : Nat := ⌊(amount * (1 - rate fee) : ℚ)⌋₊

/-- The fee that goes on top of an input. -/
def feeOn (fee input : Nat) : Nat := ⌈input * rate fee / (1 - rate fee)⌉₊

/-- Where an input takes the price. For token 0 the contract has a second formula, for a denominator that does not
fit its word. -/
def priceAfterInput (zeroForOne : Bool) (price liquidity amount : Nat) : Nat :=
  if zeroForOne then
    if liquidity * 2 ^ 96 + amount * price < 2 ^ 256 then
      ⌈(liquidity * 2 ^ 96 * price / (liquidity * 2 ^ 96 + amount * price) : ℚ)⌉₊
    else ⌈(liquidity * 2 ^ 96 / (⌊(liquidity * 2 ^ 96 / price : ℚ)⌋₊ + amount) : ℚ)⌉₊
  else price + ⌊(amount * 2 ^ 96 / liquidity : ℚ)⌋₊

/-- Where an output takes the price. -/
def priceAfterOutput (zeroForOne : Bool) (price liquidity amount : Nat) : Nat :=
  if zeroForOne then price - ⌈(amount * 2 ^ 96 / liquidity : ℚ)⌉₊
  else ⌈(liquidity * 2 ^ 96 * price / (liquidity * 2 ^ 96 - amount * price) : ℚ)⌉₊

/-- What a swap only reads. -/
structure Call where
  fee : Nat
  ticks : TickMap
  tickSpacing : Int
  zeroForOne : Bool
  limit : Nat
  exactInput : Bool

/-- A swap under way: what is left of the amount asked for, and how much of the other token it came to. -/
structure State where
  left : Nat
  other : Nat
  price : Nat
  tick : Int
  liquidity : Nat

namespace Call
variable (c : Call) (s : State)

/-- The price a step ends at, on the way to its target. -/
def stopPrice (target : Nat) : Nat :=
  if c.exactInput then
    if ⌈V3.exactInput c.zeroForOne s.liquidity s.price target⌉₊ ≤ afterFee c.fee s.left then target
    else priceAfterInput c.zeroForOne s.price s.liquidity (afterFee c.fee s.left)
  else
    if ⌊exactOutput c.zeroForOne s.liquidity s.price target⌋₊ ≤ s.left then target
    else priceAfterOutput c.zeroForOne s.price s.liquidity s.left

/-- The input of a move, rounded up. -/
def input (stop : Nat) : Nat := ⌈V3.exactInput c.zeroForOne s.liquidity s.price stop⌉₊

/-- The output of a move, rounded down, and no more than asked for. -/
def output (stop : Nat) : Nat :=
  if c.exactInput then ⌊exactOutput c.zeroForOne s.liquidity s.price stop⌋₊
  else min s.left ⌊exactOutput c.zeroForOne s.liquidity s.price stop⌋₊

/-- The fee of a move. An exact input that ends short of its target leaves nothing over. -/
def feeAmount (target stop : Nat) : Nat :=
  if c.exactInput ∧ stop ≠ target then s.left - c.input s stop else feeOn c.fee (c.input s stop)

/-- The books after a step. -/
def settle (target : Nat) : State :=
  let stop := c.stopPrice s target
  let paid := c.input s stop + c.feeAmount s target stop
  let got := c.output s stop
  { s with
    price := stop
    left := s.left - if c.exactInput then paid else got
    other := s.other + if c.exactInput then got else paid }

/-- The last tick of the current word in the direction of the swap. -/
def wordEdge (tick : Int) : Int :=
  if c.zeroForOne then tick / c.tickSpacing / 256 * 256 * c.tickSpacing
  else ((tick / c.tickSpacing + 1) / 256 * 256 + 255) * c.tickSpacing

/-- The first tick lies no further than the second. -/
def Nearer (t t' : Int) : Prop := if c.zeroForOne then t' ≤ t else t ≤ t'

/-- The nearer of the next initialized tick and the edge of the word. -/
structure Next (tick t : Int) (initialized : Bool) : Prop where
  key : initialized = true ↔ ∃ v, c.ticks[t]? = some v
  ahead : Ahead c.zeroForOne tick t
  first : ∀ k v, c.ticks[k]? = some v → Ahead c.zeroForOne tick k → c.Nearer t k
  within : c.Nearer t (c.wordEdge tick)
  edge : initialized = false → t = c.wordEdge tick

def target (t : Int) : Nat :=
  if c.zeroForOne then max (sqrtRatio (SwapCall.clampTick t)) c.limit else min (sqrtRatio (SwapCall.clampTick t)) c.limit

/-- The liquidity past a tick. The net fits its signed word negated too, and the sum its unsigned one. -/
structure Crosses (tick : Int) (liquidity liquidity' : Nat) : Prop where
  sum : ∃ t, c.ticks[tick]? = some t ∧ (c.zeroForOne = true → t.liquidityNet ≠ -2 ^ 127) ∧
    (liquidity' : Int) = liquidity + if c.zeroForOne then -t.liquidityNet else t.liquidityNet
  word : liquidity' < 2 ^ 128

/-- A step: past the tick it went for, or to a price before it. -/
inductive Step : State → Prop
  | crosses {t : Int} {initialized : Bool} {liquidity : Nat} (hnext : c.Next s.tick t initialized)
      (hprice : (c.settle s (c.target t)).price = sqrtRatio (SwapCall.clampTick t))
      (hliq : if initialized then c.Crosses (SwapCall.clampTick t) s.liquidity liquidity else liquidity = s.liquidity) :
      Step { c.settle s (c.target t) with
        liquidity := liquidity
        tick := if c.zeroForOne then SwapCall.clampTick t - 1 else SwapCall.clampTick t }
  | stops {t tick : Int} {initialized : Bool} (hnext : c.Next s.tick t initialized)
      (hprice : (c.settle s (c.target t)).price ≠ sqrtRatio (SwapCall.clampTick t))
      (htick : if (c.settle s (c.target t)).price = s.price then tick = s.tick
        else (c.settle s (c.target t)).price < MAX_SQRT_RATIO ∧ FloorTick (c.settle s (c.target t)).price tick) :
      Step { c.settle s (c.target t) with tick := tick }

def goesOn : Prop := s.left ≠ 0 ∧ s.price ≠ c.limit

/-- The steps to a state. Without `gaps` none is taken from where a step came out without liquidity. -/
inductive Run (gaps : Bool) : State → State → Prop
  | done (s : State) : Run gaps s s
  | step {s s' t : State} (hgo : c.goesOn s) (hstep : c.Step s s')
      (hgap : gaps = true ∨ s'.liquidity ≠ 0 ∨ ¬c.goesOn s') (hrest : Run gaps s' t) : Run gaps s t

/-- The swap uses its amount up, and comes to that much of the other token. -/
structure Fills (gaps : Bool) (s : State) (other : Nat) : Prop where
  limit : if c.zeroForOne then c.limit < s.price else s.price < c.limit
  run : ∃ t, c.Run gaps s t ∧ t.left = 0 ∧ t.other = other

/-- A run that keeps to liquidity is a run. -/
theorem Run.through {gaps : Bool} {s t : State} (h : c.Run gaps s t) : c.Run true s t := by
  induction h with
  | done s => exact .done s
  | step hgo hstep _ _ ih => exact .step hgo hstep (.inl rfl) ih

theorem Fills.through {gaps : Bool} {s : State} {other : Nat} (h : c.Fills gaps s other) : c.Fills true s other :=
  ⟨h.limit, let ⟨t, hrun, ht⟩ := h.run; ⟨t, hrun.through, ht⟩⟩

end Call

/-! ## The roundings -/

theorem afterFee_eq {fee : Nat} (amount : Nat) (hfee : fee < MAX_FEE) : afterFee fee amount = lessFee amount fee := by
  have hmax : (MAX_FEE : ℚ) ≠ 0 := by decide
  have hrate : (amount * (1 - rate fee) : ℚ) = ((amount * (MAX_FEE - fee) : Nat) : ℚ) / (MAX_FEE : Nat) := by
    unfold rate
    push_cast [hfee.le]
    field_simp
  rw [afterFee, hrate, Nat.floor_div_eq_div, lessFee]

theorem ceil_div_eq {a b : Nat} (hb : 0 < b) : ⌈(a / b : ℚ)⌉₊ = a ⌈/⌉ b := by
  have hb' : (0 : ℚ) < b := by exact_mod_cast hb
  refine eq_of_forall_ge_iff fun k => ?_
  rw [Nat.ceil_le, div_le_iff₀ hb', ceilDiv_le_iff hb, Nat.mul_comm]
  exact_mod_cast Iff.rfl

theorem feeOn_eq {fee : Nat} (input : Nat) (hfee : fee < MAX_FEE) : feeOn fee input = input * fee ⌈/⌉ (MAX_FEE - fee) := by
  have hmax : (MAX_FEE : ℚ) ≠ 0 := by decide
  have hpos : 0 < MAX_FEE - fee := Nat.sub_pos_of_lt hfee
  have hne : ((MAX_FEE : ℚ) - fee) ≠ 0 := by
    have : (fee : ℚ) < MAX_FEE := by exact_mod_cast hfee
    linarith
  have hrate : (input * rate fee / (1 - rate fee) : ℚ) = ((input * fee : Nat) : ℚ) / ((MAX_FEE - fee : Nat) : ℚ) := by
    unfold rate
    push_cast [hfee.le]
    field_simp
  rw [feeOn, hrate, ceil_div_eq hpos]

section Spans
variable {zeroForOne : Bool} {price stop liquidity : Nat} (hp0 : 0 < price) (hs0 : 0 < stop) (hside : OnSide zeroForOne price stop)
include hp0 hs0 hside

theorem ceil_exactInput_le (k : Nat) :
    ⌈exactInput zeroForOne liquidity price stop⌉₊ ≤ k ↔ Covers zeroForOne price stop liquidity k := by
  rw [Nat.ceil_le, covers_iff hp0 hs0 hside]

theorem le_floor_exactOutput (k : Nat) :
    k ≤ ⌊exactOutput zeroForOne liquidity price stop⌋₊ ↔ Pays zeroForOne price stop liquidity k := by
  have hzero : Pays zeroForOne price stop liquidity 0 := by
    rw [Pays, Nat.zero_mul, Nat.zero_mul]
    split <;> exact Nat.zero_le _
  have hnonneg := (pays_iff hp0 hs0 hside).1 hzero
  rw [Nat.le_floor_iff (by exact_mod_cast hnonneg), pays_iff hp0 hs0 hside]

end Spans

end Contract

namespace UniswapV3Pool
variable (p : UniswapV3Pool)

/-- The contract's swap behind a quote, with the limit that a swap without one has. -/
def contractCall (zeroForOne exactInput : Bool) : Contract.Call :=
  ⟨p.fee, p.ticks, p.tickSpacing, zeroForOne, if zeroForOne then MIN_SQRT_RATIO + 1 else MAX_SQRT_RATIO - 1, exactInput⟩

def contractStart (amount : Nat) : Contract.State := ⟨amount, 0, p.sqrtPriceX96, p.tick, p.liquidity⟩

end UniswapV3Pool

end EvmDexPool.V3
