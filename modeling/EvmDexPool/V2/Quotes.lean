import EvmDexPool.Lib.Fixed
import EvmDexPool.V2.Pool

/-!
# Quotes of a V2 pair (`v2/pool.rs`)

Amounts are `U256`: `+`, `-` and `*` wrap, and `/` panics on zero. The two directions of a function of
the source are one definition here, applied to the reserves each way round.
-/

namespace EvmDexPool.V2

open Fixed

def FEE_DENOMINATOR : Nat := 1000000

/-- `EXP18`. -/
def EXP18 : Nat := 10 ^ 18

/-- `f` (pool.rs:192). -/
def f (x0 y : Nat) : Nat :=
  let a := wmul 256 x0 y / EXP18
  let b := wadd 256 (wmul 256 x0 x0 / EXP18) (wmul 256 y y / EXP18)
  wmul 256 a b / EXP18

/-- `d` (pool.rs:199). -/
def d (x0 y : Nat) : Nat :=
  wadd 256 (wmul 256 (wmul 256 3 x0) (wmul 256 y y / EXP18) / EXP18) (wmul 256 (wmul 256 x0 x0 / EXP18) x0 / EXP18)

namespace UniswapV2Pool
variable (p : UniswapV2Pool)

/-- `is_valid` (pool.rs:100). -/
def isValid : Prop := p.reserve0 ≠ 0 ∧ p.reserve1 ≠ 0

instance : Decidable p.isValid := inferInstanceAs (Decidable (_ ∧ _))

/-- An amount of one token in units of 18 decimals. -/
def parsed (amount decimals : Nat) : Except Fault Nat := udiv (wmul 256 amount EXP18) decimals

/-- `k` (pool.rs:179). -/
def k (x y : Nat) : Except Fault Nat :=
  if p.poolType = .Stable then do
    let x ← parsed x p.decimals0
    let y ← parsed y p.decimals1
    .ok (f x y)
  else .ok (wmul 256 x y)

/-- `get_y` (pool.rs:205), over the rounds that are left of its 255. -/
def getY (x0 xy : Nat) : (rounds y : Nat) → Except Fault Nat
  | 0, _ => .error (.error "!y")
  | rounds + 1, y =>
    let k := f x0 y
    if k < xy then do
      let dy ← udiv (wmul 256 (wsub 256 xy k) EXP18) (d x0 y)
      if dy = 0 then
        if k = xy then .ok y
        else do
          let above ← p.k x0 (wadd 256 y 1)
          if above > xy then .ok (wadd 256 y 1) else getY x0 xy rounds (wadd 256 y 1)
      else getY x0 xy rounds (wadd 256 y dy)
    else do
      let dy ← udiv (wmul 256 (wsub 256 k xy) EXP18) (d x0 y)
      if dy = 0 then
        if k = xy ∨ f x0 (wsub 256 y 1) < xy then .ok y else getY x0 xy rounds (wsub 256 y 1)
      else getY x0 xy rounds (wsub 256 y dy)

/-- `amount_in_with_fee`, before it is divided by the basis. -/
def amountInWithFee (amountIn : Nat) : Nat := satMul 256 amountIn (wsub 256 FEE_DENOMINATOR p.fee)

/-- `calculate_stable_output` (pool.rs:156). -/
def calculateStableOutput (amountIn : Nat) (zeroForOne : Bool) : Except Fault Nat := do
  let amountInWithFee := p.amountInWithFee amountIn / FEE_DENOMINATOR
  let xy ← p.k p.reserve0 p.reserve1
  let reserve0 ← parsed p.reserve0 p.decimals0
  let reserve1 ← parsed p.reserve1 p.decimals1
  let (reserveA, reserveB, decimalsIn, decimalsOut) :=
    if zeroForOne then (reserve0, reserve1, p.decimals0, p.decimals1)
    else (reserve1, reserve0, p.decimals1, p.decimals0)
  let amountInParsed ← parsed amountInWithFee decimalsIn
  let newY ← p.getY (wadd 256 amountInParsed reserveA) xy 255 reserveB
  let y := wsub 256 reserveB newY
  .ok (wmul 256 y decimalsOut / EXP18)

/-- The constant-product arm of both directions (pool.rs:115-124, 141-149). -/
def constantProductOutput (reserveIn reserveOut amountIn : Nat) : Except Fault Nat := do
  let amountInWithFee := p.amountInWithFee amountIn
  let numerator := wmul 256 amountInWithFee reserveOut
  let denominator := wadd 256 (wmul 256 reserveIn FEE_DENOMINATOR) amountInWithFee
  let output ← udiv numerator denominator
  if output ≥ reserveOut then .error (.error "Insufficient liquidity for swap") else .ok output

/-- Both directions of an output quote. -/
def outputQuote (reserveIn reserveOut amountIn : Nat) (zeroForOne : Bool) : Except Fault Nat :=
  if amountIn = 0 then .error (.error "Input amount cannot be zero")
  else if ¬p.isValid then .error (.error "Pool reserves are invalid")
  else match p.poolType with
    | .UniswapV2 => p.constantProductOutput reserveIn reserveOut amountIn
    | .Stable => p.calculateStableOutput amountIn zeroForOne

/-- `calculate_output_0_to_1` (pool.rs:105). -/
def calculateOutput0To1 (amountIn : Nat) : Except Fault Nat := p.outputQuote p.reserve0 p.reserve1 amountIn true

/-- `calculate_output_1_to_0` (pool.rs:130). -/
def calculateOutput1To0 (amountIn : Nat) : Except Fault Nat := p.outputQuote p.reserve1 p.reserve0 amountIn false

/-- Both directions of an input quote; the pool's type is not looked at. -/
def inputQuote (reserveIn reserveOut amountOut : Nat) : Except Fault Nat :=
  if amountOut = 0 then .error (.error "Output amount cannot be zero")
  else if ¬p.isValid then .error (.error "Pool reserves are invalid")
  else if amountOut ≥ reserveOut then .error (.error "Insufficient liquidity for swap")
  else do
    let numerator := wmul 256 (wmul 256 reserveIn amountOut) FEE_DENOMINATOR
    let denominator := wmul 256 (wsub 256 reserveOut amountOut) (wsub 256 FEE_DENOMINATOR p.fee)
    let input ← udiv numerator denominator
    .ok (wadd 256 input 1)

/-- `calculate_input_0_to_1` (pool.rs:235). -/
def calculateInput0To1 (amountOut : Nat) : Except Fault Nat := p.inputQuote p.reserve0 p.reserve1 amountOut

/-- `calculate_input_1_to_0` (pool.rs:251). -/
def calculateInput1To0 (amountOut : Nat) : Except Fault Nat := p.inputQuote p.reserve1 p.reserve0 amountOut

/-- `calculate_output` (pool.rs:269). -/
def calculateOutput (tokenIn : Address) (amountIn : Nat) : Except Fault Nat :=
  if tokenIn = p.token0 then p.calculateOutput0To1 amountIn
  else if tokenIn = p.token1 then p.calculateOutput1To0 amountIn
  else .error (.error "Token not in pool")

/-- `calculate_input` (pool.rs:279). -/
def calculateInput (tokenOut : Address) (amountOut : Nat) : Except Fault Nat :=
  if tokenOut = p.token0 then p.calculateInput1To0 amountOut
  else if tokenOut = p.token1 then p.calculateInput0To1 amountOut
  else .error (.error "Token not in pool")

/-- `apply_swap` (pool.rs:289). -/
def applySwap (now : Nat) (tokenIn : Address) (amountIn amountOut : Nat) : UniswapV2Pool × Except Fault Unit :=
  if tokenIn = p.token0 then
    if amountOut ≥ p.reserve1 then (p, .error (.error "Insufficient liquidity for swap"))
    else
      ({ p with
          reserve0 := wadd 256 p.reserve0 amountIn
          reserve1 := wsub 256 p.reserve1 amountOut
          lastUpdated := now }, .ok ())
  else if tokenIn = p.token1 then
    if amountOut ≥ p.reserve0 then (p, .error (.error "Insufficient liquidity for swap"))
    else
      ({ p with
          reserve1 := wadd 256 p.reserve1 amountIn
          reserve0 := wsub 256 p.reserve0 amountOut
          lastUpdated := now }, .ok ())
  else (p, .error (.error "Token not in pool"))

/-- The reserve of a token's own side, and of the other. -/
def reserveOf (token : Address) : Nat := if token = p.token0 then p.reserve0 else p.reserve1
def reserveAgainst (token : Address) : Nat := if token = p.token0 then p.reserve1 else p.reserve0

end UniswapV2Pool

end EvmDexPool.V2
