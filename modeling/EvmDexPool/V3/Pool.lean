import EvmDexPool.Lib.Fixed
import EvmDexPool.V3.Tick

/-!
# The Uniswap V3 pool and its logs (`v3/pool.rs`)

As for Liquidity Book pools, `applyLog` returns the pool as the call leaves it, also on an error,
and `now` is the wall clock it reads. `amount as i128` wraps, the tick's own counters saturate.
-/

namespace EvmDexPool.V3

open Std

/-- `V3PoolType` (pool.rs:30). -/
inductive V3PoolType
  | UniswapV3 | PancakeV3 | AlgebraV3 | AlgebraTwoSideFee | AlgebraPoolFeeInState | RamsesCL
deriving DecidableEq, Repr

/-- `FeeSource` (pool.rs:53). -/
inductive FeeSource
  | unknown | events | readFee | readCurrentFee
deriving DecidableEq, Repr

/-- `SWAP_FEE_WINDOW`, `SWAP_FEE_MISSES_TO_STOP` (pool.rs:24). -/
def SWAP_FEE_WINDOW : Nat := 10
def SWAP_FEE_MISSES_TO_STOP : Nat := 3

structure UniswapV3Pool where
  poolType : V3PoolType
  address : Address
  token0 : Address
  token1 : Address
  fee : Nat
  tickSpacing : Int
  sqrtPriceX96 : Nat
  tick : Int
  liquidity : Nat
  ticks : TickMap
  factory : Address
  lastUpdated : Nat
  createdAt : Nat
  feeSource : FeeSource
  swapFeeMisses : List Bool
deriving DecidableEq

namespace UniswapV3Pool
variable (p : UniswapV3Pool)

/-- `tick_search` (pool.rs:256). -/
def tickSearch : TickSearch :=
  match p.poolType with
  | .AlgebraV3 => .nextInitialized
  | _ => .wordBounded p.tickSpacing

/-- `fee_unpredictable` (pool.rs:181). -/
def feeUnpredictable : Bool := (p.swapFeeMisses.filter id).length ≥ SWAP_FEE_MISSES_TO_STOP

/-- `record_swap_fee` (pool.rs:189). -/
def recordSwapFee (missed : Bool) : UniswapV3Pool :=
  let misses := p.swapFeeMisses ++ [missed]
  { p with swapFeeMisses := if misses.length > SWAP_FEE_WINDOW then misses.tail else misses }

/-- `update_state` (pool.rs:209). -/
def updateState (now sqrtPriceX96 : Nat) (tick : Int) (liquidity : Nat) : UniswapV3Pool × Except Fault Unit :=
  if sqrtPriceX96 = 0 then (p, .error (.error "Invalid sqrt_price_x96: zero"))
  else if tick < -887272 ∨ tick > 887272 then (p, .error (.error s!"Invalid tick: {tick} out of bounds"))
  else ({ p with sqrtPriceX96 := sqrtPriceX96, tick := tick, liquidity := liquidity, lastUpdated := now }, .ok ())

/-- `update_tick` (pool.rs:228). -/
def updateTick (index liquidityNet : Int) (liquidityGross : Nat) : UniswapV3Pool :=
  if liquidityGross = 0 then { p with ticks := p.ticks.erase index }
  else { p with ticks := p.ticks.insert index ⟨index, liquidityNet, liquidityGross⟩ }

/-- `self.tick >= tick_lower && self.tick < tick_upper`. -/
def inRange (tickLower tickUpper : Int) : Bool := tickLower ≤ p.tick ∧ p.tick < tickUpper

/-- One end of a mint (pool.rs:413-425): a tick that is there has `delta` added to its net and
`amount` to its gross liquidity, saturating; one that is not is created. -/
def mintTick (index delta : Int) (amount : Nat) : UniswapV3Pool :=
  match p.ticks[index]? with
  | some tick =>
    { p with ticks := p.ticks.insert index { tick with
        liquidityNet := Fixed.satSigned 128 (tick.liquidityNet + delta)
        liquidityGross := Fixed.satAdd 128 tick.liquidityGross amount } }
  | none => p.updateTick index delta amount

/-- `apply_mint_event` (pool.rs:403). Creating the upper tick negates `amount as i128`, which is a
native overflow for `i128::MIN`. -/
def applyMintEvent (tickLower tickUpper : Int) (amount : Nat) : UniswapV3Pool × Except Fault Unit :=
  if tickLower ≥ tickUpper then
    (p, .error (.error s!"Invalid tick range: tick_lower {tickLower} >= tick_upper {tickUpper}"))
  else
    let delta := Fixed.toSigned 128 amount
    let q := p.mintTick tickLower delta amount
    if q.ticks[tickUpper]?.isNone ∧ amount = 2 ^ 127 then (q, .error .overflow)
    else
      let q := q.mintTick tickUpper (-delta) amount
      (if q.inRange tickLower tickUpper then { q with liquidity := Fixed.satAdd 128 q.liquidity amount } else q,
        .ok ())

/-- One end of a burn (pool.rs:461-488). -/
def burnTick (index delta : Int) (amount : Nat) : Option UniswapV3Pool :=
  match p.ticks[index]? with
  | some tick =>
    let gross := tick.liquidityGross - amount
    let q := { p with ticks := p.ticks.insert index { tick with
        liquidityNet := Fixed.satSigned 128 (tick.liquidityNet + delta)
        liquidityGross := gross } }
    some (if gross = 0 then q.updateTick index tick.liquidityNet 0 else q)
  | none => none

/-- `apply_burn_event` (pool.rs:437). -/
def applyBurnEvent (tickLower tickUpper : Int) (amount : Nat) : UniswapV3Pool × Except Fault Unit :=
  if tickLower ≥ tickUpper then
    (p, .error (.error s!"Invalid tick range: tick_lower {tickLower} >= tick_upper {tickUpper}"))
  else if tickLower ∉ p.ticks then
    (p, .error (.error s!"Burn attempted on uninitialized tick_lower: {tickLower}"))
  else if tickUpper ∉ p.ticks then
    (p, .error (.error s!"Burn attempted on uninitialized tick_upper: {tickUpper}"))
  else
    let delta := Fixed.toSigned 128 amount
    match p.burnTick tickLower (-delta) amount with
    | none => (p, .error (.error s!"Burn attempted on uninitialized tick_lower: {tickLower}"))
    | some q => match q.burnTick tickUpper delta amount with
      | none => (q, .error (.error s!"Burn attempted on uninitialized tick_upper: {tickUpper}"))
      | some q =>
        (if q.inRange tickLower tickUpper then { q with liquidity := q.liquidity - amount } else q, .ok ())

/-- `UniswapV3Pool::topics` (pool.rs:744). -/
def topics : List Topic :=
  [.v3Swap, .v3Mint, .v3Burn, .pancakeSwap, .algebraSwap, .algebraBurn, .ramsesFeeAdjustment, .ramsesMint,
    .integralFee, .integralPluginConfig, .integralPlugin, .integralSwapFee]

/-- `UniswapV3Pool::profitable_topics` (pool.rs:768). -/
def profitableTopics : List Topic := [.v3Swap, .pancakeSwap, .algebraSwap]

def applyEvent (now : Nat) : V3Event → UniswapV3Pool × Except Fault Unit
  | .swap sqrtPriceX96 tick liquidity => p.updateState now sqrtPriceX96 tick liquidity
  | .pancakeSwap sqrtPriceX96 tick liquidity => p.updateState now sqrtPriceX96 tick liquidity
  | .algebraSwap price tick liquidity => p.updateState now price tick liquidity
  | .feeAdjustment _ newFee =>
    (if p.feeSource = .readCurrentFee then p else { p with fee := newFee }, .ok ())
  | .mint tickLower tickUpper amount => p.applyMintEvent tickLower tickUpper amount
  | .ramsesMint tickLower tickUpper amount => p.applyMintEvent tickLower tickUpper amount
  | .burn tickLower tickUpper amount => p.applyBurnEvent tickLower tickUpper amount
  | .algebraBurn bottomTick topTick liquidityAmount => p.applyBurnEvent bottomTick topTick liquidityAmount
  | .fee fee => (if p.feeSource ≠ .readFee then { p with fee := fee } else p, .ok ())
  | .pluginConfig _ => ({ p with feeSource := .unknown }, .ok ())
  | .plugin _ => ({ p with feeSource := .unknown }, .ok ())
  | .swapFee overrideFee pluginFee =>
    let base := if overrideFee ≠ 0 then overrideFee else p.fee
    (p.recordSwapFee (base + pluginFee > p.fee), .ok ())

/-- `UniswapV3Pool::apply_log` (pool.rs:563). The two plugin arms do not decode their log. -/
def applyLog (now : Nat) (l : Log) : UniswapV3Pool × Except Fault Unit :=
  match l.payload with
  | .event (.v3 e) => p.applyEvent now e
  | .raw t err =>
    if t = .integralPluginConfig ∨ t = .integralPlugin then ({ p with feeSource := .unknown }, .ok ())
    else if t ∈ topics then (p, .error (.error err))
    else (p, .ok ())
  | _ => (p, .ok ())

end UniswapV3Pool

end EvmDexPool.V3
