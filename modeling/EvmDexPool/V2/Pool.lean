import EvmDexPool.Log

/-!
# The Uniswap V2 pool and its logs (`v2/pool.rs`)

The state a pair's logs move. `now` is the wall clock `apply_log` reads.
-/

namespace EvmDexPool.V2

/-- `V2PoolType` (pool.rs:20). -/
inductive V2PoolType
  | UniswapV2 | Stable
deriving DecidableEq, Repr

structure UniswapV2Pool where
  poolType : V2PoolType
  address : Address
  token0 : Address
  token1 : Address
  decimals0 : Nat
  decimals1 : Nat
  reserve0 : Nat
  reserve1 : Nat
  fee : Nat
  lastUpdated : Nat
  createdAt : Nat
deriving DecidableEq, Repr

namespace UniswapV2Pool
variable (p : UniswapV2Pool)

/-- `update_reserves` (pool.rs:82). -/
def updateReserves (now reserve0 reserve1 : Nat) : UniswapV2Pool :=
  { p with reserve0 := reserve0, reserve1 := reserve1, lastUpdated := now }

/-- `UniswapV2Pool::topics` (pool.rs:387). -/
def topics : List Topic := [.v2Swap, .v2Sync, .v2SyncUint256]

/-- `UniswapV2Pool::profitable_topics` (pool.rs:395). -/
def profitableTopics : List Topic := [.v2Swap]

/-- `UniswapV2Pool::apply_log` (pool.rs:354). The swap arm does not decode its log. -/
def applyLog (now : Nat) (l : Log) : UniswapV2Pool × Except Fault Unit :=
  match l.payload with
  | .event (.v2 (.sync reserve0 reserve1)) => (p.updateReserves now reserve0 reserve1, .ok ())
  | .event (.v2 (.syncUint256 reserve0 reserve1)) => (p.updateReserves now reserve0 reserve1, .ok ())
  | .raw t err => if t = .v2Sync ∨ t = .v2SyncUint256 then (p, .error (.error err)) else (p, .ok ())
  | _ => (p, .ok ())

/-- A pair that holds nothing yet. -/
def emptyPair (address : Address) : UniswapV2Pool := ⟨.UniswapV2, address, 2, 3, 18, 18, 0, 0, 3000, 0, 0⟩

end UniswapV2Pool

end EvmDexPool.V2
