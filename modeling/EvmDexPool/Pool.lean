import EvmDexPool.V2.Pool
import EvmDexPool.V3.Pool
import EvmDexPool.ERC4626.Pool
import EvmDexPool.LB.Events

/-!
# Pools behind one interface (`pool/base.rs`)

The collector holds its pools as `Box<dyn PoolInterface>`; `PoolInterface` is what it asks of them,
and `Pool` the box. `asV3` and `withV3` are the downcasts to `UniswapV3Pool`.
-/

namespace EvmDexPool

open V2 V3 ERC4626 LB

/-- `ERC4626Pool` (erc4626/mod.rs). -/
inductive ERC4626Pool
  | VerioIP
deriving DecidableEq, Repr

/-- `PoolType` (base.rs:120). -/
inductive PoolType
  | UniswapV2
  | UniswapV3
  | ERC4626 (pool : ERC4626Pool)
  | TraderJoeLB
deriving DecidableEq, Repr

namespace PoolType

/-- `PoolType::topics` (base.rs:155). -/
def topics : PoolType → List Topic
  | UniswapV2 => UniswapV2Pool.topics
  | UniswapV3 => UniswapV3Pool.topics
  | ERC4626 .VerioIP => VerioIP.topics
  | TraderJoeLB => LBPool.topics

/-- `PoolType::profitable_topics` (base.rs:164). -/
def profitableTopics : PoolType → List Topic
  | UniswapV2 => UniswapV2Pool.profitableTopics
  | UniswapV3 => UniswapV3Pool.profitableTopics
  | ERC4626 .VerioIP => VerioIP.profitableTopics
  | TraderJoeLB => LBPool.profitableTopics

end PoolType

/-- What the collector asks of a pool. A log never changes a pool's type. -/
class PoolInterface (π : Type) where
  address : π → Address
  poolType : π → PoolType
  applyLog : Nat → Log → π → π × Except Fault Unit
  asV3 : π → Option UniswapV3Pool
  withV3 : (UniswapV3Pool → UniswapV3Pool) → π → π
  poolType_applyLog : ∀ now l p, poolType (applyLog now l p).1 = poolType p

inductive Pool
  | v2 (p : UniswapV2Pool)
  | v3 (p : UniswapV3Pool)
  | verioIP (p : VerioIP)
  | lb (p : LBPool)
deriving DecidableEq

namespace Pool

def address : Pool → Address
  | v2 p => p.address
  | v3 p => p.address
  | verioIP p => p.base.address
  | lb p => p.address

def poolType : Pool → PoolType
  | v2 _ => .UniswapV2
  | v3 _ => .UniswapV3
  | verioIP _ => .ERC4626 .VerioIP
  | lb _ => .TraderJoeLB

def applyLog (now : Nat) (l : Log) : Pool → Pool × Except Fault Unit
  | v2 p => (.v2 (p.applyLog now l).1, (p.applyLog now l).2)
  | v3 p => (.v3 (p.applyLog now l).1, (p.applyLog now l).2)
  | verioIP p => (.verioIP (p.applyLog l).1, (p.applyLog l).2)
  | lb p => (.lb (p.applyLog now l).1, (p.applyLog now l).2)

def asV3 : Pool → Option UniswapV3Pool
  | v3 p => some p
  | _ => none

def withV3 (f : UniswapV3Pool → UniswapV3Pool) : Pool → Pool
  | v3 p => .v3 (f p)
  | p => p

instance : PoolInterface Pool where
  address := address
  poolType := poolType
  applyLog := applyLog
  asV3 := asV3
  withV3 := withV3
  poolType_applyLog _ _ p := by cases p <;> rfl

end Pool

end EvmDexPool
