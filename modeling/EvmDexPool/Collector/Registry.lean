import EvmDexPool.Lib.Replay
import EvmDexPool.Pool

/-!
# The pool registry (`registry.rs`)

| here | there |
| --- | --- |
| `byAddress`           | `DashMap<Address, Arc<RwLock<Box<dyn PoolInterface>>>>` |
| `dynamicFeeAddresses` | `DashMap<Address, ()>` |
| `topics`              | `Vec<Topic>` behind a lock |
| `profitableTopics`    | `HashSet<Topic>` behind a lock |

A pool is read and written under its own lock, so a call on it is one step here. The network id
only names the chain in the logs and is left out.
-/

namespace EvmDexPool

open Std V3

/-- `UniswapV3Pool::fee_needs_reading` (v3/pool.rs:171). -/
def V3.UniswapV3Pool.feeNeedsReading (p : UniswapV3Pool) : Bool :=
  match p.feeSource with
  | .readFee => true
  | .readCurrentFee => true
  | .unknown => p.poolType = .AlgebraV3 ∨ p.poolType = .RamsesCL
  | .events => false

structure PoolRegistry (π : Type) where
  byAddress : ExtTreeMap Address π
  dynamicFeeAddresses : ExtTreeMap Address Unit
  lastProcessedBlock : Nat
  topics : List Topic
  profitableTopics : List Topic

namespace PoolRegistry
variable {π : Type} (r : PoolRegistry π)

/-- `PoolRegistry::new` (registry.rs:34). -/
def empty : PoolRegistry π := ⟨∅, ∅, 0, [], []⟩

/-- `add_dynamic_fee_address` (registry.rs:46). -/
def addDynamicFeeAddress (address : Address) : PoolRegistry π :=
  { r with dynamicFeeAddresses := r.dynamicFeeAddresses.insert address () }

/-- `remove_dynamic_fee_address` (registry.rs:58). -/
def removeDynamicFeeAddress (address : Address) : PoolRegistry π :=
  { r with dynamicFeeAddresses := r.dynamicFeeAddresses.erase address }

/-- `is_dynamic_fee_address` (registry.rs:77). -/
def isDynamicFeeAddress (address : Address) : Bool := address ∈ r.dynamicFeeAddresses

/-- `get_pool` (registry.rs:116). -/
def getPool (address : Address) : Option π := r.byAddress[address]?

/-- `remove_pool` (registry.rs:130). -/
def removePool (address : Address) : PoolRegistry π :=
  match r.byAddress[address]? with
  | some _ => { r.removeDynamicFeeAddress address with byAddress := r.byAddress.erase address }
  | none => r

/-- `get_all_addresses` (registry.rs:212). -/
def getAllAddresses : List Address := r.byAddress.keys

/-- `set_last_processed_block` (registry.rs:231). -/
def setLastProcessedBlock (block : Nat) : PoolRegistry π := { r with lastProcessedBlock := block }

/-- `add_topics` (registry.rs:251). -/
def addTopics (ts : List Topic) : PoolRegistry π :=
  { r with topics := ts.foldl (fun acc t => if t ∈ acc then acc else acc ++ [t]) r.topics }

/-- `add_profitable_topics` (registry.rs:261). -/
def addProfitableTopics (ts : List Topic) : PoolRegistry π :=
  { r with profitableTopics := ts.foldl (fun acc t => if t ∈ acc then acc else acc ++ [t]) r.profitableTopics }

variable {r}

@[simp] theorem addProfitableTopics_topics (ts : List Topic) : (r.addProfitableTopics ts).topics = r.topics := rfl

/-- The topic list grows by what is not in it yet. -/
theorem mem_addTopics (ts : List Topic) (t : Topic) : t ∈ (r.addTopics ts).topics ↔ t ∈ r.topics ∨ t ∈ ts := by
  unfold addTopics
  dsimp only
  generalize r.topics = acc
  induction ts generalizing acc with
  | nil => simp
  | cons a ts ih =>
    rw [List.foldl_cons, ih]
    by_cases h : a ∈ acc
    · simp only [if_pos h, List.mem_cons]
      constructor
      · rintro (h' | h')
        · exact .inl h'
        · exact .inr (.inr h')
      · rintro (h' | rfl | h')
        · exact .inl h'
        · exact .inl h
        · exact .inr h'
    · simp [if_neg h, or_assoc]

theorem mem_getAllAddresses {a : Address} : a ∈ r.getAllAddresses ↔ (r.getPool a).isSome := by
  unfold getAllAddresses getPool
  rw [ExtTreeMap.mem_keys, ExtTreeMap.mem_iff_isSome_getElem?]

theorem mem_of_getPool {a : Address} {p : π} (h : r.getPool a = some p) : a ∈ r.getAllAddresses :=
  mem_getAllAddresses.2 (Option.isSome_iff_exists.2 ⟨p, h⟩)

theorem removePool_getPool (a b : Address) : (r.removePool a).getPool b = if b = a then none else r.getPool b := by
  unfold removePool
  cases ha : r.byAddress[a]? with
  | some p => exact Ranges.lookup_erase ..
  | none =>
    by_cases h : b = a
    · rw [if_pos h, h]
      exact ha
    · rw [if_neg h]

/-! ## Operations that look at the pools -/

variable [PoolInterface π]

/-- `add_pool` (registry.rs:102). -/
def addPool (r : PoolRegistry π) (p : π) : PoolRegistry π :=
  let r := match PoolInterface.asV3 p with
    | some v3 => if v3.feeNeedsReading then r.addDynamicFeeAddress (PoolInterface.address p) else r
    | none => r
  { r with byAddress := r.byAddress.insert (PoolInterface.address p) p }

/-- `get_addresses_by_type` (registry.rs:178). -/
def getAddressesByType (r : PoolRegistry π) (t : PoolType) : List Address :=
  (r.byAddress.toList.filter fun e => PoolInterface.poolType e.2 = t).map (·.1)

@[simp] theorem addPool_byAddress (p : π) :
    (r.addPool p).byAddress = r.byAddress.insert (PoolInterface.address p) p := by
  unfold addPool
  split
  · split <;> rfl
  · rfl

@[simp] theorem addPool_topics (p : π) : (r.addPool p).topics = r.topics := by
  unfold addPool
  split
  · split <;> rfl
  · rfl

@[simp] theorem addPool_lastProcessedBlock (p : π) : (r.addPool p).lastProcessedBlock = r.lastProcessedBlock := by
  unfold addPool
  split
  · split <;> rfl
  · rfl

end PoolRegistry

end EvmDexPool
