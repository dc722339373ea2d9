import Mathlib.Data.List.Basic
import EvmDexPool.Collector.Registry

/-!
# Fetching pools into the registry (`collector/pool_fetcher.rs`)

What a pool's type and state are is read over RPC; `FetchAnswers` is what the probes and the fetchers
(`identify_pool_type`, `fetch_pool`) come back with, attempt by attempt. A fetch reads nothing of the
registry, so `fetchPools` lists the pools in the order they are inserted, and with them how the call
ended. Sleeps, and whether a chunk is fetched in parallel, make no difference to either.
-/

namespace EvmDexPool

open Std

variable {π : Type} [PoolInterface π]

/-- What the reads of one call answer. Attempt 0 is the chunk's; a retry probes the type again. Each
fetcher builds a pool of the type it is for, at the address it is given (`fetch_pool`,
pool_fetcher.rs:84). -/
structure FetchAnswers (π : Type) [PoolInterface π] where
  identify : Address → Nat → Except String PoolType
  fetch : Address → PoolType → Nat → Except String π
  fetched : ∀ a t n p, fetch a t n = .ok p → PoolInterface.address p = a ∧ PoolInterface.poolType p = t

/-- The fields of `PoolFetchConfig` that decide what is fetched. -/
structure PoolFetchConfig where
  chunkSize : Nat
  maxRetries : Nat

namespace FetchAnswers
variable (answers : FetchAnswers π) (config : PoolFetchConfig)

/-- One retry (pool_fetcher.rs:303-317). -/
def attempt (a : Address) (n : Nat) : Except String π := do
  let t ← answers.identify a n
  answers.fetch a t n

/-- The retries of a failed pool, until one succeeds (pool_fetcher.rs:293-347). -/
def retryPool (a : Address) : Option π :=
  (List.range' 1 config.maxRetries).findSome? fun n => (answers.attempt a n).toOption

/-- The failed pools one after the other; the first that stays failed ends the call. -/
def retryAll : List Address → List π × Except String Unit
  | [] => ([], .ok ())
  | a :: as =>
    match answers.retryPool config a with
    | some p => (p :: (retryAll as).1, (retryAll as).2)
    | none => ([], .error s!"Failed to fetch pool {a} after {config.maxRetries} retries. Check RPC connection and rate limits.")

/-- One chunk (pool_fetcher.rs:193-348): all types first, then all pools, then the retries. -/
def fetchChunk (chunk : List Address) : List π × Except String Unit :=
  match chunk.mapM fun a => answers.identify a 0 with
  | .error e => ([], .error e)
  | .ok types =>
    let results := (chunk.zip types).map fun e => (e.1, answers.fetch e.1 e.2 0)
    let first := results.filterMap fun e => e.2.toOption
    let failed := (results.filter fun e => e.2.toOption.isNone).map (·.1)
    let retried := answers.retryAll config failed
    (first ++ retried.1, retried.2)

/-- The chunks one after the other. -/
def fetchPools : List (List Address) → List π × Except String Unit
  | [] => ([], .ok ())
  | chunk :: chunks =>
    match answers.fetchChunk config chunk with
    | (ps, .ok ()) => (ps ++ (fetchPools chunks).1, (fetchPools chunks).2)
    | (ps, .error e) => (ps, .error e)

end FetchAnswers

namespace PoolRegistry

/-- Registering the topics of the types present (pool_fetcher.rs:361-365, handle.rs:778-781). The set's
order only orders the list. -/
def addTypes (r : PoolRegistry π) (types : List PoolType) : PoolRegistry π :=
  types.foldl (fun r t => (r.addTopics t.topics).addProfitableTopics t.profitableTopics) r

/-- The pools a call fetches, and how it ends: those not in the registry yet, chunk by chunk. -/
def fetchNew (r : PoolRegistry π) (answers : FetchAnswers π) (poolAddresses : List Address)
    (config : PoolFetchConfig) : List π × Except String Unit :=
  answers.fetchPools config
    ((poolAddresses.filter fun a => (r.getPool a).isNone).toChunks (max config.chunkSize 1))

/-- `fetch_pools_into_registry` (pool_fetcher.rs:145): the cursor and the topics are written only when
every pool has come. -/
def fetchPoolsIntoRegistry (r : PoolRegistry π) (answers : FetchAnswers π) (poolAddresses : List Address)
    (block : Nat) (config : PoolFetchConfig) : PoolRegistry π × Except String (List Address) :=
  let (ps, outcome) := r.fetchNew answers poolAddresses config
  let r := ps.foldl addPool r
  match outcome with
  | .error e => (r, .error e)
  | .ok () =>
    ((r.setLastProcessedBlock block).addTypes (ps.map PoolInterface.poolType),
      .ok (ps.map PoolInterface.address))

/-- `register_pools_and_topics` (handle.rs:772). -/
def registerPoolsAndTopics (r : PoolRegistry π) (pools : List π) : PoolRegistry π :=
  (pools.foldl addPool r).addTypes (pools.map PoolInterface.poolType)

/-! ## What inserting pools and topics writes -/

variable {r : PoolRegistry π}

theorem foldl_addPool_topics (ps : List π) : (ps.foldl addPool r).topics = r.topics := by
  induction ps generalizing r with
  | nil => rfl
  | cons p ps ih => rw [List.foldl_cons, ih, addPool_topics]

theorem foldl_addPool_lastProcessedBlock (ps : List π) :
    (ps.foldl addPool r).lastProcessedBlock = r.lastProcessedBlock := by
  induction ps generalizing r with
  | nil => rfl
  | cons p ps ih => rw [List.foldl_cons, ih, addPool_lastProcessedBlock]

/-- An address holds the pool that was inserted there last. -/
theorem foldl_addPool_getPool (ps : List π) (a : Address) :
    (ps.foldl addPool r).getPool a = ((ps.filter fun p => PoolInterface.address p = a).getLast?).or (r.getPool a) := by
  induction ps generalizing r with
  | nil => simp
  | cons p ps ih =>
    rw [List.foldl_cons, ih]
    unfold getPool
    rw [addPool_byAddress, Ranges.lookup_insert]
    by_cases h : PoolInterface.address p = a
    · subst h
      simp [List.getLast?_cons]
    · simp [h, Ne.symm h]

omit [PoolInterface π] in
theorem addTypes_byAddress (types : List PoolType) : (r.addTypes types).byAddress = r.byAddress := by
  induction types generalizing r with
  | nil => rfl
  | cons t types ih => exact ih

omit [PoolInterface π] in
theorem addTypes_lastProcessedBlock (types : List PoolType) :
    (r.addTypes types).lastProcessedBlock = r.lastProcessedBlock := by
  induction types generalizing r with
  | nil => rfl
  | cons t types ih => exact ih

omit [PoolInterface π] in
theorem mem_addTypes (types : List PoolType) (x : Topic) :
    x ∈ (r.addTypes types).topics ↔ x ∈ r.topics ∨ ∃ t ∈ types, x ∈ t.topics := by
  induction types generalizing r with
  | nil => simp [addTypes]
  | cons t types ih =>
    change x ∈ (((r.addTopics t.topics).addProfitableTopics t.profitableTopics).addTypes types).topics ↔ _
    rw [ih, addProfitableTopics_topics, mem_addTopics, or_assoc]
    simp

omit [PoolInterface π] in
theorem addTypes_setLastProcessedBlock (types : List PoolType) (block : Nat) :
    (r.setLastProcessedBlock block).addTypes types = (r.addTypes types).setLastProcessedBlock block := by
  induction types generalizing r with
  | nil => rfl
  | cons t types ih =>
    change (((r.addTopics t.topics).addProfitableTopics t.profitableTopics).setLastProcessedBlock block).addTypes
      types = _
    rw [ih]
    rfl

/-- A call that fetches everything registers it and moves the cursor. -/
theorem fetchPoolsIntoRegistry_ok {answers : FetchAnswers π} {poolAddresses : List Address} {block : Nat}
    {config : PoolFetchConfig} {ps : List π} (h : r.fetchNew answers poolAddresses config = (ps, .ok ())) :
    (r.fetchPoolsIntoRegistry answers poolAddresses block config).1 =
      (r.registerPoolsAndTopics ps).setLastProcessedBlock block := by
  unfold fetchPoolsIntoRegistry registerPoolsAndTopics
  rw [h]
  exact addTypes_setLastProcessedBlock ..

/-- A call that gives up has inserted what it fetched, and nothing else. -/
theorem fetchPoolsIntoRegistry_error {answers : FetchAnswers π} {poolAddresses : List Address} {block : Nat}
    {config : PoolFetchConfig} {ps : List π} {e : String}
    (h : r.fetchNew answers poolAddresses config = (ps, .error e)) :
    (r.fetchPoolsIntoRegistry answers poolAddresses block config).1 = ps.foldl addPool r := by
  unfold fetchPoolsIntoRegistry
  rw [h]

end PoolRegistry

end EvmDexPool
