import EvmDexPool.Collector.Chain
import EvmDexPool.Collector.EventPaths

/-!
# The updater and its polled source (`collector/unified_pool_updater.rs`, `collector/block_source.rs`)

| here | there |
| --- | --- |
| `UnifiedPoolUpdater.new`   | `UnifiedPoolUpdater::new`, in latest-block mode |
| `UnifiedPoolUpdater.batch` | one turn of the loop in `start` |
| `LatestBlockSource`        | `LatestBlockSource`, whose batches are popped off the end of a reversed list |

`Env` is what a turn meets outside the registry. The queries retry until they are answered, so they
answer as the chain does. Fee reading is `Collector.FeeReader`'s.
-/

namespace EvmDexPool

open Std Replay

/-- `ProcessingMode` (block_source.rs:98). -/
inductive ProcessingMode
  | ApplyOnly
  | ConfirmedWithSwaps
  | Pending
deriving DecidableEq, Repr

/-- `EventBatch` (block_source.rs:108). -/
structure EventBatch where
  events : List Log
  processingMode : ProcessingMode
  processedThroughBlock : Option Nat
deriving DecidableEq, Repr

/-- The wall clock at each log, the blocks' times, and the order a `HashMap` gives the addresses of a
batch in. -/
structure Env where
  clock : Log → Nat
  times : Nat → Option Nat
  order : List Log → List Address
  order_nodup : ∀ ls, (order ls).Nodup
  mem_order : ∀ ls a, a ∈ order ls ↔ a ∈ ls.map (·.address)

/-! ## The polled source -/

structure LatestBlockSource where
  topics : List Topic
  maxBlocksPerBatch : Nat
  batches : List (Nat × Nat × Bool)

/-- The batch ranges (block_source.rs:437-448). `current + max - 1` adds first, and with `max = 0` the
loop does not advance. -/
def planBatches (maxBlocks latest : Nat) : Nat → Nat → Except Fault (List (Nat × Nat × Bool))
  | 0, _ => .error .diverges
  | fuel + 1, current =>
    if current ≤ latest then
      if current + maxBlocks < 2 ^ 64 then
        let batchEnd := min (current + maxBlocks - 1) latest
        if batchEnd + 1 < 2 ^ 64 then do
          let rest ← planBatches maxBlocks latest fuel (batchEnd + 1)
          .ok ((current, batchEnd, batchEnd = latest ∧ current = batchEnd) :: rest)
        else .error .overflow
      else .error .overflow
    else .ok []

namespace LatestBlockSource
variable {π : Type} [PoolInterface π] (src : LatestBlockSource) (c : Chain) (env : Env)

/-- The batch of one range (block_source.rs:361-407). -/
def fetchBatch (r : PoolRegistry π) (range : Nat × Nat × Bool) : EventBatch where
  events := r.enrichIfLbPoolsPresent env.times (c.getLogs r.getAllAddresses src.topics range.1 range.2.1)
  processingMode := if range.2.2 then .ConfirmedWithSwaps else .ApplyOnly
  processedThroughBlock := some range.2.1

/-- The ranges left to yield: those already planned, else what the polled header `latest` gives; none
while it is not past the cursor. -/
def planned (cursor latest : Nat) : Except Fault (List (Nat × Nat × Bool)) :=
  match src.batches with
  | [] =>
    if cursor + 1 < 2 ^ 64 then planBatches src.maxBlocksPerBatch latest (latest + 2) (cursor + 1)
    else .error .overflow
  | batches => .ok batches

end LatestBlockSource

/-! ## The updater -/

structure UnifiedPoolUpdater where
  source : LatestBlockSource
  eventProcessor : EventProcessor

namespace UnifiedPoolUpdater
variable {π : Type} [PoolInterface π]

/-- The cursor a new updater leaves (unified_pool_updater.rs:66-79). -/
def startCursor (current startBlock : Nat) : Nat :=
  if current = 0 then startBlock
  else if startBlock > 0 ∧ startBlock > current then startBlock
  else current

@[simp] theorem startCursor_zero (current : Nat) : startCursor current 0 = current := by
  unfold startCursor
  split
  · next h => exact h.symm
  · exact if_neg fun h => absurd h.1 (lt_irrefl 0)

@[simp] theorem startCursor_self (current : Nat) : startCursor current current = current := by
  unfold startCursor
  split
  · rfl
  · exact if_neg fun h => absurd h.2 (lt_irrefl current)

/-- `UnifiedPoolUpdater::new` (unified_pool_updater.rs:51): the topics are those registered now. -/
def new (r : PoolRegistry π) (swapEventTx : Bool) (startBlock maxBlocksPerBatch : Nat) :
    PoolRegistry π × UnifiedPoolUpdater :=
  (r.setLastProcessedBlock (startCursor r.lastProcessedBlock startBlock),
    { source := ⟨r.topics, maxBlocksPerBatch, []⟩
      eventProcessor := ⟨swapEventTx, r.profitableTopics⟩ })

/-- Applying a batch and moving the cursor (unified_pool_updater.rs:194-228). -/
def process (proc : EventProcessor) (env : Env) (b : EventBatch) (r : PoolRegistry π) :
    PoolRegistry π × Except Fault Unit :=
  let out := match b.processingMode with
    | .ApplyOnly => applyEventsToRegistry env.clock (env.order b.events) b.events r
    | .ConfirmedWithSwaps =>
      ((proc.processConfirmedEvents env.clock b.events r).1.1, (proc.processConfirmedEvents env.clock b.events r).2)
    | .Pending => (r, (proc.processPendingEvents env.clock b.events r).2)
  match out.2 with
  | .error e => (out.1, .error e)
  | .ok () =>
    (match b.processedThroughBlock with
      | some block => out.1.setLastProcessedBlock block
      | none => out.1, .ok ())

/-- One turn of the loop. A panic ends the updater's task. -/
def batch (u : UnifiedPoolUpdater) (c : Chain) (env : Env) (latest : Nat) (r : PoolRegistry π) :
    PoolRegistry π × Option UnifiedPoolUpdater :=
  match u.source.planned r.lastProcessedBlock latest with
  | .error _ => (r, none)
  | .ok [] => (r, some u)
  | .ok (range :: rest) =>
    match process u.eventProcessor env (u.source.fetchBatch c env r range) r with
    | (r, .error _) => (r, none)
    | (r, .ok ()) => (r, some { u with source := { u.source with batches := rest } })

/-! ## A batch that can be reported -/

variable {proc : EventProcessor} {env : Env} {b : EventBatch} {r : PoolRegistry π}

/-- Either confirmed path replays the batch. -/
theorem process_eq (h : Reportable env.clock proc b.events r) (hm : b.processingMode ≠ .Pending) (block : Nat)
    (hb : b.processedThroughBlock = some block) :
    process proc env b r = ((r.replayed env.clock b.events).setLastProcessedBlock block, .ok ()) := by
  unfold process
  rw [hb]
  cases hmode : b.processingMode with
  | ApplyOnly =>
    have := applyEventsToRegistry_eq (env.order_nodup b.events) (env.mem_order b.events) h
    dsimp only
    rw [this]
  | ConfirmedWithSwaps =>
    obtain ⟨sent, hsent⟩ := processConfirmedEvents_eq h
    dsimp only
    rw [hsent]
  | Pending => exact absurd hmode hm

/-- A batch of logs that can all be sent, if it ends well, could be reported. -/
theorem reportable_of_process (hs : ∀ l ∈ b.events, Sendable proc l) (hm : b.processingMode ≠ .Pending)
    (h : (process proc env b r).2 = .ok ()) : Reportable env.clock proc b.events r := by
  refine ⟨?_, fun _ l hl _ => hs l hl⟩
  unfold process at h
  cases hmode : b.processingMode with
  | ApplyOnly =>
    rw [hmode] at h
    dsimp only at h
    split at h
    · cases h
    · next hok =>
      exact (clean_applyEventsToRegistry (env.order_nodup _) (env.mem_order _)).1 ((loop_ok_iff ..).1 hok)
  | ConfirmedWithSwaps =>
    rw [hmode] at h
    dsimp only at h
    split at h
    · cases h
    · next hok => exact quiet_of_processConfirmedEvents hok
  | Pending => exact absurd hmode hm

end UnifiedPoolUpdater

/-- A clock that stands still, no block times, the addresses in the order of their first log. -/
def stillEnv : Env where
  clock _ := 0
  times _ := none
  order ls := (ls.map (·.address)).eraseDups
  order_nodup _ := nodup_eraseDups _
  mem_order _ _ := List.mem_eraseDups

theorem Log.Mined.sendable {l : Log} (h : l.Mined) (proc : EventProcessor) : Sendable proc l := by
  obtain ⟨t, ht⟩ := Option.isSome_iff_exists.1 h.topic
  exact ⟨t, ht, fun _ => ⟨h.hash, h.logIndex⟩⟩

end EvmDexPool
