import EvmDexPool.StableAddress
import EvmDexPool.Collector.Running

/-!
# Adding pools to a running collector (`collector/handle.rs:103-434`)

The collector is stopped, the registered pools are caught up to the block the new ones are fetched at (over
HTTP also the new ones, in memory, to the block the collector had come to), then the new pools and their
topics are registered and the collector goes on. The topics that the catch-up in memory asks for, and those
the new listeners subscribe to, are read before the registration: `addPools_exact` says when that is enough.
-/

namespace EvmDexPool

open Std Replay

/-! ## Fetching in memory -/

namespace FetchAnswers
variable {π : Type} [PoolInterface π] (answers : FetchAnswers π) (config : PoolFetchConfig)

/-- The retries of the failed pools (handle.rs:583-640). -/
def retryInMemory : List Address → Except String (List π)
  | [] => .ok []
  | a :: as =>
    match answers.retryPool config a with
    | some p => (retryInMemory as).map (p :: ·)
    | none => .error s!"Failed to fetch pool {a} after {config.maxRetries} retries"

/-- One chunk (handle.rs:513-640). Fetched one after the other, a type that cannot be read ends the call. -/
def chunkInMemory (parallelFetch : Bool) (chunk : List Address) : Except String (List π) :=
  let unread := chunk.findSome? fun a => match answers.identify a 0 with
    | .error e => some e
    | .ok _ => none
  match (if parallelFetch then none else unread) with
  | some e => .error e
  | none =>
    let results := chunk.map fun a => (a, answers.attempt a 0)
    let failed := (results.filter fun e => e.2.toOption.isNone).map (·.1)
    (answers.retryInMemory config failed).map ((results.filterMap fun e => e.2.toOption) ++ ·)

/-- The chunks one after the other. -/
def chunksInMemory (parallelFetch : Bool) : List (List Address) → Except String (List π)
  | [] => .ok []
  | chunk :: chunks => do
    let ps ← answers.chunkInMemory config parallelFetch chunk
    let rest ← chunksInMemory parallelFetch chunks
    .ok (ps ++ rest)

/-- `fetch_pools_in_memory` (handle.rs:490). -/
def fetchPoolsInMemory (parallelFetch : Bool) (addresses : List Address) : Except String (List π) :=
  answers.chunksInMemory config parallelFetch (addresses.toChunks (max config.chunkSize 1))

end FetchAnswers

/-! ## Catching up in memory -/

section
variable {π : Type} [PoolInterface π]

/-- A pool's own events, one at a time. -/
def givePool (clock : Log → Nat) (events : List Log) (p : π) : Except Fault π :=
  match loop (applyOrWarn clock) (eventsOf events (PoolInterface.address p)) p with
  | (p, .ok ()) => .ok p
  | (_, .error e) => .error e

def givePools (clock : Log → Nat) (events : List Log) : List π → Except Fault (List π)
  | [] => .ok []
  | p :: ps => do
    let p ← givePool clock events p
    let ps ← givePools clock events ps
    .ok (p :: ps)

/-- `apply_catchup_events_in_memory` (handle.rs:646). -/
def applyCatchupEventsInMemory (c : Chain) (env : Env) (pools : List π) (topics : List Topic) (fromBlock toBlock : Nat) :
    Except Fault (List π) :=
  let events := c.getLogs (pools.map PoolInterface.address) topics fromBlock toBlock
  let lb := (pools.filter fun p => PoolInterface.poolType p = .TraderJoeLB).map PoolInterface.address
  givePools env.clock (events.map (·.fillBlockTimestamp (fun l => l.address ∈ lb) env.times)) pools

end

/-! ## The handle -/

/-- The fields of `CollectorHandle` (handle.rs:35) that `add_pools` reads and writes. -/
structure CollectorHandle (π : Type) extends Running π where
  useWebsocket : Bool
  usePendingBlocks : Bool
  maxBlocksPerBatch : Nat
  blockSettle : Nat
  swapEventTx : Bool
  wsUrls : List String
  wsListeners : List WsFeed

/-- What a call meets: the wall clock and the headers, what the pools' reads at a block answer, the fetch
configuration, and the turns the updater takes until it has stopped, or the call has failed before. -/
structure Addition (π : Type) [PoolInterface π] where
  env : Env
  answersAt : Nat → FetchAnswers π
  config : PoolFetchConfig
  parallelFetch : Bool
  turns : List Turn

namespace CollectorHandle
variable {π : Type} [PoolInterface π] (c : Chain) (x : Addition π) (h : CollectorHandle π)

/-- The handle once the updater has taken its turns. -/
def gone : CollectorHandle π := { h with toRunning := runTo (Running.turn c) h.toRunning x.turns x.turns.length }

/-- `stop_updater` (handle.rs:445). -/
def stopUpdater : Except Fault (CollectorHandle π) := do
  let s ← (h.gone c x).toRunning.stop
  .ok { h with toRunning := s }

/-- `spawn_updater` (handle.rs:456). -/
def spawnUpdater (h : CollectorHandle π) (mode : UpdaterMode) (startBlock : Nat) : CollectorHandle π :=
  let new := Updater.new c h.registry h.swapEventTx startBlock h.maxBlocksPerBatch mode
  { h with registry := new.1, updater := some new.2 }

/-- The registered pools are caught up if the pools are fetched ahead of them (handle.rs:211, :312). -/
def catchUpRegistered (c : Chain) (env : Env) (fetchBlock : Nat) (r : PoolRegistry π) : PoolRegistry π × Except Fault Unit :=
  if r.lastProcessedBlock < fetchBlock then catchupRegistryToBlock c env (r.lastProcessedBlock + 1) fetchBlock r
  else (r, .ok ())

/-- `add_pools_http` (handle.rs:170). The pools are fetched while the updater goes on. -/
def addPoolsHttp (addresses : List Address) (blockNumber : Nat) : CollectorHandle π × Except Fault Unit :=
  let fetchBlock := max blockNumber h.registry.lastProcessedBlock
  match (x.answersAt fetchBlock).fetchPoolsInMemory x.config x.parallelFetch addresses with
  | .error e => (h.gone c x, .error (.error e))
  | .ok pools =>
    match h.stopUpdater c x with
    | .error e => (h.gone c x, .error e)
    | .ok h =>
      let stopBlock := h.registry.lastProcessedBlock
      match catchUpRegistered c x.env fetchBlock h.registry with
      | (r, .error e) => ({ h with registry := r }, .error e)
      | (r, .ok ()) =>
        let finalBlock := max fetchBlock stopBlock
        let caughtUp :=
          if fetchBlock < finalBlock then applyCatchupEventsInMemory c x.env pools r.topics (fetchBlock + 1) finalBlock
          else .ok pools
        match caughtUp with
        | .error e => ({ h with registry := r }, .error e)
        | .ok pools =>
          let r := (r.registerPoolsAndTopics pools).setLastProcessedBlock finalBlock
          let mode := if h.usePendingBlocks then .PendingBlock else .LatestBlock
          (({ h with registry := r } : CollectorHandle π).spawnUpdater c mode finalBlock, .ok ())

/-- `add_pools_ws` (handle.rs:284). A fetch that fails lets the collector go on without the new pools. -/
def addPoolsWs (addresses : List Address) (blockNumber : Nat) : CollectorHandle π × Except Fault Unit :=
  match { h with wsListeners := [] }.stopUpdater c x with
  | .error e => ({ h with wsListeners := [] }.gone c x, .error e)
  | .ok h =>
    let fetchBlock := max blockNumber h.registry.lastProcessedBlock
    match catchUpRegistered c x.env fetchBlock h.registry with
    | (r, .error e) => ({ h with registry := r }, .error e)
    | (r, .ok ()) =>
      let feed := ⟨r.getAllAddresses ++ addresses.filter fun a => a ∉ r.getAllAddresses, r.topics⟩
      let h := { h with registry := r, wsListeners := h.wsUrls.map fun _ => feed }
      let mode := .Websocket h.wsListeners h.blockSettle (h.wsUrls.length = 1)
      match (x.answersAt fetchBlock).fetchPoolsInMemory x.config x.parallelFetch addresses with
      | .error e =>
        (({ h with registry := r.setLastProcessedBlock fetchBlock } : CollectorHandle π).spawnUpdater c mode fetchBlock,
          .error (.error e))
      | .ok pools =>
        let r := (r.registerPoolsAndTopics pools).setLastProcessedBlock fetchBlock
        (({ h with registry := r } : CollectorHandle π).spawnUpdater c mode fetchBlock, .ok ())

/-- The addresses that are not registered yet. -/
def unregistered (newAddresses : List Address) : List Address :=
  newAddresses.filter fun a => (h.registry.getPool a).isNone

/-- `add_pools` (handle.rs:103). -/
def addPools (newAddresses : List Address) (blockNumber : Nat) : CollectorHandle π × Except Fault Unit :=
  if h.unregistered newAddresses = [] then (h, .ok ())
  else if h.useWebsocket then h.addPoolsWs c x (h.unregistered newAddresses) blockNumber
  else h.addPoolsHttp c x (h.unregistered newAddresses) blockNumber

end CollectorHandle

/-! ## What adding pools is for -/

/-- The filter lets every topic of the pools through. -/
def AsksFor {π : Type} [PoolInterface π] (topics : List Topic) (ps : List π) : Prop :=
  ∀ p ∈ ps, ∀ t ∈ (PoolInterface.poolType p).topics, t ∈ topics

namespace CollectorHandle
variable {π : Type} [PoolInterface π] (c : Chain) (x : Addition π) (h : CollectorHandle π)

/-- The registry as the updater leaves it. -/
def stopped : PoolRegistry π := (h.gone c x).registry

/-- The block the new pools are fetched at. -/
def fetchBlock (blockNumber : Nat) : Nat :=
  max blockNumber (if h.useWebsocket then (h.stopped c x).lastProcessedBlock else h.registry.lastProcessedBlock)

/-- The new pools, as they are fetched. -/
def fetched (newAddresses : List Address) (blockNumber : Nat) : Except String (List π) :=
  (x.answersAt (h.fetchBlock c x blockNumber)).fetchPoolsInMemory x.config x.parallelFetch (h.unregistered newAddresses)

/-- The topic filters the new pools' logs have to pass until the handle is used again: that of the query
that catches them up, and those of the new listeners, which `h'` holds. -/
def newFilters (blockNumber : Nat) (h' : CollectorHandle π) : List (List Topic) :=
  if h.useWebsocket then h'.wsListeners.map (·.topics)
  else if h.fetchBlock c x blockNumber < (h.stopped c x).lastProcessedBlock then [(h.stopped c x).topics]
  else []

/-- The new pools' logs are asked for before their topics are registered. -/
def AsksEarly (blockNumber : Nat) : Prop :=
  if h.useWebsocket then h.wsUrls ≠ [] else h.fetchBlock c x blockNumber < (h.stopped c x).lastProcessedBlock

end CollectorHandle

section
variable {π : Type} [PoolInterface π] (c : Chain) (x : Addition (Traced π)) (h : CollectorHandle (Traced π))

/-- Nothing is lost and nothing doubled: the old pools and the new ones are registered, each with exactly
its logs up to the final block, and the filters let the new pools' topics through. -/
structure CollectorHandle.AddsExactly (newAddresses : List Address) (blockNumber : Nat)
    (h' : CollectorHandle (Traced π)) : Prop where
  registered : ∀ a, (h'.registry.getPool a).isSome ↔ (h.registry.getPool a).isSome ∨ a ∈ newAddresses
  exact : h'.registry.Coherent c
  asked : ∀ ps, h.fetched c x newAddresses blockNumber = .ok ps →
    ∀ topics ∈ h.newFilters c x blockNumber h', AsksFor topics ps

/-- The turns the updater takes until it has stopped meet their conditions and leave it at rest. With nothing
to add it is not stopped, and is at rest where it is. -/
def CollectorHandle.StopsClean (newAddresses : List Address) : Prop :=
  let turns := if h.unregistered newAddresses = [] then [] else x.turns
  (∀ k t, turns[k]? = some t → (runTo (Running.turn c) h.toRunning turns k).Meets c t) ∧
    (runTo (Running.turn c) h.toRunning turns turns.length).Rests c

/-- The topics registered before the call are enough: those of the new pools where they are asked for
early, and of the old pools those of the logs up to the fetch block. -/
structure CollectorHandle.TopicsSuffice (newAddresses : List Address) (blockNumber : Nat) : Prop where
  old : ∀ a p, (h.stopped c x).getPool a = some p →
    ¬c.Misses a (PoolInterface.poolType p) (h.stopped c x).topics (h.stopped c x).lastProcessedBlock
      (h.fetchBlock c x blockNumber)
  new : h.AsksEarly c x blockNumber → ∀ ps, h.fetched c x newAddresses blockNumber = .ok ps →
    AsksFor (h.stopped c x).topics ps

end

/-! ## What is fetched -/

theorem flatten_toChunks_go {α : Type} (n : Nat) (xs : List α) (acc : Array α) (done : Array (List α)) :
    (List.toChunks.go n xs acc done).flatten = done.toList.flatten ++ acc.toList ++ xs := by
  induction xs generalizing acc done with
  | nil => simp [List.toChunks.go]
  | cons x xs ih =>
    unfold List.toChunks.go
    split
    · rw [ih]
      simp
    · rw [ih]
      simp

theorem flatten_toChunks {α : Type} (n : Nat) (xs : List α) : (xs.toChunks n).flatten = xs := by
  unfold List.toChunks
  split
  · rfl
  · simp
  · rw [flatten_toChunks_go]
    simp

namespace FetchAnswers
variable {π : Type} [PoolInterface π] {answers : FetchAnswers π} {config : PoolFetchConfig} {parallelFetch : Bool}

theorem of_retryInMemory {as : List Address} {ps : List π} (h : answers.retryInMemory config as = .ok ps) :
    ∀ p ∈ ps, ∃ a ∈ as, ∃ t n, answers.fetch a t n = .ok p := by
  induction as generalizing ps with
  | nil =>
    cases h
    simp
  | cons a as ih =>
    unfold retryInMemory at h
    split at h
    · next q hq =>
      cases hrest : answers.retryInMemory config as with
      | error e =>
        rw [hrest] at h
        cases h
      | ok rest =>
        rw [hrest] at h
        cases h
        intro p hp
        rcases List.mem_cons.1 hp with rfl | hp
        · exact ⟨a, List.mem_cons_self, of_retryPool hq⟩
        · obtain ⟨a', ha', hf⟩ := ih hrest p hp
          exact ⟨a', List.mem_cons_of_mem _ ha', hf⟩
    · cases h

theorem of_chunkInMemory {chunk : List Address} {ps : List π} (h : answers.chunkInMemory config parallelFetch chunk = .ok ps) :
    ∀ p ∈ ps, ∃ a ∈ chunk, ∃ t n, answers.fetch a t n = .ok p := by
  unfold chunkInMemory at h
  dsimp only at h
  split at h
  · cases h
  · cases hretried : answers.retryInMemory config
        ((((chunk.map fun a => (a, answers.attempt a 0)).filter fun e => e.2.toOption.isNone).map (·.1))) with
    | error e =>
      rw [hretried] at h
      cases h
    | ok retried =>
      rw [hretried] at h
      cases h
      intro p hp
      rcases List.mem_append.1 hp with hp | hp
      · obtain ⟨e, he, hep⟩ := List.mem_filterMap.1 hp
        obtain ⟨a, ha, rfl⟩ := List.mem_map.1 he
        obtain ⟨t, hf⟩ := of_attempt hep
        exact ⟨a, ha, t, 0, hf⟩
      · obtain ⟨a, ha, hf⟩ := of_retryInMemory hretried p hp
        obtain ⟨e, he, rfl⟩ := List.mem_map.1 ha
        obtain ⟨a', ha', rfl⟩ := List.mem_map.1 (List.mem_filter.1 he).1
        exact ⟨a', ha', hf⟩

theorem of_chunksInMemory {chunks : List (List Address)} {ps : List π}
    (h : answers.chunksInMemory config parallelFetch chunks = .ok ps) :
    ∀ p ∈ ps, ∃ a ∈ chunks.flatten, ∃ t n, answers.fetch a t n = .ok p := by
  induction chunks generalizing ps with
  | nil =>
    cases h
    simp
  | cons chunk chunks ih =>
    unfold chunksInMemory at h
    obtain ⟨first, hfirst, h⟩ := bind_eq_ok.1 h
    obtain ⟨rest, hrest, h⟩ := bind_eq_ok.1 h
    cases h
    intro p hp
    rw [List.flatten_cons]
    rcases List.mem_append.1 hp with hp | hp
    · obtain ⟨a, ha, hf⟩ := of_chunkInMemory hfirst p hp
      exact ⟨a, List.mem_append_left _ ha, hf⟩
    · obtain ⟨a, ha, hf⟩ := ih hrest p hp
      exact ⟨a, List.mem_append_right _ ha, hf⟩

/-- Every pool that is fetched is one some fetch of a given address answered. -/
theorem of_fetchPoolsInMemory {addresses : List Address} {ps : List π}
    (h : answers.fetchPoolsInMemory config parallelFetch addresses = .ok ps) :
    ∀ p ∈ ps, ∃ a ∈ addresses, ∃ t n, answers.fetch a t n = .ok p := by
  intro p hp
  obtain ⟨a, ha, hf⟩ := of_chunksInMemory h p hp
  refine ⟨a, ?_, hf⟩
  rwa [flatten_toChunks] at ha

theorem retryInMemory_all {as : List Address} {ps : List π} (h : answers.retryInMemory config as = .ok ps) :
    ∀ a ∈ as, ∃ p ∈ ps, PoolInterface.address p = a := by
  induction as generalizing ps with
  | nil => simp
  | cons a as ih =>
    unfold retryInMemory at h
    split at h
    · next q hq =>
      cases hrest : answers.retryInMemory config as with
      | error e =>
        rw [hrest] at h
        cases h
      | ok rest =>
        rw [hrest] at h
        cases h
        intro a' ha'
        rcases List.mem_cons.1 ha' with rfl | ha'
        · obtain ⟨t, n, hf⟩ := of_retryPool hq
          exact ⟨q, List.mem_cons_self, (answers.fetched _ t n q hf).1⟩
        · obtain ⟨p, hp, hpa⟩ := ih hrest a' ha'
          exact ⟨p, List.mem_cons_of_mem _ hp, hpa⟩
    · cases h

theorem chunkInMemory_all {chunk : List Address} {ps : List π}
    (h : answers.chunkInMemory config parallelFetch chunk = .ok ps) :
    ∀ a ∈ chunk, ∃ p ∈ ps, PoolInterface.address p = a := by
  unfold chunkInMemory at h
  dsimp only at h
  split at h
  · cases h
  · cases hretried : answers.retryInMemory config
        ((((chunk.map fun a => (a, answers.attempt a 0)).filter fun e => e.2.toOption.isNone).map (·.1))) with
    | error e =>
      rw [hretried] at h
      cases h
    | ok retried =>
      rw [hretried] at h
      cases h
      intro a ha
      have hmem := List.mem_map_of_mem (f := fun a => (a, answers.attempt a 0)) ha
      cases hattempt : (answers.attempt a 0).toOption with
      | some p =>
        obtain ⟨t, hf⟩ := of_attempt hattempt
        refine ⟨p, List.mem_append_left _ (List.mem_filterMap.2 ⟨_, hmem, hattempt⟩), ?_⟩
        exact (answers.fetched _ t 0 p hf).1
      | none =>
        obtain ⟨p, hp, hpa⟩ := retryInMemory_all hretried a
          (List.mem_map.2 ⟨_, List.mem_filter.2 ⟨hmem, by simp [hattempt]⟩, rfl⟩)
        exact ⟨p, List.mem_append_right _ hp, hpa⟩

theorem chunksInMemory_all {chunks : List (List Address)} {ps : List π}
    (h : answers.chunksInMemory config parallelFetch chunks = .ok ps) :
    ∀ a ∈ chunks.flatten, ∃ p ∈ ps, PoolInterface.address p = a := by
  induction chunks generalizing ps with
  | nil => simp
  | cons chunk chunks ih =>
    unfold chunksInMemory at h
    obtain ⟨first, hfirst, h⟩ := bind_eq_ok.1 h
    obtain ⟨rest, hrest, h⟩ := bind_eq_ok.1 h
    cases h
    intro a ha
    rw [List.flatten_cons] at ha
    rcases List.mem_append.1 ha with ha | ha
    · obtain ⟨p, hp, hpa⟩ := chunkInMemory_all hfirst a ha
      exact ⟨p, List.mem_append_left _ hp, hpa⟩
    · obtain ⟨p, hp, hpa⟩ := ih hrest a ha
      exact ⟨p, List.mem_append_right _ hp, hpa⟩

/-- A fetch that ends well has fetched every address. -/
theorem fetchPoolsInMemory_all {addresses : List Address} {ps : List π}
    (h : answers.fetchPoolsInMemory config parallelFetch addresses = .ok ps) :
    ∀ a ∈ addresses, ∃ p ∈ ps, PoolInterface.address p = a := by
  intro a ha
  exact chunksInMemory_all h a (by rwa [flatten_toChunks])

end FetchAnswers

/-! ## What catching up gives -/

section
variable {π : Type} [PoolInterface π] {clock : Log → Nat} {c : Chain}

instance [StableAddress π] : StableAddress (Traced π) where
  address_applyLog now l p := StableAddress.address_applyLog now l p.pool

theorem address_foldl_stepLog [StableAddress π] (ls : List Log) (p : π) :
    PoolInterface.address (ls.foldl (fun p l => stepLog clock l p) p) = PoolInterface.address p := by
  induction ls generalizing p with
  | nil => rfl
  | cons l ls ih => exact (ih _).trans (StableAddress.address_applyLog (clock l) l p)

/-- The pool is given its own logs of the list. -/
theorem givePool_ok [StableAddress π] {events : List Log} {p q : Traced π} (h : givePool clock events p = .ok q) :
    PoolInterface.address q = PoolInterface.address p ∧ PoolInterface.poolType q = PoolInterface.poolType p ∧
      q.given = p.given ++
        (events.filter (·.ownedBy (PoolInterface.address p) (PoolInterface.poolType p))).map Log.untimed := by
  unfold givePool at h
  split at h
  · next p' hp' =>
    cases h
    have hclean := (loop_ok_iff (eventsOf events (PoolInterface.address p)) p).1 (congrArg Prod.snd hp')
    have hfst := (congrArg Prod.fst hp').symm.trans (loop_fst hclean)
    have hstep : (fun (p : Traced π) (l : Log) => (applyOrWarn clock l p).1) = fun p l => stepLog clock l p :=
      funext fun p => funext fun l => applyOrWarn_fst l p
    rw [hstep] at hfst
    change q = _ at hfst
    obtain ⟨htype, hgiven⟩ := Traced.foldl_stepLog clock (eventsOf events (PoolInterface.address p)) p
    rw [hfst]
    refine ⟨address_foldl_stepLog _ p, htype, hgiven.trans ?_⟩
    unfold eventsOf
    rw [List.filter_filter]
    refine congrArg _ (congrArg _ (List.filter_congr fun l _ => ?_))
    unfold Log.ownedBy
    simp [Bool.and_comm]
  · cases h

theorem givePools_ok [StableAddress π] {events : List Log} {ps qs : List (Traced π)}
    (h : givePools clock events ps = .ok qs) :
    qs.map PoolInterface.address = ps.map PoolInterface.address ∧
      ∀ q ∈ qs, ∃ p ∈ ps, PoolInterface.address q = PoolInterface.address p ∧
        PoolInterface.poolType q = PoolInterface.poolType p ∧ q.given = p.given ++
          (events.filter (·.ownedBy (PoolInterface.address p) (PoolInterface.poolType p))).map Log.untimed := by
  induction ps generalizing qs with
  | nil =>
    cases h
    simp
  | cons p ps ih =>
    unfold givePools at h
    obtain ⟨q, hq, h⟩ := bind_eq_ok.1 h
    obtain ⟨rest, hrest, h⟩ := bind_eq_ok.1 h
    cases h
    obtain ⟨haddresses, hgiven⟩ := ih hrest
    have hgave := givePool_ok hq
    refine ⟨by rw [List.map_cons, List.map_cons, haddresses, hgave.1], fun q' hq' => ?_⟩
    rcases List.mem_cons.1 hq' with rfl | hq'
    · exact ⟨p, List.mem_cons_self, hgave⟩
    · obtain ⟨p', hp', hrel⟩ := hgiven q' hq'
      exact ⟨p', List.mem_cons_of_mem _ hp', hrel⟩

/-- Pools caught up in memory by a query that asks for all their topics. -/
theorem applyCatchupEventsInMemory_ok [StableAddress π] {env : Env} {ps qs : List (Traced π)} {topics : List Topic}
    {b b' : Nat} (hb : b ≤ b') (hps : ∀ p ∈ ps, p.given = c.ownThrough (PoolInterface.address p) (PoolInterface.poolType p) b)
    (h : applyCatchupEventsInMemory c env ps topics (b + 1) b' = .ok qs) :
    qs.map PoolInterface.address = ps.map PoolInterface.address ∧
      (AsksFor topics ps →
        ∀ q ∈ qs, q.given = c.ownThrough (PoolInterface.address q) (PoolInterface.poolType q) b') := by
  unfold applyCatchupEventsInMemory at h
  obtain ⟨haddresses, hgiven⟩ := givePools_ok h
  refine ⟨haddresses, fun hasks q hq => ?_⟩
  obtain ⟨p, hp, haddress, htype, hgave⟩ := hgiven q hq
  rw [hgave, owned_filled, c.owned_getLogs _ _ _ (List.mem_map_of_mem hp), hps p hp, haddress, htype]
  exact (c.ownThrough_query _ _ _ hb).2 (Chain.not_misses (hasks p hp))

/-- The registered pools caught up from their own block to the one the new pools are fetched at. -/
theorem CollectorHandle.catchUpRegistered_ok {env : Env} {block : Nat} {r r' : PoolRegistry (Traced π)}
    (h : catchUpRegistered c env block r = (r', .ok ())) :
    r'.topics = r.topics ∧ ∀ a, r'.ledger a = (r.ledger a).map fun e => (e.1, e.2 ++
      c.ownWhere a e.1 fun l => (r.lastProcessedBlock + 1 ≤ l.block ∧ l.block ≤ max block r.lastProcessedBlock) ∧
        (r.topics = [] ∨ ∃ x ∈ r.topics, l.topic0 = some x)) := by
  unfold catchUpRegistered at h
  split at h
  · next hlt =>
    unfold catchupRegistryToBlock at h
    have hgives := (PoolRegistry.gives_replayed env.clock r (r.enrichIfLbPoolsPresent env.times
      (c.getLogs r.getAllAddresses r.topics (r.lastProcessedBlock + 1) block))).of_enriched
    rw [catchupEvents_ok h, max_eq_left hlt.le]
    refine ⟨hgives.topics, fun a => (hgives.ledger a).trans ?_⟩
    cases he : r.ledger a with
    | none => rfl
    | some e =>
      have ha : a ∈ r.getAllAddresses := PoolRegistry.mem_of_ledger he
      rw [Option.map_some, Option.map_some]
      unfold entered
      rw [c.owned_getLogs e.1 _ _ ha]
  · next hle =>
    cases h
    refine ⟨rfl, fun a => ?_⟩
    cases he : r.ledger a with
    | none => rfl
    | some e =>
      have hnil : (c.ownWhere a e.1 fun l =>
          (r.lastProcessedBlock + 1 ≤ l.block ∧ l.block ≤ max block r.lastProcessedBlock) ∧
            (r.topics = [] ∨ ∃ x ∈ r.topics, l.topic0 = some x)) = [] := by
        unfold Chain.ownWhere
        rw [List.map_eq_nil_iff, List.filter_eq_nil_iff]
        intro l hl hc
        simp only [decide_eq_true_eq] at hc
        omega
      rw [Option.map_some, hnil, List.append_nil]

/-- They stand at that block exactly when the catch-up's query misses none of their logs. -/
theorem CollectorHandle.standsAt_catchUpRegistered {env : Env} {block : Nat} {r r' : PoolRegistry (Traced π)}
    (hr : r.Coherent c) (h : catchUpRegistered c env block r = (r', .ok ())) :
    r'.StandsAt c (max block r.lastProcessedBlock) ↔ ∀ a p, r.getPool a = some p →
      ¬c.Misses a (PoolInterface.poolType p) r.topics r.lastProcessedBlock block := by
  have hmisses : ∀ a t, c.Misses a t r.topics r.lastProcessedBlock block ↔
      c.Misses a t r.topics r.lastProcessedBlock (max block r.lastProcessedBlock) := by
    intro a t
    unfold Chain.Misses
    refine exists_congr fun l => and_congr_right fun _ => and_congr_right fun _ => and_congr_right fun hlt => ?_
    rw [le_max_iff, or_iff_left (Nat.not_le.2 hlt)]
  obtain ⟨-, hledger⟩ := catchUpRegistered_ok h
  unfold PoolRegistry.StandsAt
  constructor
  · intro hstands a p hp
    have he : r.ledger a = some (PoolInterface.poolType p, p.given) := by
      unfold PoolRegistry.ledger
      rw [hp, Option.map_some]
    have heq := hstands a _ (by rw [hledger, he, Option.map_some])
    dsimp only at heq
    rw [hmisses, ← c.ownThrough_query _ _ _ (le_max_right ..), ← hr a p hp]
    exact heq
  · intro hnone a e he
    rw [hledger] at he
    obtain ⟨e0, he0, rfl⟩ := Option.map_eq_some_iff.1 he
    unfold PoolRegistry.ledger at he0
    obtain ⟨p, hp, rfl⟩ := Option.map_eq_some_iff.1 he0
    dsimp only
    rw [hr a p hp]
    exact (c.ownThrough_query _ _ _ (le_max_right ..)).2 ((hmisses _ _).not.1 (hnone a p hp))

/-! ## Registration -/

theorem PoolRegistry.getPool_registered (r : PoolRegistry (Traced π)) (ps : List (Traced π)) (b : Nat) (a : Address) :
    ((r.registerPoolsAndTopics ps).setLastProcessedBlock b).getPool a =
      ((ps.filter fun p => PoolInterface.address p = a).getLast?).or (r.getPool a) := by
  rw [← foldl_addPool_getPool]
  unfold registerPoolsAndTopics setLastProcessedBlock getPool
  rw [addTypes_byAddress]

/-- The address of a new pool is taken by one of them. -/
theorem PoolRegistry.isSome_getPool_registered (r : PoolRegistry (Traced π)) (ps : List (Traced π)) (b : Nat) (a : Address) :
    (((r.registerPoolsAndTopics ps).setLastProcessedBlock b).getPool a).isSome ↔
      (r.getPool a).isSome ∨ ∃ p ∈ ps, PoolInterface.address p = a := by
  rw [getPool_registered, Option.isSome_or, Bool.or_eq_true, or_comm]
  refine or_congr Iff.rfl ?_
  rw [List.getLast?_isSome]
  simp

/-- New pools that stand at the registry's new block, among pools that do. -/
theorem PoolRegistry.StandsAt.registered {r : PoolRegistry (Traced π)} {b : Nat} (h : r.StandsAt c b)
    {ps : List (Traced π)}
    (hps : ∀ p ∈ ps, p.given = c.ownThrough (PoolInterface.address p) (PoolInterface.poolType p) b) :
    ((r.registerPoolsAndTopics ps).setLastProcessedBlock b).Coherent c := by
  intro a p hp
  change p.given = c.ownThrough a (PoolInterface.poolType p) b
  rw [getPool_registered] at hp
  cases hl : (ps.filter fun p => PoolInterface.address p = a).getLast? with
  | none =>
    rw [hl, Option.none_or] at hp
    exact h a (PoolInterface.poolType p, p.given) (by unfold ledger; rw [hp, Option.map_some])
  | some q =>
    rw [hl, Option.some_or] at hp
    cases hp
    obtain ⟨hmem, ha⟩ := List.mem_filter.1 (List.mem_of_getLast? hl)
    have ha : PoolInterface.address p = a := by simpa using ha
    rw [← ha]
    exact hps p hmem

/-- Pools at addresses of their own take no old pool's place. -/
theorem PoolRegistry.Coherent.standsAt_of_registered {r : PoolRegistry (Traced π)} {b : Nat} {ps : List (Traced π)}
    (h : ((r.registerPoolsAndTopics ps).setLastProcessedBlock b).Coherent c)
    (hps : ∀ p ∈ ps, r.getPool (PoolInterface.address p) = none) : r.StandsAt c b := by
  intro a e he
  unfold ledger at he
  obtain ⟨p, hp, rfl⟩ := Option.map_eq_some_iff.1 he
  refine h a p ?_
  rw [getPool_registered]
  have hnil : (ps.filter fun p => PoolInterface.address p = a) = [] := by
    rw [List.filter_eq_nil_iff]
    intro q hq ha
    have ha : PoolInterface.address q = a := by simpa using ha
    have hnone := hps q hq
    rw [ha, hp] at hnone
    cases hnone
  rw [hnil, List.getLast?_nil, Option.none_or, hp]

/-! ## Adding pools -/

namespace CollectorHandle
variable {x : Addition (Traced π)} {h h' : CollectorHandle (Traced π)} {newAddresses : List Address} {blockNumber : Nat}

omit [PoolInterface π] in
/-- Spawned at the cursor, the updater leaves it there. -/
theorem spawnUpdater_registry (h : CollectorHandle (Traced π)) (mode : UpdaterMode) {b : Nat}
    (hb : h.registry.lastProcessedBlock = b) :
    (h.spawnUpdater c mode b).registry = h.registry := by
  subst hb
  unfold spawnUpdater Updater.new UnifiedPoolUpdater.new
  dsimp only
  rw [UnifiedPoolUpdater.startCursor_self]
  rfl

/-- A stop that comes to an end leaves the handle as it is, but for the registry the updater leaves. -/
theorem stopUpdater_ok (hstop : h.stopUpdater c x = .ok h') :
    h' = { h with toRunning := ⟨h.stopped c x, none⟩ } := by
  unfold stopUpdater Running.stop at hstop
  split at hstop
  · split at hstop
    · cases hstop
    · cases hstop
      rfl
  · cases hstop
    rfl

theorem isSome_getPool_stopped (hsame : (h.stopped c x).getAllAddresses = h.registry.getAllAddresses) (a : Address) :
    ((h.stopped c x).getPool a).isSome ↔ (h.registry.getPool a).isSome := by
  rw [← PoolRegistry.mem_getAllAddresses, ← PoolRegistry.mem_getAllAddresses, hsame]

/-- The new pools stand at the block they are fetched at, at addresses that were asked for and are free. -/
theorem of_fetched (hsame : (h.stopped c x).getAllAddresses = h.registry.getAllAddresses)
    (hf : ∀ b a t n p, (x.answersAt b).fetch a t n = .ok p → p.given = c.ownThrough a t b)
    {ps : List (Traced π)} (hps : h.fetched c x newAddresses blockNumber = .ok ps) {p : Traced π} (hp : p ∈ ps) :
    PoolInterface.address p ∈ newAddresses ∧ (h.stopped c x).getPool (PoolInterface.address p) = none ∧
      p.given = c.ownThrough (PoolInterface.address p) (PoolInterface.poolType p) (h.fetchBlock c x blockNumber) := by
  obtain ⟨a, ha, t, n, hfetch⟩ := FetchAnswers.of_fetchPoolsInMemory hps p hp
  obtain ⟨haddress, htype⟩ := (x.answersAt _).fetched a t n p hfetch
  obtain ⟨hmem, hnone⟩ := List.mem_filter.1 ha
  rw [haddress, htype]
  refine ⟨hmem, ?_, hf _ a t n p hfetch⟩
  cases hsome : (h.stopped c x).getPool a with
  | none => rfl
  | some q =>
    have hsome := (isSome_getPool_stopped hsame a).1 (by rw [hsome, Option.isSome_some])
    rw [Option.isNone_iff_eq_none.1 hnone] at hsome
    cases hsome

/-- After a catch-up that keeps the pools' addresses, and a registration, all are there. -/
theorem isSome_getPool_added (hsame : (h.stopped c x).getAllAddresses = h.registry.getAllAddresses)
    {ps qs : List (Traced π)} {r : PoolRegistry (Traced π)} {b : Nat}
    (hps : h.fetched c x newAddresses blockNumber = .ok ps)
    (haddresses : ∀ a, (∃ q ∈ qs, PoolInterface.address q = a) ↔ ∃ p ∈ ps, PoolInterface.address p = a)
    (hr : ∀ a, (r.getPool a).isSome ↔ ((h.stopped c x).getPool a).isSome) (a : Address) :
    (((r.registerPoolsAndTopics qs).setLastProcessedBlock b).getPool a).isSome ↔
      (h.registry.getPool a).isSome ∨ a ∈ newAddresses := by
  rw [PoolRegistry.isSome_getPool_registered, hr, isSome_getPool_stopped hsame, haddresses]
  constructor
  · rintro (hold | ⟨p, hp, rfl⟩)
    · exact .inl hold
    · obtain ⟨a, ha, t, n, hfetch⟩ := FetchAnswers.of_fetchPoolsInMemory hps p hp
      rw [((x.answersAt _).fetched a t n p hfetch).1]
      exact .inr (List.mem_filter.1 ha).1
  · rintro (hold | hnew)
    · exact .inl hold
    · cases hsome : h.registry.getPool a with
      | some p => exact .inl rfl
      | none =>
        exact .inr (FetchAnswers.fetchPoolsInMemory_all hps a (List.mem_filter.2 ⟨hnew, by rw [hsome]; rfl⟩))

theorem isSome_ledger {r : PoolRegistry (Traced π)} {a : Address} : (r.ledger a).isSome ↔ (r.getPool a).isSome := by
  unfold PoolRegistry.ledger
  rw [Option.isSome_map]

/-- What every filter has to satisfy, the listeners' common one has to. -/
theorem newFilters_ws {P : List Topic → Prop} {feed : WsFeed} (hws : h.useWebsocket = true)
    (hfeeds : h'.wsListeners = h.wsUrls.map fun _ => feed) :
    (∀ topics ∈ h.newFilters c x blockNumber h', P topics) ↔ (h.AsksEarly c x blockNumber → P feed.topics) := by
  unfold newFilters AsksEarly
  rw [if_pos hws, if_pos hws, hfeeds]
  constructor
  · intro hall hne
    obtain ⟨url, hurl⟩ := List.exists_mem_of_ne_nil _ hne
    exact hall _ (List.mem_map_of_mem (List.mem_map.2 ⟨url, hurl, rfl⟩))
  · intro hfeed topics htopics
    obtain ⟨f, hmem, rfl⟩ := List.mem_map.1 htopics
    obtain ⟨url, hurl, rfl⟩ := List.mem_map.1 hmem
    exact hfeed (List.ne_nil_of_mem hurl)

theorem newFilters_http {P : List Topic → Prop} (hws : ¬h.useWebsocket = true) :
    (∀ topics ∈ h.newFilters c x blockNumber h', P topics) ↔
      (h.AsksEarly c x blockNumber → P (h.stopped c x).topics) := by
  unfold newFilters AsksEarly
  rw [if_neg hws, if_neg hws]
  by_cases hlt : h.fetchBlock c x blockNumber < (h.stopped c x).lastProcessedBlock
  · simp [hlt]
  · simp [hlt]

/-- The end of both modes: what is registered stands at the later of the fetch block and the old cursor. -/
theorem addsExactly_iff (hr : (h.stopped c x).Coherent c)
    (hsame : (h.stopped c x).getAllAddresses = h.registry.getAllAddresses)
    (hf : ∀ b a t n p, (x.answersAt b).fetch a t n = .ok p → p.given = c.ownThrough a t b)
    {r : PoolRegistry (Traced π)} {ps qs : List (Traced π)}
    (hcaught : catchUpRegistered c x.env (h.fetchBlock c x blockNumber) (h.stopped c x) = (r, .ok ()))
    (hps : h.fetched c x newAddresses blockNumber = .ok ps)
    (haddresses : ∀ a, (∃ q ∈ qs, PoolInterface.address q = a) ↔ ∃ p ∈ ps, PoolInterface.address p = a)
    (hregistry : h'.registry = (r.registerPoolsAndTopics qs).setLastProcessedBlock
      (max (h.fetchBlock c x blockNumber) (h.stopped c x).lastProcessedBlock))
    (hasked : (∀ topics ∈ h.newFilters c x blockNumber h', AsksFor topics ps) ↔
      (h.AsksEarly c x blockNumber → AsksFor (h.stopped c x).topics ps))
    (hqs : (h.AsksEarly c x blockNumber → AsksFor (h.stopped c x).topics ps) →
      ∀ q ∈ qs, q.given = c.ownThrough (PoolInterface.address q) (PoolInterface.poolType q)
        (max (h.fetchBlock c x blockNumber) (h.stopped c x).lastProcessedBlock)) :
    h.AddsExactly c x newAddresses blockNumber h' ↔ h.TopicsSuffice c x newAddresses blockNumber := by
  have hstands := standsAt_catchUpRegistered hr hcaught
  obtain ⟨-, hledger⟩ := catchUpRegistered_ok hcaught
  have hold : ∀ a, (r.getPool a).isSome ↔ ((h.stopped c x).getPool a).isSome := fun a => by
    rw [← isSome_ledger, ← isSome_ledger, hledger, Option.isSome_map]
  have hnew : ∀ q ∈ qs, r.getPool (PoolInterface.address q) = none := by
    intro q hq
    obtain ⟨p, hp, hpq⟩ := (haddresses _).1 ⟨q, hq, rfl⟩
    rw [← Option.not_isSome_iff_eq_none, hold, Option.not_isSome_iff_eq_none, ← hpq]
    exact (of_fetched hsame hf hps hp).2.1
  constructor
  · intro hexact
    have hcoherent := hexact.exact
    rw [hregistry] at hcoherent
    refine ⟨hstands.1 (hcoherent.standsAt_of_registered hnew), fun hearly ps' hps' => ?_⟩
    cases hps.symm.trans hps'
    exact hasked.1 (hexact.asked ps hps) hearly
  · intro hsuffice
    have hknown : h.AsksEarly c x blockNumber → AsksFor (h.stopped c x).topics ps :=
      fun hearly => hsuffice.new hearly ps hps
    refine ⟨?_, ?_, fun ps' hps' => ?_⟩
    · rw [hregistry]
      exact isSome_getPool_added hsame hps haddresses hold
    · rw [hregistry]
      exact (hstands.2 hsuffice.old).registered (hqs hknown)
    · cases hps.symm.trans hps'
      exact hasked.2 hknown

theorem addPoolsWs_exact (hr : (h.stopped c x).Coherent c)
    (hsame : (h.stopped c x).getAllAddresses = h.registry.getAllAddresses)
    (hf : ∀ b a t n p, (x.answersAt b).fetch a t n = .ok p → p.given = c.ownThrough a t b)
    (hws : h.useWebsocket = true)
    (hok : h.addPoolsWs c x (h.unregistered newAddresses) blockNumber = (h', .ok ())) :
    h.AddsExactly c x newAddresses blockNumber h' ↔ h.TopicsSuffice c x newAddresses blockNumber := by
  have hblock : h.fetchBlock c x blockNumber = max blockNumber (h.stopped c x).lastProcessedBlock := by
    unfold fetchBlock
    rw [if_pos hws]
  have hmax : max (h.fetchBlock c x blockNumber) (h.stopped c x).lastProcessedBlock = h.fetchBlock c x blockNumber := by
    rw [hblock]
    exact max_eq_left (le_max_right ..)
  unfold addPoolsWs at hok
  split at hok
  · cases hok
  · next h1 hstop =>
    have hstopped : h1 = { h with toRunning := ⟨h.stopped c x, none⟩, wsListeners := [] } := stopUpdater_ok hstop
    subst hstopped
    dsimp only at hok
    rw [← hblock] at hok
    split at hok
    · cases hok
    · next r hcaught =>
      split at hok
      · cases hok
      · next ps hps =>
        have hh' : _ = h' := congrArg Prod.fst hok
        have hfeeds : h'.wsListeners = h.wsUrls.map fun _ =>
            ⟨r.getAllAddresses ++ (h.unregistered newAddresses).filter fun a => a ∉ r.getAllAddresses, r.topics⟩ := by
          rw [← hh']
          rfl
        refine addsExactly_iff hr hsame hf hcaught hps (fun _ => Iff.rfl) ?_ ?_ fun _ p hp => ?_
        · rw [← hh', hmax]
          exact spawnUpdater_registry _ _ rfl
        · rw [newFilters_ws hws hfeeds, (catchUpRegistered_ok hcaught).1]
        · rw [hmax]
          exact (of_fetched hsame hf hps hp).2.2

theorem addPoolsHttp_exact [StableAddress π] (hr : (h.stopped c x).Coherent c)
    (hsame : (h.stopped c x).getAllAddresses = h.registry.getAllAddresses)
    (hf : ∀ b a t n p, (x.answersAt b).fetch a t n = .ok p → p.given = c.ownThrough a t b)
    (hws : ¬h.useWebsocket = true)
    (hok : h.addPoolsHttp c x (h.unregistered newAddresses) blockNumber = (h', .ok ())) :
    h.AddsExactly c x newAddresses blockNumber h' ↔ h.TopicsSuffice c x newAddresses blockNumber := by
  have hblock : h.fetchBlock c x blockNumber = max blockNumber h.registry.lastProcessedBlock := by
    unfold fetchBlock
    rw [if_neg hws]
  unfold addPoolsHttp at hok
  dsimp only at hok
  rw [← hblock] at hok
  split at hok
  · cases hok
  · next ps hps =>
    split at hok
    · cases hok
    · next h1 hstop =>
      have hstopped : h1 = { h with toRunning := ⟨h.stopped c x, none⟩ } := stopUpdater_ok hstop
      subst hstopped
      dsimp only at hok
      split at hok
      · cases hok
      · next r hcaught =>
        have hgiven : ∀ p ∈ ps, p.given =
            c.ownThrough (PoolInterface.address p) (PoolInterface.poolType p) (h.fetchBlock c x blockNumber) :=
          fun p hp => (of_fetched hsame hf hps hp).2.2
        split at hok
        · cases hok
        · next qs hqs =>
          have hregistry : h'.registry = (r.registerPoolsAndTopics qs).setLastProcessedBlock
              (max (h.fetchBlock c x blockNumber) (h.stopped c x).lastProcessedBlock) := by
            have hh' : _ = h' := congrArg Prod.fst hok
            rw [← hh']
            exact spawnUpdater_registry _ _ rfl
          split at hqs
          · next hlt =>
            -- the new pools are caught up, by the topics registered so far
            have hearly : h.AsksEarly c x blockNumber := by
              unfold AsksEarly
              rw [if_neg hws]
              exact (lt_max_iff.1 hlt).resolve_left (lt_irrefl _)
            obtain ⟨haddresses, hexact⟩ := applyCatchupEventsInMemory_ok hlt.le hgiven hqs
            rw [(catchUpRegistered_ok hcaught).1] at hexact
            refine addsExactly_iff hr hsame hf hcaught hps (fun a => ?_) hregistry (newFilters_http hws) fun hknown =>
              hexact (hknown hearly)
            rw [← List.mem_map, haddresses, List.mem_map]
          · next hle =>
            cases hqs
            refine addsExactly_iff hr hsame hf hcaught hps (fun _ => Iff.rfl) hregistry (newFilters_http hws) fun _ p hp => ?_
            rw [hgiven p hp, max_eq_left]
            exact (le_max_right ..).trans (Nat.not_lt.1 hle)

/-- A call with nothing new to add leaves everything as it is. -/
theorem addsExactly_of_nil (hr : h.registry.Coherent c) (hnil : h.unregistered newAddresses = []) :
    h.AddsExactly c x newAddresses blockNumber h := by
  refine ⟨fun a => ⟨.inl, ?_⟩, hr, fun ps hps topics _ p hp => ?_⟩
  · rintro (hold | hnew)
    · exact hold
    · by_contra hnone
      have hmem : a ∈ h.unregistered newAddresses := List.mem_filter.2 ⟨hnew, by simpa using hnone⟩
      rw [hnil] at hmem
      cases hmem
  · obtain ⟨a, ha, -⟩ := FetchAnswers.of_fetchPoolsInMemory hps p hp
    rw [hnil] at ha
    cases ha

/-- **Nothing is lost and nothing doubled exactly when the topics were there before**: where the updater has
stopped clean, a call that returns `Ok` registers all pools with exactly their logs if and only if it adds
nothing or the topics registered when it begins are those it needs. -/
theorem addPools_exact [StableAddress π] (c : Chain) (x : Addition (Traced π)) (h h' : CollectorHandle (Traced π))
    (newAddresses : List Address) (blockNumber : Nat)
    (hrun : h.toRunning.Collects c) (hstop : h.StopsClean c x newAddresses)
    (hf : ∀ b a t n p, (x.answersAt b).fetch a t n = .ok p → p.given = c.ownThrough a t b)
    (hok : h.addPools c x newAddresses blockNumber = (h', .ok ())) :
    h.AddsExactly c x newAddresses blockNumber h' ↔
      h.unregistered newAddresses = [] ∨ h.TopicsSuffice c x newAddresses blockNumber := by
  obtain ⟨hr, hsame⟩ := hrun.coherent_run hstop.1 hstop.2
  unfold addPools at hok
  split at hok
  · next hnil =>
    cases hok
    rw [if_pos hnil] at hr
    exact ⟨fun _ => .inl hnil, fun _ => addsExactly_of_nil hr hnil⟩
  · next hne =>
    rw [if_neg hne] at hr hsame
    rw [or_iff_right hne]
    split at hok
    · next hws => exact addPoolsWs_exact hr hsame hf hws hok
    · next hws => exact addPoolsHttp_exact hr hsame hf hws hok

/-- The last thing a call does that adds pools. -/
theorem addPools_spawns (hne : h.unregistered newAddresses ≠ []) (hok : h.addPools c x newAddresses blockNumber = (h', .ok ())) :
    ∃ (h₀ : CollectorHandle (Traced π)) (mode : UpdaterMode) (b : Nat), h' = h₀.spawnUpdater c mode b := by
  unfold addPools at hok
  rw [if_neg hne] at hok
  split at hok
  · unfold addPoolsWs at hok
    split at hok
    · cases hok
    · dsimp only at hok
      split at hok
      · cases hok
      · split at hok
        · cases hok
        · exact ⟨_, _, _, (congrArg Prod.fst hok).symm⟩
  · unfold addPoolsHttp at hok
    dsimp only at hok
    split at hok
    · cases hok
    · split at hok
      · cases hok
      · split at hok
        · cases hok
        · split at hok
          · cases hok
          · exact ⟨_, _, _, (congrArg Prod.fst hok).symm⟩

/-- A new updater over pools that are exact. -/
theorem collects_spawnUpdater (h : CollectorHandle (Traced π)) (mode : UpdaterMode) (b : Nat)
    (hexact : (h.spawnUpdater c mode b).registry.Coherent c) (hsubscribed : (h.spawnUpdater c mode b).registry.Subscribed) :
    (h.spawnUpdater c mode b).toRunning.Collects c := by
  refine .spawned ⟨hexact, fun _ _ _ => hsubscribed, fun u hu => ?_⟩
  cases hu
  exact ⟨h.registry, h.swapEventTx, b, h.maxBlocksPerBatch, mode, rfl⟩

/-- After a call that has lost nothing more pools can be added. -/
theorem AddsExactly.collects (hexact : h.AddsExactly c x newAddresses blockNumber h') (hsubscribed : h'.registry.Subscribed)
    (hne : h.unregistered newAddresses ≠ []) (hok : h.addPools c x newAddresses blockNumber = (h', .ok ())) :
    h'.toRunning.Collects c := by
  obtain ⟨h₀, mode, b, rfl⟩ := addPools_spawns hne hok
  exact collects_spawnUpdater h₀ mode b hexact.exact hsubscribed

end CollectorHandle

end

/-! ## A pair beside a pair, and beside a vault -/

/-- Pairs as they stand at block `b`. -/
def pairsAt (c : Chain) (b : Nat) : FetchAnswers (Traced Pool) where
  identify _ _ := .ok .UniswapV2
  fetch a t _ := if t = .UniswapV2 then .ok ⟨.v2 (.emptyPair a), c.ownThrough a .UniswapV2 b⟩ else .error "no answer"
  fetched := by
    intro a t n p hp
    split at hp
    · next ht =>
      cases hp
      exact ⟨rfl, ht.symm⟩
    · cases hp

theorem given_pairsAt {c : Chain} {b : Nat} {a : Address} {t : PoolType} {n : Nat} {p : Traced Pool}
    (h : (pairsAt c b).fetch a t n = .ok p) : p.given = c.ownThrough a t b := by
  unfold pairsAt at h
  dsimp only at h
  split at h
  · next ht =>
    cases h
    rw [ht]
  · cases h

/-- A call that adds pairs while the updater takes `turns`. -/
def adding (c : Chain) (turns : List Turn) : Addition (Traced Pool) where
  env := stillEnv
  answersAt := pairsAt c
  config := ⟨10, 0⟩
  parallelFetch := true
  turns

/-- One pool at block 100, polled over HTTP. -/
def polling (c : Chain) (p : Traced Pool) : CollectorHandle (Traced Pool) :=
  ({ registry := (PoolRegistry.empty.registerPoolsAndTopics [p]).setLastProcessedBlock 100
     updater := none
     useWebsocket := false
     usePendingBlocks := false
     maxBlocksPerBatch := 100
     blockSettle := 20
     swapEventTx := false
     wsUrls := []
     wsListeners := [] } : CollectorHandle (Traced Pool)).spawnUpdater c .LatestBlock 100

/-- The same over websocket, with one listener. -/
def listening (c : Chain) (p : Traced Pool) : CollectorHandle (Traced Pool) :=
  let h := polling c p
  let listeners : List WsFeed := [⟨h.registry.getAllAddresses, h.registry.topics⟩]
  { h with useWebsocket := true, wsUrls := ["wss"], wsListeners := listeners }.spawnUpdater c (.Websocket listeners 20 true) 100

/-- The updater comes to block 200. -/
def to200 : List Turn := [.poll stillEnv 200 []]

/-- The updater bootstraps at block 100, with an empty queue. -/
def booted : List Turn := [.bootDrain 100, .bootTakeGaps, .bootDone].map fun a => .feed (.turn stillEnv a)

section
variable {p : Traced Pool} {r : PoolRegistry (Traced Pool)}

theorem getPool_registered {a : Address} {q : Traced Pool}
    (hq : ((PoolRegistry.empty.registerPoolsAndTopics [p]).setLastProcessedBlock 100).getPool a = some q) :
    q = p ∧ a = PoolInterface.address p := by
  rw [PoolRegistry.getPool_registered] at hq
  by_cases ha : PoolInterface.address p = a
  · rw [List.filter_cons_of_pos (by simpa using ha)] at hq
    exact ⟨(Option.some.inj hq).symm, ha.symm⟩
  · rw [List.filter_cons_of_neg (by simpa using ha)] at hq
    cases hq

/-- The one log is of pool 1. -/
theorem coherent_oneSync (hp : PoolInterface.address p ≠ 1) (hg : p.given = [])
    (hr : ∀ a q, r.getPool a = some q → q = p ∧ a = PoolInterface.address p) : r.Coherent oneSync := by
  intro a q hq
  obtain ⟨rfl, rfl⟩ := hr a q hq
  rw [hg]
  symm
  unfold Chain.ownThrough Chain.ownWhere
  rw [List.map_eq_nil_iff, List.filter_eq_nil_iff]
  intro l hl hc
  rw [List.mem_singleton.1 hl] at hc
  exact hp (of_decide_eq_true (of_decide_eq_true hc).1).1.symm

theorem not_misses_oneSync {a : Address} (ha : a ≠ 1) (t : PoolType) (topics : List Topic) (b b' : Nat) :
    ¬oneSync.Misses a t topics b b' := by
  rintro ⟨l, hl, ho, -⟩
  rw [List.mem_singleton.1 hl] at ho
  exact ha (of_decide_eq_true ho).1.symm

theorem not_concerned_oneSync (hr : r.getPool 1 = none) : ∀ l ∈ oneSync.logs, ¬r.Concerned l := by
  rintro l hl ⟨p, hp, -⟩
  rw [List.mem_singleton.1 hl] at hp
  cases hr.symm.trans hp

theorem collects_polling (hp : PoolInterface.address p ≠ 1) (hg : p.given = []) :
    (polling oneSync p).toRunning.Collects oneSync :=
  CollectorHandle.collects_spawnUpdater _ _ _ (coherent_oneSync hp hg fun _ _ hq => getPool_registered hq)
    (PoolRegistry.subscribed_empty.register _)

theorem collects_listening (hp : PoolInterface.address p ≠ 1) (hg : p.given = []) :
    (listening oneSync p).toRunning.Collects oneSync :=
  CollectorHandle.collects_spawnUpdater _ _ _ (coherent_oneSync hp hg fun _ _ hq => getPool_registered hq)
    (PoolRegistry.subscribed_empty.register _)

/-- The turn to block 200 asks for all there is. -/
theorem stopsClean_polling (hp : PoolInterface.address p ≠ 1)
    (hruns : (((polling oneSync p).toRunning.turn oneSync (.poll stillEnv 200 [])).updater).isSome) {newAddresses : List Address}
    (hne : (polling oneSync p).unregistered newAddresses ≠ []) :
    (polling oneSync p).StopsClean oneSync (adding oneSync to200) newAddresses := by
  unfold CollectorHandle.StopsClean
  rw [if_neg hne]
  refine ⟨fun k t ht => ?_, Running.Polls.rests_run (fun pipeline proc hw => by cases hw) _ _⟩
  match k with
  | 0 =>
    cases ht
    refine ⟨fun hnone => ?_, fun range rest _ a q hq => ?_⟩
    · rw [runTo_zero] at hnone
      rw [hnone] at hruns
      cases hruns
    · obtain ⟨rfl, rfl⟩ := getPool_registered hq
      exact not_misses_oneSync hp _ _ _ _
  | k + 1 => cases ht

end

/-- Bootstrap finds nothing that is of pair 2. -/
theorem stopsClean_listening :
    (listening oneSync ⟨.v2 (.emptyPair 2), []⟩).StopsClean oneSync (adding oneSync booted) [1] := by
  have hnone : ∀ k < 4, (runTo (Running.turn oneSync) (listening oneSync ⟨.v2 (.emptyPair 2), []⟩).toRunning booted
      k).registry.getPool 1 = none := by decide +kernel
  have hruns : ∀ k < 4, (runTo (Running.turn oneSync) (listening oneSync ⟨.v2 (.emptyPair 2), []⟩).toRunning booted
      k).updater.isSome := by decide +kernel
  unfold CollectorHandle.StopsClean
  rw [if_neg (by decide +kernel)]
  refine ⟨fun k t ht => ⟨fun hpanics => ?_, ?_⟩, rfl, fun l hl hc => ?_⟩
  · have ht : booted[k]? = some t := ht
    obtain ⟨hk, -⟩ := List.getElem?_eq_some_iff.1 ht
    have hsome := hruns (k + 1) (Nat.succ_lt_succ hk)
    rw [runTo_succ ht, show ((runTo (Running.turn oneSync) _ booted k).turn oneSync t).updater = none from hpanics] at hsome
    cases hsome
  · match k with
    | 0 =>
      cases ht
      exact ⟨show 100 < 2 ^ 64 by decide, fun _ => ⟨by decide, by decide +kernel,
        fun l hl hc => absurd hc (not_concerned_oneSync (hnone 0 (by decide)) l hl)⟩, trivial⟩
    | 1 =>
      cases ht
      exact ⟨trivial, trivial, trivial⟩
    | 2 =>
      cases ht
      refine ⟨trivial, trivial, fun drained events filled hst _ => ?_⟩
      obtain ⟨-, rfl, -⟩ := Stage.bootFilling.inj hst
      exact ⟨List.nodup_nil, fun _ => .nil⟩
    | k + 3 => cases ht
  · exact absurd hc (not_concerned_oneSync (hnone 3 (by decide)) l hl)

/-- Pair 1, fetched at block 100, is given its sync in block 150 when a pair is registered already; and over websocket it is
registered where bootstrap has come to. -/
theorem CollectorHandle.addPools_exact_pair :
    (polling oneSync ⟨.v2 (.emptyPair 2), []⟩).AddsExactly oneSync (adding oneSync to200) [1] 100
        ((polling oneSync ⟨.v2 (.emptyPair 2), []⟩).addPools oneSync (adding oneSync to200) [1] 100).1 ∧
      (listening oneSync ⟨.v2 (.emptyPair 2), []⟩).AddsExactly oneSync (adding oneSync booted) [1] 100
        ((listening oneSync ⟨.v2 (.emptyPair 2), []⟩).addPools oneSync (adding oneSync booted) [1] 100).1 := by
  constructor
  · refine (addPools_exact oneSync _ _ _ _ _ (collects_polling (by decide) rfl)
      (stopsClean_polling (by decide) (by decide +kernel) (by decide +kernel)) (fun _ _ _ _ _ => given_pairsAt)
      (Prod.ext rfl (by decide +kernel))).2 (.inr ⟨?_, ?_⟩)
    · rintro a p - ⟨l, -, -, hlt, hle, -⟩
      exact absurd (hlt.trans_le hle) (by decide +kernel)
    · intro _ ps hps
      have hps' : (polling oneSync ⟨.v2 (.emptyPair 2), []⟩).fetched oneSync (adding oneSync to200) [1] 100 =
          .ok [⟨.v2 (.emptyPair 1), oneSync.ownThrough 1 .UniswapV2 100⟩] := by decide +kernel
      cases hps.symm.trans hps'
      intro p hp
      rw [List.mem_singleton.1 hp]
      decide +kernel
  · refine (addPools_exact oneSync _ _ _ _ _ (collects_listening (by decide) rfl) stopsClean_listening
      (fun _ _ _ _ _ => given_pairsAt) (Prod.ext rfl (by decide +kernel))).2 (.inr ⟨?_, ?_⟩)
    · rintro a p - ⟨l, -, -, hlt, hle, -⟩
      exact absurd (hlt.trans_le hle) (by decide +kernel)
    · intro _ ps hps
      have hps' : (listening oneSync ⟨.v2 (.emptyPair 2), []⟩).fetched oneSync (adding oneSync booted) [1] 100 =
          .ok [⟨.v2 (.emptyPair 1), oneSync.ownThrough 1 .UniswapV2 100⟩] := by decide +kernel
      cases hps.symm.trans hps'
      intro p hp
      rw [List.mem_singleton.1 hp]
      decide +kernel

/-- The same pair, where only a vault's topics are registered: the query that catches it up from block 100 to
200 asks for those, and the pair is registered at block 200 without its sync in block 150. -/
theorem CollectorHandle.addPools_exact_fails :
    ¬ ∀ (c : Chain) (x : Addition (Traced Pool)) (h h' : CollectorHandle (Traced Pool)) (newAddresses : List Address)
      (blockNumber : Nat), h.toRunning.Collects c → h.StopsClean c x newAddresses →
      (∀ b a t n p, (x.answersAt b).fetch a t n = .ok p → p.given = c.ownThrough a t b) →
      h.addPools c x newAddresses blockNumber = (h', .ok ()) → h.AddsExactly c x newAddresses blockNumber h' := by
  intro h
  have hexact := h oneSync (adding oneSync to200) (polling oneSync ⟨.verioIP ⟨⟨3, 4, 5, 100, 100, 0, 0⟩⟩, []⟩) _ [1] 100
    (collects_polling (by decide) rfl) (stopsClean_polling (by decide) (by decide +kernel) (by decide +kernel))
    (fun _ _ _ _ _ => given_pairsAt) (Prod.ext rfl (by decide +kernel))
  have hpair := hexact.exact 1 ⟨.v2 (.emptyPair 1), []⟩ (by decide +kernel)
  revert hpair
  decide +kernel

end EvmDexPool
