import EvmDexPool.Collector.SessionPools

/-!
# The running updater and its stop (`collector/unified_pool_updater.rs:51-250`, `collector/handle.rs:440-482`)

| here | there |
| --- | --- |
| `Updater`       | `UnifiedPoolUpdater`, by its `source` |
| `Updater.new`   | `UnifiedPoolUpdater::new` |
| `Running.turn`  | a turn of the loop in `start`; over websocket a step of the source or of a listener |
| `Running.stop`  | `stop_updater` |

The pools are exact while the turns meet `Meets`: a query misses no log of a registered pool for its topic, and what a websocket
source takes and hands on is past the cursor, in the order of the chain and each log once. Over websocket the cursor is ahead of
the pools while a log of a block it covers is still to be handed on, so there they are exact when the updater is at rest (`Rests`).
-/

namespace EvmDexPool

open Std Replay

/-! ## The updater, whichever its source -/

inductive Updater
  | latestBlock (u : UnifiedPoolUpdater)
  | pendingBlock (source : PendingBlockSource) (eventProcessor : EventProcessor)
  | websocket (pipeline : Pipeline) (eventProcessor : EventProcessor)

/-- What a `WebsocketListener` subscribes to. -/
structure WsFeed where
  addresses : List Address
  topics : List Topic

/-- `UpdaterMode` (unified_pool_updater.rs:20); with the event queue come the listeners that fill it. -/
inductive UpdaterMode
  | PendingBlock
  | LatestBlock
  | Websocket (listeners : List WsFeed) (blockSettle : Nat) (fillReconnectGaps : Bool)

/-- The registry and the updater's task, if there is one. -/
structure Running (π : Type) where
  registry : PoolRegistry π
  updater : Option Updater

/-- A turn of an updater that polls, with the header and the pending block's logs it reads; or a step of a websocket source, or
of a listener. -/
inductive Turn
  | poll (env : Env) (latest : Nat) (pending : List Log)
  | feed (e : Session.Event)

/-- What the first listener's feed carries; the other listeners' logs arrive as they like. -/
def wire (c : Chain) : List WsFeed → List Log
  | [] => []
  | feed :: _ => c.relevant feed.addresses feed.topics

section
variable {π : Type} [PoolInterface π] (c : Chain)

/-- `UnifiedPoolUpdater::new` (unified_pool_updater.rs:51). -/
def Updater.new (r : PoolRegistry π) (swapEventTx : Bool) (startBlock maxBlocksPerBatch : Nat) (mode : UpdaterMode) :
    PoolRegistry π × Updater :=
  let new := UnifiedPoolUpdater.new r swapEventTx startBlock maxBlocksPerBatch
  (new.1, match mode with
    | .PendingBlock => .pendingBlock ⟨r.topics, maxBlocksPerBatch, .PollBlockNumber⟩ new.2.eventProcessor
    | .LatestBlock => .latestBlock new.2
    | .Websocket listeners blockSettle fillReconnectGaps =>
      .websocket
        { Pipeline.init c [] r.topics 1000 maxBlocksPerBatch blockSettle with
          ahead := wire c listeners
          source := .new r.topics maxBlocksPerBatch blockSettle fillReconnectGaps }
        new.2.eventProcessor)

namespace PendingBlockSource

/-- The batch of what a turn fetches (block_source.rs:217-302). -/
def fetchBatch (source : PendingBlockSource) (env : Env) (pending : List Log) (r : PoolRegistry π) : Fetch → EventBatch
  | .confirmed fromBlock toBlock =>
    { events := r.enrichIfLbPoolsPresent env.times (c.getLogs r.getAllAddresses source.topics fromBlock toBlock)
      processingMode := .ApplyOnly
      processedThroughBlock := some toBlock }
  | .pending =>
    { events := r.enrichIfLbPoolsPresent env.times (pending.filter (matchesFilter r.getAllAddresses source.topics))
      processingMode := .Pending
      processedThroughBlock := none }

/-- One turn of the loop, of an updater with this source. -/
def batch (source : PendingBlockSource) (env : Env) (latest : Nat) (pending : List Log) (proc : EventProcessor)
    (r : PoolRegistry π) : PoolRegistry π × Option PendingBlockSource :=
  match source.nextBatch r.lastProcessedBlock latest r.getAllAddresses with
  | .error _ => (r, none)
  | .ok (source, none) => (r, some source)
  | .ok (source, some fetch) =>
    match UnifiedPoolUpdater.process proc env (source.fetchBatch c env pending r fetch) r with
    | (r, .error _) => (r, none)
    | (r, .ok ()) => (r, some source)

end PendingBlockSource

namespace Running

/-- The session of a websocket updater that runs. -/
def session (r : PoolRegistry π) (pipeline : Pipeline) (proc : EventProcessor) : Session π := ⟨r, pipeline, proc, .running⟩

/-- A turn that panics ends the task. -/
def turn (s : Running π) : Turn → Running π
  | .poll env latest pending =>
    match s.updater with
    | some (.latestBlock u) =>
      let out := u.batch c env latest s.registry
      ⟨out.1, out.2.map .latestBlock⟩
    | some (.pendingBlock source proc) =>
      let out := source.batch c env latest pending proc s.registry
      ⟨out.1, out.2.map (.pendingBlock · proc)⟩
    | _ => s
  | .feed e =>
    match s.updater with
    | some (.websocket pipeline proc) =>
      let out := (session s.registry pipeline proc).react c e
      ⟨out.registry, match out.phase with
        | .running => some (.websocket out.pipeline proc)
        | _ => none⟩
    | _ => s

/-- `stop_updater` (handle.rs:445): the signal is taken in the loop, so a bootstrap that goes on is waited for. -/
def stop (s : Running π) : Except Fault (Running π) :=
  match s.updater with
  | some (.websocket pipeline _) => if pipeline.stage.boots then .error .diverges else .ok { s with updater := none }
  | _ => .ok { s with updater := none }

end Running

end

/-! ## What the turns have to meet -/

/-- A query for `topics` over the blocks after `b`, up to `b'`, misses a log of the pool. -/
def Chain.Misses (c : Chain) (a : Address) (t : PoolType) (topics : List Topic) (b b' : Nat) : Prop :=
  ∃ l ∈ c.logs, l.ownedBy a t ∧ b < l.block ∧ l.block ≤ b' ∧ ¬(topics = [] ∨ ∃ x ∈ topics, l.topic0 = some x)

/-- What goes on is there once, and bootstrap's buffered logs of a pool are in the order of the chain unless it puts them in order. -/
def Pipeline.Distinct (s : Pipeline) : Pipeline.Action → Prop
  | .bootDone => ∀ drained events filled, s.stage = .bootFilling drained events filled → s.taken = [] → events.Nodup ∧
      (filled = false → events.Pairwise fun x y => x.address = y.address → x.place < y.place)
  | .handOn => ∀ x, s.stage = .settled x → x.logs.Nodup
  | _ => True

section
variable {π : Type} [PoolInterface π] (c : Chain)

/-- What arrives is of the chain, and what the source takes and hands on is past the cursor, in order, and there once. -/
def Session.Steady (s : Session (Traced π)) (e : Session.Event) : Prop :=
  Session.Possible c e ∧ match e with
    | .turn env a => s.Orderly c (.turn env a) ∧ s.pipeline.Distinct a
    | _ => True

namespace Running

/-- No query up to `block` misses a log of a registered pool. -/
def Asks (r : PoolRegistry (Traced π)) (topics : List Topic) (block : Nat) : Prop :=
  ∀ a p, r.getPool a = some p → ¬c.Misses a (PoolInterface.poolType p) topics r.lastProcessedBlock block

/-- Nothing panics, the range an updater fetches next is asked for with the topics it takes, and a websocket source is steady. -/
def Meets (s : Running (Traced π)) (t : Turn) : Prop :=
  ((s.turn c t).updater = none → s.updater = none) ∧ match s.updater, t with
    | some (.latestBlock u), .poll _ latest _ => ∀ range rest,
        u.source.planned s.registry.lastProcessedBlock latest = .ok (range :: rest) → Asks c s.registry u.source.topics range.2.1
    | some (.pendingBlock source _), .poll _ latest _ => ∀ source' fromBlock toBlock,
        source.nextBatch s.registry.lastProcessedBlock latest s.registry.getAllAddresses =
          .ok (source', some (.confirmed fromBlock toBlock)) → Asks c s.registry source.topics toBlock
    | some (.websocket pipeline proc), .feed e => (session s.registry pipeline proc).Steady c e
    | _, _ => True

/-- Over websocket: in the loop of `next_batch`, and no log of a registered pool in a block the cursor covers is still to be
handed on, be it to come from a feed, lost, queued, in a gap or with the settler. -/
def Rests (s : Running (Traced π)) : Prop :=
  match s.updater with
  | some (.websocket pipeline _) => pipeline.stage.boots = false ∧
      ∀ l ∈ c.logs, s.registry.Concerned l → l.block ≤ s.registry.lastProcessedBlock → pipeline.applied l
  | _ => True

/-- A new updater, if any, over pools that are exact at the block it starts at; a websocket one is over pools whose topics are
registered. -/
structure Spawned (s : Running (Traced π)) : Prop where
  exact : s.registry.Coherent c
  subscribed : ∀ pipeline proc, s.updater = some (.websocket pipeline proc) → s.registry.Subscribed
  started : ∀ u, s.updater = some u → ∃ r swapEventTx startBlock maxBlocksPerBatch mode,
    Updater.new c r swapEventTx startBlock maxBlocksPerBatch mode = (s.registry, u)

/-- What a collector comes to: an updater is spawned, its turns meet their conditions, and pools may be removed. -/
inductive Collects : Running (Traced π) → Prop
  | spawned {s : Running (Traced π)} (h : s.Spawned c) : Collects s
  | turn {s : Running (Traced π)} (h : Collects s) {t : Turn} (hm : s.Meets c t) : Collects (s.turn c t)
  | removed {s : Running (Traced π)} (h : Collects s) (a : Address) : Collects { s with registry := s.registry.removePool a }

end Running

end

/-! ## What queries give -/

/-- A query that asks for all of a type's topics misses none of its logs. -/
theorem Chain.not_misses {c : Chain} {a : Address} {t : PoolType} {topics : List Topic} {b b' : Nat}
    (h : ∀ x ∈ t.topics, x ∈ topics) : ¬c.Misses a t topics b b' := by
  rintro ⟨l, -, ho, -, -, hmiss⟩
  have hconcerns : t.concerns l := (of_decide_eq_true ho).2
  unfold PoolType.concerns at hconcerns
  cases htopic : l.topic0 with
  | none => simp [htopic] at hconcerns
  | some x =>
    rw [htopic] at hconcerns
    exact hmiss (.inr ⟨x, h x (by simpa using hconcerns), htopic⟩)

/-- A pool's logs up to `b` and those a query over the next blocks returns are its logs up to `b'` exactly
when the query misses none. -/
theorem Chain.ownThrough_query (c : Chain) (a : Address) (t : PoolType) (topics : List Topic) {b b' : Nat} (hb : b ≤ b') :
    c.ownThrough a t b ++
      c.ownWhere a t (fun l => (b + 1 ≤ l.block ∧ l.block ≤ b') ∧ (topics = [] ∨ ∃ x ∈ topics, l.topic0 = some x)) =
      c.ownThrough a t b' ↔ ¬c.Misses a t topics b b' := by
  have happend := c.ownThrough_append (a := a) (t := t) (b := b)
    (f := fun l => (b + 1 ≤ l.block ∧ l.block ≤ b') ∧ (topics = [] ∨ ∃ x ∈ topics, l.topic0 = some x))
    (g := fun l => l.block ≤ b ∨ (b < l.block ∧ l.block ≤ b') ∧ (topics = [] ∨ ∃ x ∈ topics, l.topic0 = some x))
    fun l _ _ => by
      simp only [decide_eq_true_eq]
      constructor
      · exact Iff.rfl
      · omega
  rw [happend, Chain.ownThrough, c.ownWhere_eq_iff fun l _ _ => by simp only [decide_eq_true_eq]; omega]
  simp only [decide_eq_true_eq, Chain.Misses]
  constructor
  · rintro h ⟨l, hl, ho, hlt, hle, hmiss⟩
    rcases h l hl ho hle with hb | hb
    · omega
    · exact hmiss hb.2
  · intro h l hl ho hle
    by_cases hlb : l.block ≤ b
    · exact .inl hlb
    · refine .inr ⟨⟨by omega, hle⟩, ?_⟩
      by_contra hmiss
      exact h ⟨l, hl, ho, by omega, hle, hmiss⟩

section
variable {π : Type} [PoolInterface π] {c : Chain} {r r' : PoolRegistry (Traced π)}

namespace PoolRegistry

/-- Every pool has been given exactly its own logs up to `b`. -/
def StandsAt (c : Chain) (r : PoolRegistry (Traced π)) (b : Nat) : Prop :=
  ∀ a e, r.ledger a = some e → e.2 = c.ownThrough a e.1 b

theorem coherent_iff_standsAt : r.Coherent c ↔ r.StandsAt c r.lastProcessedBlock := by
  constructor
  · intro h a e he
    obtain ⟨p, hp, rfl⟩ := Option.map_eq_some_iff.1 he
    exact h a p hp
  · intro h a p hp
    exact h a (PoolInterface.poolType p, p.given) (by unfold ledger; rw [hp, Option.map_some])

/-- The logs of the blocks after the cursor, up to the new one, if the query misses none of a pool's. -/
theorem Coherent.query (h : r.Coherent c) {topics : List Topic} {b : Nat}
    (hgives : r.Gives (c.getLogs r.getAllAddresses topics (r.lastProcessedBlock + 1) b) r') (hcursor : r'.lastProcessedBlock = b)
    (hb : r.lastProcessedBlock ≤ b) (hasks : Running.Asks c r topics b) : r'.Coherent c := by
  rw [coherent_iff_standsAt] at h ⊢
  intro a e he
  rw [hgives.ledger] at he
  obtain ⟨e0, he0, rfl⟩ := Option.map_eq_some_iff.1 he
  obtain ⟨p, hp, hentry⟩ := Option.map_eq_some_iff.1 he0
  have htype : PoolInterface.poolType p = e0.1 := congrArg Prod.fst hentry
  have hmiss := hasks a p hp
  rw [htype] at hmiss
  unfold entered
  dsimp only
  rw [c.owned_getLogs e0.1 _ _ (mem_of_ledger he0), h a e0 he0, hcursor]
  exact (c.ownThrough_query _ _ _ hb).2 hmiss

/-! ## Logs in the order of the chain -/

/-- Every pool has been given its logs in the order of the chain. -/
def InOrder (r : PoolRegistry (Traced π)) : Prop := ∀ a e, r.ledger a = some e → e.2.Pairwise fun x y => x.place < y.place

theorem ownWhere_pairwise (c : Chain) (a : Address) (t : PoolType) (f : Log → Bool) :
    (c.ownWhere a t f).Pairwise fun x y => x.place < y.place := by
  unfold Chain.ownWhere
  rw [List.pairwise_map]
  exact c.sorted.sublist List.filter_sublist

theorem Coherent.holds (h : r.Coherent c) : r.Holds c fun l => l.block ≤ r.lastProcessedBlock := fun a e he =>
  .of_eq (coherent_iff_standsAt.1 h a e he)

theorem Coherent.inOrder (h : r.Coherent c) : r.InOrder := by
  intro a e he
  rw [coherent_iff_standsAt.1 h a e he]
  exact ownWhere_pairwise ..

/-- In the order of the chain there is one list of a pool's logs. -/
theorem InOrder.coherent (h : r.InOrder) (hr : r.Holds c fun l => l.block ≤ r.lastProcessedBlock) : r.Coherent c :=
  coherent_iff_standsAt.2 fun a e he => (hr a e he).eq_of_pairwise
    (fun _ _ _ _ hxy hyx => absurd (hxy.trans hyx) (lt_irrefl _)) (h a e he) (ownWhere_pairwise ..)

/-- Logs given in order, after all a pool has been given. -/
theorem Gives.inOrder {ls : List Log} (h : r.Gives ls r') (hr : r.InOrder) {f : Log → Bool} (hf : r.Holds c f)
    (hls : ∀ a t, (ls.filter (·.ownedBy a t)).Pairwise fun x y => x.place < y.place)
    (hafter : ∀ y ∈ c.logs, f y → ∀ l ∈ ls, y.address = l.address → y.place < l.place) : r'.InOrder := by
  intro a e he
  rw [h.ledger] at he
  obtain ⟨e0, he0, rfl⟩ := Option.map_eq_some_iff.1 he
  unfold entered
  refine List.pairwise_append.2 ⟨hr a e0 he0, List.pairwise_map.2 (hls a e0.1), fun x hx l hl => ?_⟩
  obtain ⟨y, hy, rfl⟩ := List.mem_map.1 ((hf a e0 he0).mem_iff.1 hx)
  obtain ⟨hy, hown⟩ := List.mem_filter.1 hy
  obtain ⟨hown, hfy⟩ := of_decide_eq_true hown
  obtain ⟨m, hm, rfl⟩ := List.mem_map.1 hl
  obtain ⟨hm, hmown⟩ := List.mem_filter.1 hm
  exact hafter y hy hfy m hm ((of_decide_eq_true hown).1.trans (of_decide_eq_true hmown).1.symm)

end PoolRegistry

/-! ## A websocket source -/

namespace Pipeline
variable {addresses : List Address} {s : Pipeline}

/-- Only `take_ready` takes a block from the settler. -/
theorem settled_of_step {a : Action} {x : Settled} (h : (s.step c addresses a).stage = .settled x) :
    s.stage = .settled x ∨ ∃ now st, s.source.settler.takeReady now = (st, some x) := by
  by_cases hfeed : a.ofFeed = true
  · exact .inl ((sameSource_feed hfeed).stage.symm.trans h)
  unfold Pipeline.step at h
  cases a with
  | subscribe | disconnect | miss | overflow | deliver | send => exact absurd rfl hfeed
  | bootDrain latest =>
    unfold Pipeline.bootDrain at h
    dsimp only at h
    split at h
    · cases h
    · exact .inl h
  | bootTakeGaps =>
    unfold Pipeline.bootTakeGaps at h
    dsimp only at h
    split at h
    · cases h
    · exact .inl h
  | bootGap =>
    unfold Pipeline.bootGap at h
    dsimp only at h
    split at h
    · split at h <;> cases h
    · exact .inl h
  | bootDone =>
    unfold Pipeline.bootDone at h
    dsimp only at h
    split at h
    · cases h
    · exact .inl h
  | intake now =>
    unfold Pipeline.intake at h
    dsimp only at h
    split at h
    · cases h
    · exact .inl h
  | takeGaps =>
    unfold Pipeline.takeGaps at h
    dsimp only at h
    split at h
    · cases h
    · exact .inl h
  | fill now =>
    unfold Pipeline.fill at h
    dsimp only at h
    split at h <;> exact .inl h
  | takeReady now =>
    unfold Pipeline.takeReady at h
    dsimp only at h
    split at h
    · rcases hr : s.source.settler.takeReady now with ⟨st, _ | y⟩
      · rw [hr] at h
        cases h
      · rw [hr] at h
        cases h
        exact .inr ⟨now, st, hr⟩
    · exact .inl h
  | handOn =>
    unfold Pipeline.handOn at h
    dsimp only at h
    split at h
    · cases h
    · exact .inl h

theorem spares_none (a : Action) : s.Spares (fun _ => False) 0 c addresses a := by
  have hgap : ∀ g, s.SparesGap (fun _ => False) 0 c addresses g := fun g => ⟨fun _ _ ho => ho.elim, recallsAll_none ..⟩
  cases a with
  | send => exact fun _ _ ho => ho.elim
  | bootDrain latest => exact fun _ _ _ ho => ho.elim
  | bootGap => exact fun _ _ _ _ _ _ _ _ => hgap _
  | bootDone =>
    intro drained events filled _ _
    cases events with
    | nil => exact .inr ⟨rfl, Nat.zero_le _⟩
    | cons l ls => exact .inl ⟨l, List.mem_cons_self, Nat.zero_le _⟩
  | intake now => exact fun _ _ _ _ ho => ho.elim
  | fill now => exact fun _ _ _ _ => hgap _
  | _ => trivial

end Pipeline

/-- What the source has had is the chain's, a block taken from the settler is one block's logs in order, and the pools are in
step with the source and have their logs in order. -/
structure InHand (c : Chain) (r : PoolRegistry (Traced π)) (s : Pipeline) : Prop where
  single : s.Single (fun _ => False) 0 c
  block : ∀ x, s.stage = .settled x → (∀ l ∈ x.logs, l ∈ c.logs ∧ l.block = x.block) ∧
    x.logs.Pairwise fun l m => l.placeInBlock ≤ m.placeInBlock
  inStep : InStep c r s
  inOrder : r.InOrder

namespace InHand
variable {s : Pipeline}

theorem block_step (h : InHand c r s) (addresses : List Address) (a : Pipeline.Action) {x : Settled}
    (hst : (s.step c addresses a).stage = .settled x) : (∀ l ∈ x.logs, l ∈ c.logs ∧ l.block = x.block) ∧
      x.logs.Pairwise fun l m => l.placeInBlock ≤ m.placeInBlock := by
  rcases Pipeline.settled_of_step hst with hst | ⟨now, st, hready⟩
  · exact h.block x hst
  · rw [(BlockSettler.takeReady_some hready).logs]
    refine ⟨fun l hl => h.single.filed _ l ((List.mem_insertionSort _).1 hl), List.pairwise_insertionSort _ _⟩

/-- What a step that goes through does to the pools. -/
theorem turn {proc : EventProcessor} (h : InHand c r s) {env : Env} {a : Pipeline.Action}
    (ho : (Running.session r s proc).Orderly c (.turn env a)) (hd : s.Distinct a)
    (hw : (Running.session r s proc).work c env a = (r', .ok ())) :
    InStep c r' (s.step c r.getAllAddresses a) ∧ r'.InOrder ∧ r'.getAllAddresses = r.getAllAddresses := by
  obtain ⟨hs, hblock, hin, horder⟩ := h
  have hse := hs.settling
  rcases s.step_cases c r.getAllAddresses a with ⟨latest, rfl, hst⟩ | ⟨drained, rfl, hst⟩ |
    ⟨drained, events, filled, rfl, hst, ht⟩ | ⟨x, rfl, hst⟩ | ⟨hquiet, htake, hdone, hhand⟩
  · cases hw
    obtain ⟨hl, -, hpast⟩ := ho hst
    exact ⟨hin.bootDrain hl (fun l hl => c.mined l (hs.queued l hl)) hst hpast, horder, rfl⟩
  · unfold Session.work Running.session at hw
    rw [hst] at hw
    obtain ⟨-, hgives⟩ := WebsocketBlockSource.catchUp_ok (hin.boundary _ hst).1 hw
    refine ⟨hin.bootTakeGaps hst hw, hgives.inOrder horder (hin.saved (.inr ⟨_, hst⟩)) (fun a t => ?_) fun y hy hle l hl _ => ?_,
      hgives.addresses⟩
    · exact ((c.relevant_sorted ..).sublist List.filter_sublist).sublist List.filter_sublist
    · obtain ⟨hl, hp⟩ := List.mem_filter.1 hl
      have hlt := (of_decide_eq_true hp).1
      have hle := of_decide_eq_true hle
      exact lt_of_not_ge fun hback => absurd (LogPosition.block_le hback) (Nat.not_le.2 (hle.trans_lt hlt))
  · unfold Session.work Running.session at hw
    rw [hst, ht] at hw
    obtain ⟨hnodup, hsorted⟩ := hd _ _ _ hst ht
    have hpassed : ∀ l ∈ events, l ∈ c.logs ∧ s.source.fillFloor ≤ l.place := fun l hl =>
      ⟨(hs.had l (.inl (hse.events _ _ _ hst ▸ hl))).1, (hs.had l (.inl (hse.events _ _ _ hst ▸ hl))).2.1⟩
    obtain ⟨-, hgives⟩ := WebsocketBlockSource.applyBuffered_ok hw
    refine ⟨hin.bootDone hse hst ht hpassed hnodup hw, hgives.inOrder horder (hin.filling _ _ _ hst) (fun a t => ?_)
      fun y _ hlt l hl _ => ?_, hgives.addresses⟩
    · cases filled with
      | true => exact (c.byPosition_pairwise (fun l hl => (hpassed l hl).1) hnodup).sublist List.filter_sublist
      | false =>
        refine ((hsorted rfl).sublist List.filter_sublist).imp_of_mem fun {x y} hx hy hxy => hxy ?_
        exact (of_decide_eq_true (List.mem_filter.1 hx).2).1.trans (of_decide_eq_true (List.mem_filter.1 hy).2).1.symm
    · have hl : l ∈ events := by
        split at hl
        · exact (List.mem_insertionSort _).1 hl
        · exact hl
      exact (of_decide_eq_true hlt).trans_le (hpassed l hl).2
  · unfold Session.work Running.session at hw
    rw [hst] at hw
    obtain ⟨hmem, hsorted⟩ := hblock x hst
    have hafter := ho x hst
    obtain ⟨hgives, hcursor⟩ := InStep.gives_of_batch (fun l hl => (hmem l hl).1) rfl (Session.batchOf_mode _ env x) rfl hw
    refine ⟨hin.handOn hse hst hmem (hd x hst) (fun l hl happlied => ?_) hgives hcursor,
      hgives.inOrder horder (hin.applied (by rw [hst]; rfl)) (fun a t => ?_) fun y hy happlied l hl haddress => ?_, hgives.addresses⟩
    · exact absurd (hafter l hl l (hmem l hl).1 rfl happlied) (lt_irrefl _)
    · exact (c.block_pairwise hmem (hd x hst) hsorted).sublist List.filter_sublist
    · exact hafter l hl y hy haddress happlied
  · rw [Session.work_idle htake hdone hhand] at hw
    cases hw
    exact ⟨hin.quiet hquiet, horder, rfl⟩

/-- A listener's own doings. -/
theorem aside (h : InHand c r s) {s' : Pipeline} (hs : s.SameSource s') (hsingle : s'.Single (fun _ => False) 0 c) :
    InHand c r s' :=
  ⟨hsingle, fun x hst => h.block x (hs.stage ▸ hst), h.inStep.quiet (.of_feed hs), h.inOrder⟩

/-- An updater that has just been spawned. -/
theorem spawned (hr : r.Coherent c) (hs : r.Subscribed) (listeners : List WsFeed) (maxBlocks settle : Nat) (fill : Bool) :
    InHand c r { Pipeline.init c [] r.topics 1000 maxBlocks settle with
      ahead := wire c listeners
      source := .new r.topics maxBlocks settle fill } := by
  have hwire : ∀ l ∈ wire c listeners, l ∈ c.logs := by
    cases listeners with
    | nil => exact fun l hl => absurd hl List.not_mem_nil
    | cons feed listeners => exact fun l hl => (List.mem_filter.1 hl).1
  exact ⟨Pipeline.single_init _ _ _ _ _ _ _ _ _ hwire, fun x hst => Stage.noConfusion hst,
    ⟨rfl, hs, fun _ => hr.holds, fun _ hd => Stage.noConfusion hd, fun _ _ _ hd => Stage.noConfusion hd,
      fun hb => (Bool.false_ne_true hb.symm).elim, fun hb => (Bool.false_ne_true hb.symm).elim,
      fun hb => (Bool.false_ne_true hb.symm).elim⟩, hr.inOrder⟩

end InHand

/-! ## Sources that poll -/

namespace UnifiedPoolUpdater
variable {u u' : UnifiedPoolUpdater}

/-- What it has planned goes on from the cursor. -/
def GoesOn (u : UnifiedPoolUpdater) (cursor : Nat) : Prop :=
  u.source.batches = [] ∨ ∃ last, Tiles cursor last (u.source.batches.map fun range => (range.1, range.2.1))

/-- A turn that goes through leaves the pools as they are, or gives them the logs of the range after the cursor. -/
theorem batch_gives {env : Env} {latest : Nat} (h : u.GoesOn r.lastProcessedBlock)
    (hbatch : u.batch c env latest r = (r', some u')) :
    u'.GoesOn r'.lastProcessedBlock ∧ (r' = r ∨ ∃ range rest, u.source.planned r.lastProcessedBlock latest = .ok (range :: rest) ∧
      r.lastProcessedBlock ≤ range.2.1 ∧
      r.Gives (c.getLogs r.getAllAddresses u.source.topics (r.lastProcessedBlock + 1) range.2.1) r' ∧
      r'.lastProcessedBlock = range.2.1) := by
  rcases batch_ok h hbatch with ⟨rfl, rfl⟩ | ⟨range, rest, last, hplan, hstart, hle, hrest, rfl, rfl⟩
  · exact ⟨h, .inl rfl⟩
  · have hgives := (PoolRegistry.gives_replayed env.clock r (r.enrichIfLbPoolsPresent env.times
      (c.getLogs r.getAllAddresses u.source.topics range.1 range.2.1))).of_enriched
    rw [hstart] at hgives
    have hevents : (u.source.fetchBatch c env r range).events = r.enrichIfLbPoolsPresent env.times
        (c.getLogs r.getAllAddresses u.source.topics (r.lastProcessedBlock + 1) range.2.1) := by
      rw [← hstart]
      rfl
    rw [hevents]
    exact ⟨.inr ⟨last, hrest⟩, .inr ⟨range, rest, hplan, by omega, ⟨hgives.ledger, hgives.addresses, hgives.topics⟩, rfl⟩⟩

end UnifiedPoolUpdater

namespace PendingBlockSource
variable {source source' : PendingBlockSource} {cursor latest : Nat}

/-- The batches it has begun with go on from the cursor. -/
def GoesOn (source : PendingBlockSource) (cursor : Nat) : Prop :=
  ∀ current last, source.phase = .ConfirmedBatches current last → current = cursor + 1 ∧ current ≤ last

/-- A confirmed range starts after the cursor. -/
theorem nextBatch_ok {addresses : List Address} {fetch : Option Fetch} (h : source.GoesOn cursor)
    (hnext : source.nextBatch cursor latest addresses = .ok (source', fetch)) :
    source'.topics = source.topics ∧ ((fetch = none ∨ fetch = some .pending) ∧ source'.GoesOn cursor ∨
      ∃ toBlock, fetch = some (.confirmed (cursor + 1) toBlock) ∧ cursor ≤ toBlock ∧ source'.GoesOn toBlock) := by
  unfold nextBatch at hnext
  split at hnext
  · split at hnext
    · split at hnext
      · cases hnext
        exact ⟨rfl, .inl ⟨.inl rfl, h⟩⟩
      · next hle =>
        cases hnext
        refine ⟨rfl, .inl ⟨.inl rfl, fun current last hphase => ?_⟩⟩
        cases hphase
        exact ⟨rfl, Nat.not_lt.1 hle⟩
    · cases hnext
  · next current last hst =>
    obtain ⟨rfl, hle⟩ := h current last hst
    split at hnext
    · dsimp only at hnext
      split at hnext
      · cases hnext
        refine ⟨rfl, .inr ⟨_, rfl, by omega, fun current' last' hphase => ?_⟩⟩
        dsimp only at hphase
        split at hphase
        · cases hphase
        · next hnot =>
          cases hphase
          exact ⟨rfl, Nat.not_lt.1 hnot⟩
      · cases hnext
    · cases hnext
  · split at hnext
    · cases hnext
      exact ⟨rfl, .inl ⟨.inl rfl, fun _ _ hphase => PendingPhase.noConfusion hphase⟩⟩
    · cases hnext
      exact ⟨rfl, .inl ⟨.inr rfl, fun _ _ hphase => PendingPhase.noConfusion hphase⟩⟩

/-- A turn that goes through leaves the pools as they are, or gives them the logs of a range after the cursor. -/
theorem batch_ok {proc : EventProcessor} {env : Env} {pending : List Log} (h : source.GoesOn r.lastProcessedBlock)
    (hbatch : source.batch c env latest pending proc r = (r', some source')) :
    source'.GoesOn r'.lastProcessedBlock ∧ (r' = r ∨ ∃ next toBlock, source.nextBatch r.lastProcessedBlock latest r.getAllAddresses =
      .ok (next, some (.confirmed (r.lastProcessedBlock + 1) toBlock)) ∧ r.lastProcessedBlock ≤ toBlock ∧
      r.Gives (c.getLogs r.getAllAddresses source.topics (r.lastProcessedBlock + 1) toBlock) r' ∧
      r'.lastProcessedBlock = toBlock) := by
  unfold batch at hbatch
  split at hbatch
  · cases hbatch
  · next next hnext =>
    cases hbatch
    obtain ⟨-, ⟨-, hgoes⟩ | ⟨_, hfetch, -⟩⟩ := nextBatch_ok h hnext
    · exact ⟨hgoes, .inl rfl⟩
    · cases hfetch
  · next next fetch hnext =>
    split at hbatch
    · cases hbatch
    · next r1 hw =>
      cases hbatch
      obtain ⟨htopics, ⟨hfetch | hfetch, hgoes⟩ | ⟨toBlock, hfetch, hle, hgoes⟩⟩ := nextBatch_ok h hnext
      · cases hfetch
      · cases hfetch
        have hr : r' = r := by
          unfold UnifiedPoolUpdater.process fetchBatch at hw
          dsimp only at hw
          split at hw
          · cases hw
          · exact (congrArg Prod.fst hw).symm
        rw [hr]
        exact ⟨hgoes, .inl rfl⟩
      · cases hfetch
        have hgives := InStep.gives_of_batch (c := c) (fun l hl => (List.mem_filter.1 hl).1) rfl
          (by unfold fetchBatch; exact ProcessingMode.noConfusion) rfl hw
        rw [htopics] at hgives
        rw [hgives.2]
        exact ⟨hgoes, .inr ⟨_, _, hnext, hle, hgives.1, rfl⟩⟩

end PendingBlockSource

/-! ## Runs -/

namespace Running
variable {s : Running (Traced π)}

/-- The pools are exact at the cursor, and what a polling updater has planned goes on from it; over websocket they keep step
with the source. -/
def Exact (c : Chain) (s : Running (Traced π)) : Prop :=
  match s.updater with
  | none => s.registry.Coherent c
  | some (.latestBlock u) => s.registry.Coherent c ∧ u.GoesOn s.registry.lastProcessedBlock
  | some (.pendingBlock source _) => s.registry.Coherent c ∧ source.GoesOn s.registry.lastProcessedBlock
  | some (.websocket pipeline _) => InHand c s.registry pipeline

/-- **One turn** that meets its conditions. -/
theorem Exact.turn (h : s.Exact c) {t : Turn} (hm : s.Meets c t) :
    (s.turn c t).Exact c ∧ (s.turn c t).registry.getAllAddresses = s.registry.getAllAddresses := by
  obtain ⟨r, updater⟩ := s
  obtain ⟨hsane, hm⟩ := hm
  cases updater with
  | none => cases t <;> exact ⟨h, rfl⟩
  | some updater =>
    cases t with
    | poll env latest pending =>
      cases updater with
      | latestBlock u =>
        obtain ⟨hr, hgoes⟩ := h
        unfold Running.turn at hsane ⊢
        dsimp only at hsane hm ⊢
        rcases hbatch : u.batch c env latest r with ⟨r', _ | u'⟩
        · rw [hbatch] at hsane
          cases hsane rfl
        · obtain ⟨hgoes', rfl | ⟨range, rest, hplan, hle, hgives, hcursor⟩⟩ := UnifiedPoolUpdater.batch_gives hgoes hbatch
          · exact ⟨⟨hr, hgoes'⟩, rfl⟩
          · exact ⟨⟨hr.query hgives hcursor hle (hm range rest hplan), hgoes'⟩, hgives.addresses⟩
      | pendingBlock source proc =>
        obtain ⟨hr, hgoes⟩ := h
        unfold Running.turn at hsane ⊢
        dsimp only at hsane hm ⊢
        rcases hbatch : source.batch c env latest pending proc r with ⟨r', _ | source'⟩
        · rw [hbatch] at hsane
          cases hsane rfl
        · obtain ⟨hgoes', rfl | ⟨next, toBlock, hnext, hle, hgives, hcursor⟩⟩ := PendingBlockSource.batch_ok hgoes hbatch
          · exact ⟨⟨hr, hgoes'⟩, rfl⟩
          · exact ⟨⟨hr.query hgives hcursor hle (hm next _ toBlock hnext), hgoes'⟩, hgives.addresses⟩
      | websocket pipeline proc => exact ⟨h, rfl⟩
    | feed e =>
      cases updater with
      | latestBlock u => exact ⟨h, rfl⟩
      | pendingBlock source proc => exact ⟨h, rfl⟩
      | websocket pipeline proc =>
        have h : InHand c r pipeline := h
        obtain ⟨hpossible, hsteady⟩ := hm
        cases e with
        | arrive l => exact ⟨h.aside ⟨rfl, rfl, rfl, rfl, rfl⟩ (h.single.arrive hpossible fun ho => ho.elim), rfl⟩
        | noteGap g => exact ⟨h.aside ⟨rfl, rfl, rfl, rfl, rfl⟩ (h.single.noteGap hpossible), rfl⟩
        | turn env a =>
          obtain ⟨ho, hd⟩ := hsteady
          rcases hw : (session r pipeline proc).work c env a with ⟨r', _ | _⟩
          · have hnone : (Running.turn c ⟨r, some (.websocket pipeline proc)⟩ (.feed (.turn env a))).updater = none := by
              unfold Running.turn Session.react Session.step
              dsimp only
              rw [if_pos (show (session r pipeline proc).phase = .running from rfl), hw]
            cases hsane hnone
          · have hturn : Running.turn c ⟨r, some (.websocket pipeline proc)⟩ (.feed (.turn env a)) =
                ⟨r', some (.websocket (pipeline.step c r'.getAllAddresses a) proc)⟩ := by
              unfold Running.turn Session.react Session.step
              dsimp only
              rw [if_pos (show (session r pipeline proc).phase = .running from rfl), hw]
              rfl
            obtain ⟨hin, horder, haddresses⟩ := h.turn ho hd hw
            rw [hturn]
            rw [← haddresses] at hin
            refine ⟨⟨?_, fun x hst => h.block_step _ a hst, hin, horder⟩, haddresses⟩
            rw [haddresses]
            exact h.single.step a (Pipeline.spares_none a)

/-- The source, if there is one, polls. -/
def Polls (s : Running (Traced π)) : Prop := ∀ pipeline proc, s.updater ≠ some (.websocket pipeline proc)

theorem Polls.turn (h : s.Polls) (t : Turn) : (s.turn c t).Polls := by
  intro pipeline proc hw
  unfold Running.turn at hw
  split at hw
  · split at hw
    · obtain ⟨u, -, hu⟩ := Option.map_eq_some_iff.1 hw
      cases hu
    · obtain ⟨source, -, hu⟩ := Option.map_eq_some_iff.1 hw
      cases hu
    · exact h pipeline proc hw
  · split at hw
    · next hs => exact h _ _ hs
    · exact h pipeline proc hw

/-- A source that polls is at rest between its turns. -/
theorem Polls.rests_run (h : s.Polls) (turns : List Turn) (k : Nat) : (runTo (Running.turn c) s turns k).Rests c := by
  have hpolls : (runTo (Running.turn c) s turns k).Polls := runTo_invariant h (fun _ t _ hs => hs.turn t) k
  unfold Rests
  split
  · next hw => exact absurd hw (hpolls _ _)
  · trivial

/-- At rest the pools are exact at the cursor. -/
theorem Exact.coherent (h : s.Exact c) (hrests : s.Rests c) : s.registry.Coherent c := by
  obtain ⟨r, updater⟩ := s
  match updater, h, hrests with
  | none, h, _ => exact h
  | some (.latestBlock u), h, _ => exact h.1
  | some (.pendingBlock source proc), h, _ => exact h.1
  | some (.websocket pipeline proc), h, ⟨hbooted, hcovered⟩ =>
    have h : InHand c r pipeline := h
    refine h.inOrder.coherent ((h.inStep.applied hbooted).congr fun a e he l hl ho => ?_)
    have hcon := PoolRegistry.concerned_of_owned he ho
    exact ⟨fun happlied => decide_eq_true (h.inStep.covered hbooted l hl hcon happlied),
      fun hle => hcovered l hl hcon (of_decide_eq_true hle)⟩

theorem Spawned.exact_updater (h : s.Spawned c) : s.Exact c := by
  obtain ⟨r, updater⟩ := s
  obtain ⟨hr, hsubscribed, hstarted⟩ := h
  cases updater with
  | none => exact hr
  | some u =>
    obtain ⟨r₀, swapEventTx, startBlock, maxBlocks, mode, hnew⟩ := hstarted u rfl
    cases mode with
    | PendingBlock =>
      cases hnew
      exact ⟨hr, fun _ _ hphase => PendingPhase.noConfusion hphase⟩
    | LatestBlock =>
      cases hnew
      exact ⟨hr, .inl rfl⟩
    | Websocket listeners settle fill =>
      cases hnew
      exact InHand.spawned hr (hsubscribed _ _ rfl) listeners maxBlocks settle fill

/-! ## Pools removed -/

/-- The pools that are left, at the same cursor and with the same topics. -/
structure Left (r r' : PoolRegistry (Traced π)) : Prop where
  pools : ∀ a p, r'.getPool a = some p → r.getPool a = some p
  cursor : r'.lastProcessedBlock = r.lastProcessedBlock
  topics : r'.topics = r.topics

omit [PoolInterface π] in
theorem left_removePool (r : PoolRegistry (Traced π)) (a : Address) : Left r (r.removePool a) := by
  refine ⟨fun b p hp => ?_, ?_, ?_⟩
  · rw [PoolRegistry.removePool_getPool] at hp
    split at hp
    · cases hp
    · exact hp
  · unfold PoolRegistry.removePool
    split <;> rfl
  · unfold PoolRegistry.removePool
    split <;> rfl

theorem Left.ledger (h : Left r r') {a : Address} {e : PoolType × List Log} (he : r'.ledger a = some e) : r.ledger a = some e := by
  obtain ⟨p, hp, rfl⟩ := Option.map_eq_some_iff.1 he
  unfold PoolRegistry.ledger
  rw [h.pools a p hp, Option.map_some]

theorem Left.concerned (h : Left r r') {l : Log} (hl : r'.Concerned l) : r.Concerned l :=
  hl.imp fun p hp => ⟨h.pools _ p hp.1, hp.2⟩

theorem Left.coherent (h : Left r r') (hr : r.Coherent c) : r'.Coherent c := by
  intro a p hp
  rw [h.cursor]
  exact hr a p (h.pools a p hp)

theorem Left.holds (h : Left r r') {f : Log → Bool} (hr : r.Holds c f) : r'.Holds c f := fun a e he => hr a e (h.ledger he)

theorem Left.inHand (h : Left r r') {pipeline : Pipeline} (hr : InHand c r pipeline) : InHand c r' pipeline := by
  obtain ⟨hs, hblock, hin, horder⟩ := hr
  refine ⟨hs, hblock, ⟨hin.topics.trans h.topics.symm, fun a p hp => ?_, fun hst => ?_, fun d hst => ?_,
    fun d e f hst => h.holds (hin.filling d e f hst), fun hb => h.holds (hin.applied hb), fun hb l hl hcon => ?_, fun hb => ?_⟩,
    fun a e he => horder a e (h.ledger he)⟩
  · rw [h.topics]
    exact hin.subscribed a p (h.pools a p hp)
  · rw [h.cursor]
    exact h.holds (hin.saved hst)
  · rw [h.cursor]
    exact (hin.boundary d hst).imp_right fun hpast l hl hcon => hpast l hl (h.concerned hcon)
  · rw [h.cursor]
    exact hin.covered hb l hl (h.concerned hcon)
  · rw [h.cursor]
    exact hin.through hb

theorem Exact.left (h : s.Exact c) (hl : Left s.registry r') : ({ s with registry := r' } : Running (Traced π)).Exact c := by
  obtain ⟨r, updater⟩ := s
  match updater, h with
  | none, h => exact hl.coherent h
  | some (.latestBlock u), h =>
    refine ⟨hl.coherent h.1, ?_⟩
    dsimp only
    rw [hl.cursor]
    exact h.2
  | some (.pendingBlock source proc), h =>
    refine ⟨hl.coherent h.1, ?_⟩
    dsimp only
    rw [hl.cursor]
    exact h.2
  | some (.websocket pipeline proc), h => exact hl.inHand h

/-- **Whatever a collector comes to**, its pools are exact as far as its updater is at rest. -/
theorem Collects.exact (h : s.Collects c) : s.Exact c := by
  induction h with
  | spawned h => exact h.exact_updater
  | turn _ hm ih => exact (ih.turn hm).1
  | removed _ a ih => exact ih.left (left_removePool _ a)

/-- **The stop**: over turns that meet their conditions, to a moment when the updater is at rest, the pools stay the same ones and
are exact at the cursor. -/
theorem Collects.coherent_run (h : s.Collects c) {turns : List Turn}
    (hm : ∀ k t, turns[k]? = some t → (runTo (Running.turn c) s turns k).Meets c t)
    (hrests : (runTo (Running.turn c) s turns turns.length).Rests c) :
    (runTo (Running.turn c) s turns turns.length).registry.Coherent c ∧
      (runTo (Running.turn c) s turns turns.length).registry.getAllAddresses = s.registry.getAllAddresses := by
  have hrun := runTo_invariant
    (P := fun s' : Running (Traced π) => s'.Exact c ∧ s'.registry.getAllAddresses = s.registry.getAllAddresses)
    ⟨h.exact, rfl⟩ (fun k t ht hs => ((hs.1.turn (hm k t ht)).imp_right fun haddresses => haddresses.trans hs.2)) turns.length
  exact ⟨hrun.1.coherent hrests, hrun.2⟩

end Running

end

end EvmDexPool
