import EvmDexPool.Collector.Bootstrap
import EvmDexPool.Collector.GapDelivery
import EvmDexPool.Collector.Subscriptions

/-!
# The updater between a start and a stop (`UnifiedPoolUpdater::start`, websocket mode)

| here | there |
| --- | --- |
| `Session.work` | what a step of the source does to the registry |
| `Session.stop` | the cancel branch of the `select!` in `start`, and the source dropped with it |
| `catchupRegistryToBlock` | `catchup_registry_to_block`, as `add_pools_ws` calls it after a stop |

`cancel_rx` is polled before `next_batch` each time, so a stop can come at any step of `next_batch`, but
not in bootstrap nor while a batch is applied. A stop keeps the registry and nothing else: a log of a
block the cursor covers that is still `Waiting` then is applied by nobody.
-/

namespace EvmDexPool

open Replay

/-! ## Where the settler's logs are -/

/-- The logs of the block taken from the settler. -/
def Stage.logs : Stage → List Log
  | .settled r => r.logs
  | _ => []

namespace Pipeline

section
variable (s : Pipeline)

def releasedLogs : List Log := s.released.flatMap (·.1.logs)

/-- What the settler was handed has been released, is in the block just taken, or is filed under its
block; bootstrap's events are those it took. -/
structure Settling : Prop where
  count : ∀ l, s.handed.count l = s.releasedLogs.count l + s.stage.logs.count l + (s.source.settler.logsOf l.block).count l
  boots : s.stage.boots = true → s.handed = [] ∧ s.released = []
  drained : ∀ drained, s.stage = .catchingUp drained → s.bootstrapped = drained
  events : ∀ drained events filled, s.stage = .bootFilling drained events filled → s.bootstrapped = events
  through : ∀ r, s.stage = .settled r →
    r.processedThrough = s.source.settler.releasedThrough ∧ r.block ≤ r.processedThrough

end

section
variable {c : Chain} {addresses : List Address} {s : Pipeline}

/-- Logs handed to the settler are filed under their blocks. -/
theorem count_add {st : BlockSettler} {ls : List Log} {now : Nat} (hm : ∀ l ∈ ls, l.Mined) (l : Log) :
    ((st.add ls now).logsOf l.block).count l = (st.logsOf l.block).count l + ls.count l := by
  rw [BlockSettler.logsOf_add, List.count_append]
  refine congrArg _ ?_
  by_cases hl : l ∈ ls
  · rw [List.count_filter, List.count_filter]
    · simpa using (hm l hl).kept
    · simpa using (hm l hl).blockNumber ▸ rfl
  · rw [List.count_eq_zero_of_not_mem hl]
    exact List.count_eq_zero_of_not_mem fun h => hl (List.mem_filter.1 (List.mem_filter.1 h).1).1

/-- A step that leaves the settler and what it was handed alone. -/
theorem Settling.frame (h : s.Settling) {s' : Pipeline} (hh : s'.handed = s.handed) (hr : s'.released = s.released)
    (hs : s'.stage = s.stage) (hb : s'.bootstrapped = s.bootstrapped) (hst : s'.source.settler = s.source.settler) :
    s'.Settling := by
  refine ⟨fun l => ?_, fun hboots => ?_, fun d hd => ?_, fun d e f hd => ?_, fun r hr' => ?_⟩
  · unfold releasedLogs
    rw [hh, hr, hs, hst]
    exact h.count l
  · rw [hs] at hboots
    rw [hh, hr]
    exact h.boots hboots
  · rw [hs] at hd
    exact hb.trans (h.drained d hd)
  · rw [hs] at hd
    exact hb.trans (h.events d e f hd)
  · rw [hs] at hr'
    rw [hst]
    exact h.through r hr'

theorem Settling.add (h : s.Settling) {s' : Pipeline} {ls : List Log} {now : Nat} (hm : ∀ l ∈ ls, l.Mined)
    (hboots : s'.stage.boots = false) (hnone : s'.stage.logs = s.stage.logs) (hset : ∀ r, s'.stage ≠ .settled r)
    (hh : s'.handed = s.handed ++ ls) (hr : s'.released = s.released)
    (hst : s'.source.settler = s.source.settler.add ls now) : s'.Settling := by
  refine ⟨fun l => ?_, fun hb => ?_, fun d hd => ?_, fun d e f hd => ?_, fun r hr' => absurd hr' (hset r)⟩
  · unfold releasedLogs
    rw [hh, hr, hst, hnone, List.count_append, h.count l, count_add hm]
    unfold releasedLogs
    omega
  · rw [hboots] at hb
    cases hb
  · rw [hd] at hboots
    cases hboots
  · rw [hd] at hboots
    cases hboots

/-- What the feed and its listener leave alone: all but the wire and the queue. -/
structure SameSource (s s' : Pipeline) : Prop where
  source : s'.source = s.source
  stage : s'.stage = s.stage
  bootstrapped : s'.bootstrapped = s.bootstrapped
  handed : s'.handed = s.handed
  released : s'.released = s.released

theorem SameSource.refl (s : Pipeline) : s.SameSource s := ⟨rfl, rfl, rfl, rfl, rfl⟩

/-- The feed's and the listener's own steps. -/
def Action.ofFeed : Action → Bool
  | .subscribe | .disconnect | .miss | .overflow | .deliver | .send => true
  | _ => false

theorem sameSource_feed {a : Action} (h : a.ofFeed = true) : s.SameSource (s.step c addresses a) := by
  unfold Pipeline.step
  cases a with
  | disconnect => exact ⟨rfl, rfl, rfl, rfl, rfl⟩
  | subscribe =>
    unfold Pipeline.subscribe
    dsimp only
    split
    · exact .refl s
    · exact ⟨rfl, rfl, rfl, rfl, rfl⟩
  | miss =>
    unfold Pipeline.miss
    dsimp only
    split
    · exact ⟨rfl, rfl, rfl, rfl, rfl⟩
    · exact .refl s
  | overflow =>
    unfold Pipeline.overflow
    dsimp only
    split
    · exact ⟨rfl, rfl, rfl, rfl, rfl⟩
    · exact .refl s
  | deliver =>
    unfold Pipeline.deliver
    dsimp only
    split
    · exact ⟨rfl, rfl, rfl, rfl, rfl⟩
    · exact .refl s
  | send =>
    unfold Pipeline.send
    dsimp only
    split
    · exact ⟨rfl, rfl, rfl, rfl, rfl⟩
    · exact .refl s
  | _ => cases h

theorem Settling.feed (h : s.Settling) {s' : Pipeline} (hs : s.SameSource s') : s'.Settling :=
  h.frame hs.handed hs.released hs.stage hs.bootstrapped (congrArg _ hs.source)

/-- Any step, as long as what goes to the settler is mined and filed under its own block. -/
theorem Settling.step_mined (h : s.Settling) (hq : ∀ l ∈ s.queue.queue, l.Mined)
    (hf : ∀ g rest, s.taken = g :: rest → ∀ l ∈ (s.source.fetchGap c addresses g s.queue).2, l.Mined)
    (hfiled : ∀ b, ∀ l ∈ s.source.settler.logsOf b, l.block = b) (a : Action) : (s.step c addresses a).Settling := by
  cases a with
  | subscribe | disconnect | miss | overflow | deliver | send => exact h.feed (sameSource_feed rfl)
  | bootDrain latest =>
    unfold Pipeline.step Pipeline.bootDrain
    dsimp only
    split
    · next hstage =>
      obtain ⟨hh, hr⟩ := h.boots (by rw [hstage]; rfl)
      refine ⟨fun l => ?_, fun _ => ⟨hh, hr⟩, fun d hd => ?_, fun _ _ _ hd => Stage.noConfusion hd,
        fun r hr => Stage.noConfusion hr⟩
      · have hcount := h.count l
        rw [hstage] at hcount
        exact hcount
      · exact Stage.catchingUp.inj hd
    · exact h
  | bootTakeGaps =>
    unfold Pipeline.step Pipeline.bootTakeGaps
    dsimp only
    split
    · next drained hstage =>
      obtain ⟨hh, hr⟩ := h.boots (by rw [hstage]; rfl)
      refine ⟨fun l => ?_, fun _ => ⟨hh, hr⟩, fun _ hd => Stage.noConfusion hd, fun d e f hd => ?_,
        fun r hr => Stage.noConfusion hr⟩
      · have hcount := h.count l
        rw [hstage] at hcount
        exact hcount
      · obtain ⟨-, rfl, -⟩ := Stage.bootFilling.inj hd
        exact h.drained _ hstage
    · exact h
  | bootGap =>
    unfold Pipeline.step Pipeline.bootGap
    dsimp only
    split
    · next drained events filled g rest hstage ht =>
      obtain ⟨hh, hr⟩ := h.boots (by rw [hstage]; rfl)
      have hev := h.events _ _ _ hstage
      have hcount := fun l => h.count l
      rw [hstage] at hcount
      split
      · refine ⟨hcount, fun _ => ⟨hh, hr⟩, fun _ hd => Stage.noConfusion hd, fun d e f hd => ?_,
          fun r hr => Stage.noConfusion hr⟩
        obtain ⟨-, rfl, -⟩ := Stage.bootFilling.inj hd
        exact congrArg (· ++ _) hev
      · refine ⟨hcount, fun _ => ⟨hh, hr⟩, fun _ hd => Stage.noConfusion hd, fun d e f hd => ?_,
          fun r hr => Stage.noConfusion hr⟩
        obtain ⟨-, rfl, -⟩ := Stage.bootFilling.inj hd
        exact hev
    · exact h
  | bootDone =>
    unfold Pipeline.step Pipeline.bootDone
    dsimp only
    split
    · next hstage ht =>
      obtain ⟨hh, hr⟩ := h.boots (by rw [hstage]; rfl)
      refine ⟨fun l => ?_, fun hb => (Bool.false_ne_true hb).elim, fun _ hd => Stage.noConfusion hd,
        fun _ _ _ hd => Stage.noConfusion hd, fun r hr => Stage.noConfusion hr⟩
      unfold releasedLogs
      dsimp only
      rw [hh, hr, BlockSettler.logsOf_new]
      rfl
    · exact h
  | intake now =>
    unfold Pipeline.step Pipeline.intake
    dsimp only
    split
    · next hstage =>
      exact h.add (fun l hl => hq l (List.mem_filter.1 hl).1) rfl (by rw [hstage]; rfl)
        (fun r hr => Stage.noConfusion hr) rfl rfl rfl
    · exact h
  | takeGaps =>
    unfold Pipeline.step Pipeline.takeGaps
    dsimp only
    split
    · next hstage =>
      have hcount := fun l => h.count l
      rw [hstage] at hcount
      exact ⟨hcount, fun hb => (Bool.false_ne_true hb).elim, fun _ hd => Stage.noConfusion hd,
        fun _ _ _ hd => Stage.noConfusion hd, fun r hr => Stage.noConfusion hr⟩
    · exact h
  | fill now =>
    unfold Pipeline.step Pipeline.fill
    dsimp only
    split
    · next g rest hstage ht =>
      refine h.add (hf g rest ht) (by dsimp only; rw [hstage]; rfl) rfl (fun r hr => ?_) rfl rfl rfl
      dsimp only at hr
      rw [hstage] at hr
      cases hr
    · exact h
  | takeReady now =>
    unfold Pipeline.step Pipeline.takeReady
    dsimp only
    split
    · next hstage ht =>
      have hcount := fun l => h.count l
      rw [hstage] at hcount
      rcases hr : s.source.settler.takeReady now with ⟨st, _ | r⟩
      · rw [BlockSettler.takeReady_none hr]
        exact ⟨hcount, fun hb => (Bool.false_ne_true hb).elim, fun _ hd => Stage.noConfusion hd,
          fun _ _ _ hd => Stage.noConfusion hd, fun r hr => Stage.noConfusion hr⟩
      · have hon := BlockSettler.takeReady_some hr
        refine ⟨fun l => (hcount l).trans ?_, fun hb => (Bool.false_ne_true hb).elim, fun _ hd => Stage.noConfusion hd,
          fun _ _ _ hd => Stage.noConfusion hd, fun r' hr' => ?_⟩
        · change s.releasedLogs.count l + 0 + _ = s.releasedLogs.count l + r.logs.count l + (st.logsOf l.block).count l
          rw [hon.rest, hon.logs, (List.perm_insertionSort ..).count_eq]
          by_cases hb : l.block = r.block
          · rw [if_pos hb, hb, List.count_nil, Nat.add_zero, Nat.add_zero]
          · -- the block taken is another one's
            rw [if_neg hb, List.count_eq_zero_of_not_mem fun hl => hb (hfiled _ l hl)]
        · have hreq : r = r' := Stage.settled.inj hr'
          subst hreq
          exact ⟨hon.through, by rw [hon.through, hon.released]; exact le_max_right ..⟩
    · exact h
  | handOn =>
    unfold Pipeline.step Pipeline.handOn
    dsimp only
    split
    · next r hstage =>
      refine ⟨fun l => ?_, fun hb => (Bool.false_ne_true hb).elim, fun _ hd => Stage.noConfusion hd,
        fun _ _ _ hd => Stage.noConfusion hd, fun r hr => Stage.noConfusion hr⟩
      have hcount := h.count l
      rw [hstage] at hcount
      refine hcount.trans ?_
      unfold releasedLogs
      dsimp only
      rw [List.flatMap_append, List.count_append]
      simp [Stage.logs]
    · exact h

theorem Settling.step (h : s.Settling) (hs : s.Sound c addresses) (hu : s.Unpriced) (a : Action) :
    (s.step c addresses a).Settling := by
  refine h.step_mined (fun l hl => hs.mined (hs.queued l (List.mem_append_left _ hl)).1) (fun g rest ht l hl => ?_)
    (fun b l hl => (hu.filed b l hl).1) a
  obtain ⟨hmissed, -, -, -⟩ := hs.fetchGap ht
  rw [hmissed] at hl
  exact Chain.relevant_mined (List.mem_filter.1 hl).1

/-- What the source has been through stays as it was, and so does its stage, but for the gaps bootstrap
fills and the stages of the loop. -/
structure Quiet (s s' : Pipeline) : Prop where
  topics : s'.source.topics = s.source.topics
  floor : s'.source.fillFloor = s.source.fillFloor
  bootstrapped : s.stage.boots = false → s'.bootstrapped = s.bootstrapped
  released : s'.released = s.released
  through : s.source.settler.releasedThrough ≤ s'.source.settler.releasedThrough
  stage : s'.stage = s.stage ∨ (s.stage.boots = false ∧ s'.stage.boots = false) ∨
    ((∃ d e f, s.stage = .bootFilling d e f) ∧ ∃ d e f, s'.stage = .bootFilling d e f)

theorem Quiet.refl (s : Pipeline) : s.Quiet s := ⟨rfl, rfl, fun _ => rfl, rfl, le_rfl, .inl rfl⟩

theorem Quiet.of_feed {s' : Pipeline} (h : s.SameSource s') : s.Quiet s' :=
  ⟨by rw [h.source], by rw [h.source], fun _ => h.bootstrapped, h.released, by rw [h.source], .inl h.stage⟩

/-- **Which steps are not quiet**: bootstrap's drain, the end of its catch-up, its end, and a block handed
on. -/
theorem step_cases (c : Chain) (addresses : List Address) (s : Pipeline) (a : Action) :
    (∃ latest, a = .bootDrain latest ∧ s.stage = .created) ∨
    (∃ drained, a = .bootTakeGaps ∧ s.stage = .catchingUp drained) ∨
    (∃ drained events filled, a = .bootDone ∧ s.stage = .bootFilling drained events filled ∧ s.taken = []) ∨
    (∃ r, a = .handOn ∧ s.stage = .settled r) ∨
    s.Quiet (s.step c addresses a) ∧ (a = .bootTakeGaps → ∀ drained, s.stage ≠ .catchingUp drained) ∧
      (a = .bootDone → ∀ drained events filled, s.stage = .bootFilling drained events filled → s.taken ≠ []) ∧
      (a = .handOn → ∀ r, s.stage ≠ .settled r) := by
  have hfeed : a.ofFeed = true → s.Quiet (s.step c addresses a) := fun h => .of_feed (sameSource_feed h)
  unfold Pipeline.step
  cases a with
  | subscribe | disconnect | miss | overflow | deliver | send =>
    exact .inr (.inr (.inr (.inr ⟨hfeed rfl, nofun, nofun, nofun⟩)))
  | bootDrain latest =>
    by_cases hst : s.stage = .created
    · exact .inl ⟨latest, rfl, hst⟩
    · refine .inr (.inr (.inr (.inr ⟨?_, nofun, nofun, nofun⟩)))
      unfold Pipeline.bootDrain
      dsimp only
      split
      · next h => exact absurd h hst
      · exact .refl s
  | bootTakeGaps =>
    by_cases hst : ∃ drained, s.stage = .catchingUp drained
    · obtain ⟨drained, hst⟩ := hst
      exact .inr (.inl ⟨drained, rfl, hst⟩)
    · refine .inr (.inr (.inr (.inr ⟨?_, fun _ d hd => hst ⟨d, hd⟩, nofun, nofun⟩)))
      unfold Pipeline.bootTakeGaps
      dsimp only
      split
      · next d h => exact absurd ⟨d, h⟩ hst
      · exact .refl s
  | bootGap =>
    refine .inr (.inr (.inr (.inr ⟨?_, nofun, nofun, nofun⟩)))
    unfold Pipeline.bootGap
    dsimp only
    split
    · next hst _ =>
      split
      · exact ⟨rfl, rfl, fun hb => (Bool.false_ne_true (hb.symm.trans (by rw [hst]; rfl))).elim, rfl, le_rfl,
          .inr (.inr ⟨⟨_, _, _, hst⟩, _, _, _, rfl⟩)⟩
      · exact ⟨rfl, rfl, fun _ => rfl, rfl, le_rfl, .inr (.inr ⟨⟨_, _, _, hst⟩, _, _, _, rfl⟩)⟩
    · exact .refl s
  | bootDone =>
    by_cases hst : ∃ drained events filled, s.stage = .bootFilling drained events filled ∧ s.taken = []
    · obtain ⟨drained, events, filled, hst, ht⟩ := hst
      exact .inr (.inr (.inl ⟨drained, events, filled, rfl, hst, ht⟩))
    · refine .inr (.inr (.inr (.inr ⟨?_, nofun, fun _ d e f hd ht => hst ⟨d, e, f, hd, ht⟩, nofun⟩)))
      unfold Pipeline.bootDone
      dsimp only
      split
      · next h ht => exact absurd ⟨_, _, _, h, ht⟩ hst
      · exact .refl s
  | intake now =>
    refine .inr (.inr (.inr (.inr ⟨?_, nofun, nofun, nofun⟩)))
    unfold Pipeline.intake
    dsimp only
    split
    · next hst =>
      exact ⟨rfl, rfl, fun _ => rfl, rfl, (BlockSettler.add_releasedThrough ..).ge, .inr (.inl ⟨by rw [hst]; rfl, rfl⟩)⟩
    · exact .refl s
  | takeGaps =>
    refine .inr (.inr (.inr (.inr ⟨?_, nofun, nofun, nofun⟩)))
    unfold Pipeline.takeGaps
    dsimp only
    split
    · next hst => exact ⟨rfl, rfl, fun _ => rfl, rfl, le_rfl, .inr (.inl ⟨by rw [hst]; rfl, rfl⟩)⟩
    · exact .refl s
  | fill now =>
    refine .inr (.inr (.inr (.inr ⟨?_, nofun, nofun, nofun⟩)))
    unfold Pipeline.fill
    dsimp only
    split
    · exact ⟨rfl, rfl, fun _ => rfl, rfl, (BlockSettler.add_releasedThrough ..).ge, .inl rfl⟩
    · exact .refl s
  | takeReady now =>
    refine .inr (.inr (.inr (.inr ⟨?_, nofun, nofun, nofun⟩)))
    unfold Pipeline.takeReady
    dsimp only
    split
    · next hst _ =>
      have hboots : s.stage.boots = false := by
        rw [hst]
        rfl
      rcases hr : s.source.settler.takeReady now with ⟨st, _ | x⟩
      · rw [BlockSettler.takeReady_none hr]
        exact ⟨rfl, rfl, fun _ => rfl, rfl, le_rfl, .inr (.inl ⟨hboots, rfl⟩)⟩
      · refine ⟨rfl, rfl, fun _ => rfl, rfl, ?_, .inr (.inl ⟨hboots, rfl⟩)⟩
        rw [(BlockSettler.takeReady_some hr).released]
        exact le_max_left ..
    · exact .refl s
  | handOn =>
    by_cases hst : ∃ r, s.stage = .settled r
    · obtain ⟨r, hst⟩ := hst
      exact .inr (.inr (.inr (.inl ⟨r, rfl, hst⟩)))
    · refine .inr (.inr (.inr (.inr ⟨?_, nofun, nofun, fun _ r hr => hst ⟨r, hr⟩⟩)))
      unfold Pipeline.handOn
      dsimp only
      split
      · next r h => exact absurd ⟨r, h⟩ hst
      · exact .refl s

end

end Pipeline

/-! ## The session -/

inductive Phase
  | running
  | stopped
  | panicked
deriving DecidableEq, Repr

structure Session (π : Type) where
  registry : PoolRegistry π
  pipeline : Pipeline
  eventProcessor : EventProcessor
  phase : Phase

/-- `catchup_registry_to_block` (handle.rs:722). -/
def catchupRegistryToBlock {π : Type} [PoolInterface π] (c : Chain) (env : Env) (fromBlock toBlock : Nat)
    (r : PoolRegistry π) : PoolRegistry π × Except Fault Unit :=
  catchupEvents env.clock (r.enrichIfLbPoolsPresent env.times (c.getLogs r.getAllAddresses r.topics fromBlock toBlock)) r

namespace Session
variable {π : Type} [PoolInterface π]

/-- A step of the feed, the listener or the source, with what else the updater meets in it; or the stop
signal. -/
inductive Action
  | turn (env : Env) (a : Pipeline.Action)
  | stop

/-- A new updater over a new feed (`spawn_updater`): the topics are those registered now. -/
def start (c : Chain) (r : PoolRegistry π) (swapEventTx : Bool) (maxEvents maxBlocksPerBatch blockSettle : Nat) :
    Session π where
  registry := r
  pipeline := .init c r.getAllAddresses r.topics maxEvents maxBlocksPerBatch blockSettle
  eventProcessor := ⟨swapEventTx, r.profitableTopics⟩
  phase := .running

/-- The batch of a block taken from the settler (block_source.rs:972-999). -/
def batchOf (s : Session π) (env : Env) (r : Settled) : EventBatch where
  events := s.registry.enrichIfLbPoolsPresent env.times r.logs
  processingMode := s.pipeline.source.modeOf r
  processedThroughBlock := some r.processedThrough

/-- What the step does to the registry. -/
def work (s : Session π) (c : Chain) (env : Env) (a : Pipeline.Action) : PoolRegistry π × Except Fault Unit :=
  match a, s.pipeline.stage, s.pipeline.taken with
  | .bootTakeGaps, .catchingUp _, _ => s.pipeline.source.catchUp c env s.registry
  | .bootDone, .bootFilling _ events filled, [] =>
    s.pipeline.source.applyBuffered env (if filled then WebsocketBlockSource.byPosition events else events) s.registry
  | .handOn, .settled r, _ => UnifiedPoolUpdater.process s.eventProcessor env (s.batchOf env r) s.registry
  | _, _, _ => (s.registry, .ok ())

/-- The cancel branch is there once bootstrap has returned. -/
def stop (s : Session π) : Session π :=
  if s.phase = .running ∧ s.pipeline.stage.boots = false then { s with phase := .stopped } else s

def step (c : Chain) (s : Session π) : Action → Session π
  | .stop => s.stop
  | .turn env a =>
    if s.phase = .running then
      match s.work c env a with
      | (r, .ok ()) => { s with registry := r, pipeline := s.pipeline.step c r.getAllAddresses a }
      | (r, .error _) => { s with registry := r, phase := .panicked }
    else s

end Session

/-! ## What has been applied, and what waits -/

namespace Pipeline

section
variable (c : Chain) (addresses : List Address) (s : Pipeline)

/-- In the loop of `next_batch`: what bootstrap and the released blocks have given the pools. -/
def applied (l : Log) : Bool := l.place < s.source.fillFloor ∨ l ∈ s.bootstrapped ∨ l ∈ s.releasedLogs

/-- A log at or after the floor that is not applied: still to come, lost and not noticed yet, in the queue,
in a gap, with the settler, or in the block just taken from it. -/
def Waiting (l : Log) : Prop :=
  (s.source.fillFloor ≤ l.place ∧ (l ∈ s.ahead ∨ l ∈ s.behind ∧ ¬ s.progress.lastForwarded.any (l.place ≤ ·))) ∨
    l ∈ s.inQueue ∨ l ∈ s.inGaps c addresses ∨ s.Held l ∨ l ∈ s.stage.logs

end

variable {c : Chain} {addresses : List Address} {s : Pipeline}

theorem applied_iff {l : Log} :
    s.applied l ↔ l.place < s.source.fillFloor ∨ l ∈ s.bootstrapped ∨ l ∈ s.releasedLogs := decide_eq_true_iff

theorem applied_or_waiting (h : s.Sound c addresses) (hs : s.Settling) {l : Log}
    (hl : l ∈ c.relevant addresses s.source.topics) : s.applied l ∨ s.Waiting c addresses l := by
  rw [applied_iff]
  by_cases hf : l.place < s.source.fillFloor
  · exact .inl (.inl hf)
  have hf := not_lt.1 hf
  have hwire := hl
  rw [← h.wire] at hwire
  by_cases hp : s.progress.lastForwarded.any (l.place ≤ ·) = true
  · have hdue : l ∈ s.due c addresses := List.mem_filter.2 ⟨hl, decide_eq_true ⟨hf, hp⟩⟩
    have hacc := h.perm.1.mem_iff.2 hdue
    simp only [List.mem_append] at hacc
    rcases hacc with ((hb | hh) | hq) | hg
    · exact .inl (.inr (.inl hb))
    · -- with the settler, or what it has released
      have hcount := hs.count l
      have hpos := List.count_pos_iff.2 hh
      by_cases hr : l ∈ s.releasedLogs
      · exact .inl (.inr (.inr hr))
      · by_cases hst : l ∈ s.stage.logs
        · exact .inr (.inr (.inr (.inr (.inr hst))))
        · refine .inr (.inr (.inr (.inr (.inl ⟨l.block, List.count_pos_iff.1 ?_⟩))))
          rw [List.count_eq_zero_of_not_mem hr, List.count_eq_zero_of_not_mem hst] at hcount
          omega
    · exact .inr (.inr (.inl hq))
    · exact .inr (.inr (.inr (.inl hg)))
  · rcases List.mem_append.1 hwire with hb | ha
    · exact .inr (.inl ⟨hf, .inr ⟨hb, hp⟩⟩)
    · exact .inr (.inl ⟨hf, .inl ha⟩)

/-- What came out of the queue is of the chain, and not before the floor. -/
theorem Sound.past_floor (h : s.Sound c addresses) {l : Log} (hl : l ∈ s.bootstrapped ++ s.handed) :
    l ∈ c.logs ∧ s.source.fillFloor ≤ l.place := by
  have hp := List.mem_filter.1 (h.mem_passed (List.mem_append_left _ (List.mem_append_left _ hl)))
  have hwire : l ∈ s.behind ++ s.ahead := List.mem_append_left _ hp.1
  rw [h.wire] at hwire
  exact ⟨(List.mem_filter.1 hwire).1, (of_decide_eq_true hp.2).1⟩

/-- One feed's buffered logs are each there once. -/
theorem Sound.buffered (h : s.Sound c addresses) (hs : s.Settling) {drained events : List Log} {filled : Bool}
    (hst : s.stage = .bootFilling drained events filled) :
    (∀ l ∈ events, l ∈ c.logs ∧ s.source.fillFloor ≤ l.place) ∧ events.Nodup := by
  have hboot := hs.events _ _ _ hst
  refine ⟨fun l hl => h.past_floor (List.mem_append_left _ (hboot ▸ hl)), ?_⟩
  rw [← hboot]
  exact (List.nodup_append.1 (List.nodup_append.1 (List.nodup_append.1 h.nodup).1).1).1

/-- The logs of the block taken are each there once, and are not applied yet. -/
theorem settled_fresh (h : s.Sound c addresses) (hs : s.Settling) (hu : s.Unpriced) {r : Settled}
    (hst : s.stage = .settled r) : r.logs.Nodup ∧ ∀ l ∈ r.logs, ¬ s.applied l := by
  have hnodup := h.nodup
  have hhanded := (List.nodup_append.1 (List.nodup_append.1 (List.nodup_append.1 hnodup).1).1)
  have hcount : ∀ l, s.releasedLogs.count l + r.logs.count l ≤ 1 := by
    intro l
    have hc := hs.count l
    rw [hst] at hc
    change _ = _ + r.logs.count l + _ at hc
    have hone := List.nodup_iff_count_le_one.1 hhanded.2.1 l
    omega
  refine ⟨List.nodup_iff_count_le_one.2 fun l => (Nat.le_add_left ..).trans (hcount l), fun l hl happ => ?_⟩
  have hh := (hu.settled r hst l hl).2
  rcases applied_iff.1 happ with hf | hb | hr
  · have hpassed := h.mem_passed (List.mem_append_left _ (List.mem_append_left _ (List.mem_append_right _ hh)))
    exact absurd hf (not_lt.2 (of_decide_eq_true (List.mem_filter.1 hpassed).2).1)
  · exact hhanded.2.2 l hb l hh rfl
  · have hc := hcount l
    have h1 := List.count_pos_iff.2 hr
    have h2 := List.count_pos_iff.2 hl
    omega

end Pipeline

/-! ## The registry keeps step with the source -/

section
variable {π : Type} [PoolInterface π] {c : Chain} {r r' : PoolRegistry (Traced π)} {s : Pipeline}

namespace PoolRegistry

theorem Gives.subscribed {ls : List Log} (h : r.Gives ls r') (hs : r.Subscribed) : r'.Subscribed := by
  intro a q hq t ht
  have hl := h.ledger a
  unfold PoolRegistry.ledger at hl
  rw [hq] at hl
  cases hp : r.getPool a with
  | none =>
    rw [hp] at hl
    cases hl
  | some p =>
    rw [hp] at hl
    have htype : PoolInterface.poolType q = PoolInterface.poolType p := congrArg Prod.fst (Option.some.inj hl)
    rw [h.topics]
    exact hs a p hp t (htype ▸ ht)

/-- A subscribed registry's filter lets through every log of its pools. -/
theorem Subscribed.relevant (h : r.Subscribed) {l : Log} (hl : l ∈ c.logs) (hc : r.Concerned l) :
    l ∈ c.relevant r.getAllAddresses r.topics := by
  obtain ⟨p, hp, hcon⟩ := hc
  obtain ⟨t, ht, htopic⟩ := (Option.any_eq_true ..).1 hcon
  have ha : l.address ∈ r.getAllAddresses := mem_of_ledger (r := r) (e := (PoolInterface.poolType p, p.given)) (by
    unfold ledger
    rw [hp]
    rfl)
  exact List.mem_filter.2 ⟨hl, decide_eq_true ⟨.inr ha, .inr ⟨t, h _ p hp t (of_decide_eq_true htopic), ht⟩⟩⟩

end PoolRegistry

/-- The pools hold what the source has been through: up to the cursor before bootstrap's catch-up, up to
the floor after it, and in the loop what is applied, nothing of which is past the cursor. -/
structure InStep (c : Chain) (r : PoolRegistry (Traced π)) (s : Pipeline) : Prop where
  topics : s.source.topics = r.topics
  subscribed : r.Subscribed
  saved : s.stage = .created ∨ (∃ drained, s.stage = .catchingUp drained) → r.Holds c fun l => l.block ≤ r.lastProcessedBlock
  boundary : ∀ drained, s.stage = .catchingUp drained → s.source.fillFloor.block < 2 ^ 64 ∧
    ∀ l ∈ c.logs, r.Concerned l → s.source.fillFloor ≤ l.place → r.lastProcessedBlock < l.block
  filling : ∀ drained events filled, s.stage = .bootFilling drained events filled →
    r.Holds c fun l => l.place < s.source.fillFloor
  applied : s.stage.boots = false → r.Holds c s.applied
  covered : s.stage.boots = false → ∀ l ∈ c.logs, r.Concerned l → s.applied l → l.block ≤ r.lastProcessedBlock
  through : s.stage.boots = false → r.lastProcessedBlock ≤ s.source.settler.releasedThrough

namespace InStep

/-- A step that gives the pools nothing. -/
theorem quiet (h : InStep c r s) {s' : Pipeline} (hq : s.Quiet s') : InStep c r s' := by
  have happ : s.stage.boots = false → s'.applied = s.applied := fun hb => by
    unfold Pipeline.applied Pipeline.releasedLogs
    rw [hq.floor, hq.bootstrapped hb, hq.released]
  rcases hq.stage with hst | ⟨hb, hb'⟩ | ⟨⟨d, e, f, hst⟩, d', e', f', hst'⟩
  · refine ⟨hq.topics.trans h.topics, h.subscribed, ?_, ?_, ?_, fun hb => ?_, fun hb => ?_, fun hb => ?_⟩
    · rw [hst]
      exact h.saved
    · rw [hst, hq.floor]
      exact h.boundary
    · rw [hst, hq.floor]
      exact h.filling
    · rw [hst] at hb
      rw [happ hb]
      exact h.applied hb
    · rw [hst] at hb
      rw [happ hb]
      exact h.covered hb
    · rw [hst] at hb
      exact (h.through hb).trans hq.through
  · -- in the loop
    have hno : ∀ {st : Stage}, s'.stage = st → st.boots = false := fun hst => hst ▸ hb'
    refine ⟨hq.topics.trans h.topics, h.subscribed, ?_, fun d hd => Bool.noConfusion (hno hd),
      fun d e f hd => Bool.noConfusion (hno hd), fun _ => ?_, fun _ => ?_, fun _ => (h.through hb).trans hq.through⟩
    · rintro (hd | ⟨d, hd⟩)
      · exact Bool.noConfusion (hno hd)
      · exact Bool.noConfusion (hno hd)
    · rw [happ hb]
      exact h.applied hb
    · rw [happ hb]
      exact h.covered hb
  · -- a gap of bootstrap's
    have hboots : ∀ b, s'.stage.boots = b → b = true := by
      rintro b rfl
      rw [hst']
      rfl
    have hfilling := h.filling _ _ _ hst
    refine ⟨hq.topics.trans h.topics, h.subscribed, fun hd => ?_, fun _ hd => ?_, fun _ _ _ _ => ?_,
      fun hb => Bool.noConfusion (hboots _ hb), fun hb => Bool.noConfusion (hboots _ hb),
      fun hb => Bool.noConfusion (hboots _ hb)⟩
    · rw [hst'] at hd
      rcases hd with hd | ⟨_, hd⟩
      · cases hd
      · cases hd
    · rw [hst'] at hd
      cases hd
    · rw [hq.floor]
      exact hfilling

theorem bootDrain (h : InStep c r s) {latest : Nat} (hl : latest < 2 ^ 64)
    (hq : ∀ l ∈ s.queue.queue, l.Mined) (hst : s.stage = .created)
    (hc : ∀ l ∈ c.logs, r.Concerned l →
      WebsocketBlockSource.firstQueuedPosition latest s.queue.queue ≤ l.place → r.lastProcessedBlock < l.block) :
    InStep c r (s.bootDrain latest) := by
  unfold Pipeline.bootDrain
  rw [hst]
  refine ⟨h.topics, h.subscribed, fun _ => h.saved (.inl hst), fun d _ => ⟨?_, hc⟩, fun _ _ _ hd => Stage.noConfusion hd,
    fun hb => (Bool.false_ne_true hb.symm).elim, fun hb => (Bool.false_ne_true hb.symm).elim,
    fun hb => (Bool.false_ne_true hb.symm).elim⟩
  exact WebsocketBlockSource.firstQueuedPosition_block hl hq

/-- The catch-up brings the pools up to the floor. -/
theorem bootTakeGaps (h : InStep c r s) {env : Env} {drained : List Log} (hst : s.stage = .catchingUp drained)
    (hw : s.source.catchUp c env r = (r', .ok ())) : InStep c r' s.bootTakeGaps := by
  obtain ⟨hf, hc⟩ := h.boundary _ hst
  obtain ⟨hcursor, hgives⟩ := WebsocketBlockSource.catchUp_ok hf hw
  unfold Pipeline.bootTakeGaps
  rw [hst]
  refine ⟨h.topics.trans hgives.topics.symm, hgives.subscribed h.subscribed, fun hd => ?_, fun _ hd => Stage.noConfusion hd,
    fun _ _ _ _ => ?_, fun hb => (Bool.false_ne_true hb.symm).elim, fun hb => (Bool.false_ne_true hb.symm).elim,
    fun hb => (Bool.false_ne_true hb.symm).elim⟩
  · rcases hd with hd | ⟨_, hd⟩
    · cases hd
    · cases hd
  · refine hgives.holds (h.saved (.inr ⟨_, hst⟩)) ((c.relevant_nodup ..).sublist List.filter_sublist)
      (fun l hl => (List.mem_filter.1 (List.mem_filter.1 hl).1).1) fun a e he l hl ho => ?_
    have hcon := PoolRegistry.concerned_of_owned he ho
    have hrel := h.subscribed.relevant hl hcon
    rw [← h.topics] at hrel
    simp only [List.mem_filter, hrel, decide_eq_true_eq, true_and]
    constructor
    · refine ⟨fun hlt => ?_, ?_⟩
      · by_cases hle : l.block ≤ r.lastProcessedBlock
        · exact .inl hle
        · exact .inr ⟨not_le.1 hle, hlt⟩
      · rintro (hle | ⟨-, hlt⟩)
        · exact not_le.1 fun hf => absurd (hc l hl hcon hf) (not_lt.2 hle)
        · exact hlt
    · rintro ⟨hle, hlt, -⟩
      exact absurd hlt (not_lt.2 hle)

/-- The buffered logs, in whatever order, and the settler starts at the last of their blocks. -/
theorem bootDone (h : InStep c r s) (hse : s.Settling) {env : Env} {drained events : List Log} {filled : Bool}
    (hst : s.stage = .bootFilling drained events filled) (ht : s.taken = [])
    (hpassed : ∀ l ∈ events, l ∈ c.logs ∧ s.source.fillFloor ≤ l.place) (hnodup : events.Nodup)
    (hw : s.source.applyBuffered env (if filled then WebsocketBlockSource.byPosition events else events) r =
      (r', .ok ())) : InStep c r' s.bootDone := by
  have hperm : (if filled then WebsocketBlockSource.byPosition events else events).Perm events := by
    split
    · exact List.perm_insertionSort ..
    · exact .refl _
  obtain ⟨hcursor, hgives⟩ := WebsocketBlockSource.applyBuffered_ok hw
  rw [WebsocketBlockSource.bootstrapBlock_perm hperm] at hcursor
  have hboot := hse.events _ _ _ hst
  have hrel := (hse.boots (by rw [hst]; rfl)).2
  have hnumber : ∀ l ∈ events, l.blockNumber = some l.block := fun l hl => (c.mined l (hpassed l hl).1).blockNumber
  have hdone : s.bootDone = { s with
      source := { s.source with settler := .new s.source.blockSettle (s.source.bootstrapBlock events) }
      stage := .draining } := by
    unfold Pipeline.bootDone
    rw [hst, ht]
  have happ : ∀ l, s.bootDone.applied l ↔ l.place < s.source.fillFloor ∨ l ∈ events := by
    intro l
    rw [hdone, Pipeline.applied_iff]
    unfold Pipeline.releasedLogs
    dsimp only
    rw [hrel, hboot]
    simp
  have hstage : ∀ {st : Stage}, s.bootDone.stage = st → st = .draining := by
    rintro st rfl
    rw [hdone]
  refine ⟨?_, hgives.subscribed h.subscribed, fun hd => ?_, fun _ hd => Stage.noConfusion (hstage hd),
    fun _ _ _ hd => Stage.noConfusion (hstage hd), fun _ => ?_, fun _ l hl hcon hl' => ?_, fun _ => ?_⟩
  · rw [hdone]
    exact h.topics.trans hgives.topics.symm
  · rcases hd with hd | ⟨_, hd⟩
    · cases hstage hd
    · cases hstage hd
  · refine hgives.holds (h.filling _ _ _ hst) (hperm.nodup_iff.2 hnodup)
      (fun l hl => (hpassed l (hperm.mem_iff.1 hl)).1) fun a e he l hl ho => ?_
    rw [happ, hperm.mem_iff]
    simp only [decide_eq_true_eq, true_and]
    exact fun ⟨hlt, hle⟩ => absurd hlt (not_lt.2 (hpassed l hle).2)
  · rw [hcursor]
    rcases (happ l).1 hl' with hlt | hle
    · exact (LogPosition.block_le hlt.le).trans
        (WebsocketBlockSource.fillFloor_le_bootstrapBlock fun l hl => ⟨hnumber l hl, (hpassed l hl).2⟩)
    · exact WebsocketBlockSource.le_bootstrapBlock hle (hnumber l hle)
  · rw [hdone]
    exact hcursor.le

/-- What a batch of mined logs gives. -/
theorem gives_of_batch {proc : EventProcessor} {env : Env} {b : EventBatch} {ls : List Log} {through : Nat}
    (hmem : ∀ l ∈ ls, l ∈ c.logs) (hevents : b.events = r.enrichIfLbPoolsPresent env.times ls)
    (hmode : b.processingMode ≠ .Pending) (hblock : b.processedThroughBlock = some through)
    (hw : UnifiedPoolUpdater.process proc env b r = (r', .ok ())) :
    r.Gives ls r' ∧ r'.lastProcessedBlock = through := by
  have hreport : Reportable env.clock proc b.events r := by
    refine UnifiedPoolUpdater.reportable_of_process (fun l hl => ?_) hmode (congrArg Prod.snd hw)
    rw [hevents] at hl
    obtain ⟨y, hy, rfl⟩ := List.mem_map.1 hl
    exact ((c.mined y (hmem y hy)).fillBlockTimestamp ..).sendable proc
  rw [UnifiedPoolUpdater.process_eq hreport hmode through hblock] at hw
  have hreg := congrArg Prod.fst hw
  dsimp only at hreg
  rw [← hreg]
  have hg := PoolRegistry.gives_replayed env.clock r b.events
  rw [hevents] at hg ⊢
  exact ⟨⟨hg.of_enriched.ledger, hg.of_enriched.addresses, hg.of_enriched.topics⟩, rfl⟩

/-- What a batch of the block taken gives. -/
theorem gives_of_process (hs : s.Sound c r.getAllAddresses) (hu : s.Unpriced) {proc : EventProcessor} {env : Env}
    {b : EventBatch} {x : Settled} (hst : s.stage = .settled x)
    (hevents : b.events = r.enrichIfLbPoolsPresent env.times x.logs) (hmode : b.processingMode ≠ .Pending)
    (hblock : b.processedThroughBlock = some x.processedThrough)
    (hw : UnifiedPoolUpdater.process proc env b r = (r', .ok ())) :
    (∀ l ∈ x.logs, l ∈ c.logs ∧ l.block = x.block) ∧ r.Gives x.logs r' ∧ r'.lastProcessedBlock = x.processedThrough := by
  have hmem : ∀ l ∈ x.logs, l ∈ c.logs ∧ l.block = x.block := by
    intro l hl
    obtain ⟨hb, hh⟩ := hu.settled x hst l hl
    exact ⟨(hs.past_floor (List.mem_append_right _ hh)).1, hb⟩
  exact ⟨hmem, gives_of_batch (fun l hl => (hmem l hl).1) hevents hmode hblock hw⟩

/-- A block handed on. -/
theorem handOn (h : InStep c r s) (hse : s.Settling) {x : Settled} (hst : s.stage = .settled x)
    (hmem : ∀ l ∈ x.logs, l ∈ c.logs ∧ l.block = x.block) (hnodup : x.logs.Nodup) (hfresh : ∀ l ∈ x.logs, ¬s.applied l)
    (hgives : r.Gives x.logs r') (hcursor : r'.lastProcessedBlock = x.processedThrough) : InStep c r' s.handOn := by
  obtain ⟨hthrough, hle⟩ := hse.through x hst
  have hboots : s.stage.boots = false := by
    rw [hst]
    rfl
  have hdone : s.handOn = { s with stage := .draining, released := s.released ++ [(x, s.source.modeOf x)] } := by
    unfold Pipeline.handOn
    rw [hst]
  have happ : ∀ l, s.handOn.applied l ↔ s.applied l ∨ l ∈ x.logs := by
    intro l
    rw [hdone, Pipeline.applied_iff, Pipeline.applied_iff]
    unfold Pipeline.releasedLogs
    dsimp only
    rw [List.flatMap_append, List.mem_append, or_assoc, or_assoc]
    simp
  have hstage : ∀ {st : Stage}, s.handOn.stage = st → st = .draining := by
    rintro st rfl
    rw [hdone]
  have hold : ∀ l ∈ c.logs, r.Concerned l → s.applied l → l.block ≤ x.processedThrough := by
    intro l hl hcon hl'
    rw [hthrough]
    exact (h.covered hboots l hl hcon hl').trans (h.through hboots)
  refine ⟨?_, hgives.subscribed h.subscribed, fun hd => ?_, fun _ hd => Stage.noConfusion (hstage hd),
    fun _ _ _ hd => Stage.noConfusion (hstage hd), fun _ => ?_, fun _ l hl hcon hl' => ?_, fun _ => ?_⟩
  · rw [hdone]
    exact h.topics.trans hgives.topics.symm
  · rcases hd with hd | ⟨_, hd⟩
    · cases hstage hd
    · cases hstage hd
  · refine hgives.holds (h.applied hboots) hnodup (fun l hl => (hmem l hl).1) fun a e he l hl ho => ?_
    exact ⟨happ l, fun ⟨hl', hx⟩ => hfresh l hx hl'⟩
  · rw [hcursor]
    rcases (happ l).1 hl' with hl' | hx
    · exact hold l hl ((hgives.concerned l).1 hcon) hl'
    · rw [(hmem l hx).2]
      exact hle
  · rw [hdone]
    exact (hcursor.trans hthrough).le

end InStep

end

/-! ## Runs -/

namespace Session
variable {π : Type} [PoolInterface π] {c : Chain} {s : Session (Traced π)}

/-- Bootstrap's drain finds no log of a pool, from the floor on, that the cursor covers, and at a stop no
log of a pool that the cursor covers is waiting. -/
def Meets (c : Chain) (s : Session (Traced π)) : Action → Prop
  | .turn _ (.bootDrain latest) => s.pipeline.stage = .created → latest < 2 ^ 64 ∧
      ∀ l ∈ c.logs, s.registry.Concerned l →
        WebsocketBlockSource.firstQueuedPosition latest s.pipeline.queue.queue ≤ l.place →
        s.registry.lastProcessedBlock < l.block
  | .stop => s.pipeline.stage.boots = false → ∀ l ∈ c.logs, s.registry.Concerned l →
      s.pipeline.Waiting c s.registry.getAllAddresses l → s.registry.lastProcessedBlock < l.block
  | _ => True

structure Kept (c : Chain) (s : Session (Traced π)) : Prop where
  sound : s.pipeline.Sound c s.registry.getAllAddresses
  unpriced : s.pipeline.Unpriced
  settling : s.pipeline.Settling
  inStep : InStep c s.registry s.pipeline

/-- Each pool includes its logs up to the cursor and no other, each once, and whatever block the registry
is caught up to from there, up to that block. -/
structure Restarts (c : Chain) (r : PoolRegistry (Traced π)) : Prop where
  exact : r.Holds c fun l => l.block ≤ r.lastProcessedBlock
  caughtUp : ∀ env b r', r.lastProcessedBlock ≤ b →
    catchupRegistryToBlock c env (r.lastProcessedBlock + 1) b r = (r', .ok ()) → r'.Holds c fun l => l.block ≤ b

/-- Catching up from an exact cursor is exact. -/
theorem Restarts.of_exact {r : PoolRegistry (Traced π)} (h : r.Holds c fun l => l.block ≤ r.lastProcessedBlock)
    (hs : r.Subscribed) : Restarts c r := by
  refine ⟨h, fun env b r' hb hw => ?_⟩
  unfold catchupRegistryToBlock at hw
  rw [catchupEvents_ok hw]
  have hgives := (PoolRegistry.gives_replayed env.clock r (r.enrichIfLbPoolsPresent env.times
    (c.getLogs r.getAllAddresses r.topics (r.lastProcessedBlock + 1) b))).of_enriched
  refine hgives.holds h (c.nodup.sublist List.filter_sublist) (fun l hl => (List.mem_filter.1 hl).1) fun a e he l hl ho => ?_
  have hrel := (List.mem_filter.1 (hs.relevant hl (PoolRegistry.concerned_of_owned he ho))).2
  unfold Chain.getLogs
  simp only [List.mem_filter, hl, hrel, decide_eq_true_eq, true_and, and_true]
  omega

theorem batchOf_mode {π : Type} [PoolInterface π] (s : Session π) (env : Env) (x : Settled) :
    (s.batchOf env x).processingMode ≠ .Pending := by
  unfold batchOf WebsocketBlockSource.modeOf
  dsimp only
  split <;> simp

theorem Kept.gives_of_handOn (h : s.Kept c) {env : Env} {x : Settled} (hst : s.pipeline.stage = .settled x)
    {r : PoolRegistry (Traced π)} (hw : s.work c env .handOn = (r, .ok ())) :
    (∀ l ∈ x.logs, l ∈ c.logs ∧ l.block = x.block) ∧ s.registry.Gives x.logs r ∧
      r.lastProcessedBlock = x.processedThrough := by
  unfold work at hw
  rw [hst] at hw
  exact InStep.gives_of_process h.sound h.unpriced hst rfl (s.batchOf_mode env x) rfl hw

/-- Only the end of bootstrap's catch-up, its end and a block handed on do anything to the registry. -/
theorem work_idle {π : Type} [PoolInterface π] {s : Session π} {env : Env} {a : Pipeline.Action}
    (htake : a = .bootTakeGaps → ∀ drained, s.pipeline.stage ≠ .catchingUp drained)
    (hdone : a = .bootDone → ∀ drained events filled, s.pipeline.stage = .bootFilling drained events filled →
      s.pipeline.taken ≠ [])
    (hhand : a = .handOn → ∀ x, s.pipeline.stage ≠ .settled x) : s.work c env a = (s.registry, .ok ()) := by
  unfold work
  split
  · next hst => exact absurd hst (htake rfl _)
  · next hst ht => exact absurd ht (hdone rfl _ _ _ hst)
  · next hst => exact absurd hst (hhand rfl _)
  · rfl

theorem Kept.turn (h : s.Kept c) {env : Env} {a : Pipeline.Action} (hm : s.Meets c (.turn env a))
    {r : PoolRegistry (Traced π)} (hw : s.work c env a = (r, .ok ())) :
    InStep c r (s.pipeline.step c s.registry.getAllAddresses a) := by
  have hin := h.inStep
  rcases s.pipeline.step_cases c s.registry.getAllAddresses a with ⟨latest, rfl, hst⟩ | ⟨drained, rfl, hst⟩ |
    ⟨drained, events, filled, rfl, hst, ht⟩ | ⟨x, rfl, hst⟩ | ⟨hquiet, htake, hdone, hhand⟩
  · cases hw
    obtain ⟨hl, hc⟩ := hm hst
    exact hin.bootDrain hl (fun l hl => h.sound.mined (h.sound.queued l (List.mem_append_left _ hl)).1) hst hc
  · unfold work at hw
    rw [hst] at hw
    exact hin.bootTakeGaps hst hw
  · unfold work at hw
    rw [hst, ht] at hw
    obtain ⟨hpassed, hnodup⟩ := h.sound.buffered h.settling hst
    exact hin.bootDone h.settling hst ht hpassed hnodup hw
  · obtain ⟨hmem, hgives, hcursor⟩ := h.gives_of_handOn hst hw
    obtain ⟨hnodup, hfresh⟩ := Pipeline.settled_fresh h.sound h.settling h.unpriced hst
    exact hin.handOn h.settling hst hmem hnodup hfresh hgives hcursor
  · rw [work_idle htake hdone hhand] at hw
    cases hw
    exact hin.quiet hquiet

/-- No step adds a pool or drops one. -/
theorem Kept.addresses (h : s.Kept c) {env : Env} {a : Pipeline.Action} {r : PoolRegistry (Traced π)}
    (hw : s.work c env a = (r, .ok ())) : r.getAllAddresses = s.registry.getAllAddresses := by
  have hwork := hw
  unfold work at hwork
  split at hwork
  · next hst => exact (WebsocketBlockSource.catchUp_ok (h.inStep.boundary _ hst).1 hwork).2.addresses
  · exact (WebsocketBlockSource.applyBuffered_ok hwork).2.addresses
  · next hst => exact (h.gives_of_handOn hst hw).2.1.addresses
  · exact congrArg (fun out => out.1.getAllAddresses) hwork.symm

/-- While the session runs the registry is in step with its source; once it has stopped the cursor is
exact. -/
def Left (c : Chain) (s : Session (Traced π)) : Prop :=
  (s.phase = .running → s.Kept c) ∧ (s.phase = .stopped → Restarts c s.registry)

theorem Kept.stop (h : s.Kept c) (hm : s.Meets c .stop) (hb : s.pipeline.stage.boots = false) :
    Restarts c s.registry := by
  have hin := h.inStep
  refine .of_exact ((hin.applied hb).congr fun a e he l hl ho => ?_) hin.subscribed
  have hcon := PoolRegistry.concerned_of_owned he ho
  refine ⟨fun hl' => decide_eq_true (hin.covered hb l hl hcon hl'), fun hle => ?_⟩
  have hrel := hin.subscribed.relevant hl hcon
  rw [← hin.topics] at hrel
  exact (Pipeline.applied_or_waiting h.sound h.settling hrel).resolve_right fun hw =>
    absurd (hm hb l hl hcon hw) (not_lt.2 (of_decide_eq_true hle))

theorem Left.step (h : s.Left c) {x : Action} (hm : s.Meets c x) : (s.step c x).Left c := by
  cases x with
  | stop =>
    unfold Session.step Session.stop
    dsimp only
    split
    · next hp => exact ⟨fun hr => Phase.noConfusion hr, fun _ => (h.1 hp.1).stop hm hp.2⟩
    · exact h
  | turn env a =>
    unfold Session.step
    dsimp only
    split
    · next hp =>
      have hk := h.1 hp
      split
      · next r hw =>
        refine ⟨fun _ => ?_, fun hs => by rw [hp] at hs; cases hs⟩
        have haddr := hk.addresses hw
        have hsound := hk.sound.step a
        have hunpriced := hk.unpriced.step hk.sound a
        have hsettling := hk.settling.step hk.sound hk.unpriced a
        have hin := hk.turn hm hw
        rw [← haddr] at hsound hunpriced hsettling hin
        exact ⟨hsound, hunpriced, hsettling, hin⟩
      · exact ⟨fun hr => Phase.noConfusion hr, fun hs => Phase.noConfusion hs⟩
    · exact h

theorem left_start {r : PoolRegistry (Traced π)} (hr : r.Holds c fun l => l.block ≤ r.lastProcessedBlock)
    (hs : r.Subscribed) (swapEventTx : Bool) (maxEvents maxBlocks settle : Nat) :
    (start c r swapEventTx maxEvents maxBlocks settle).Left c := by
  refine ⟨fun _ => ⟨Pipeline.sound_init .., Pipeline.unpriced_init .., ?_, ?_⟩, fun hp => by cases hp⟩
  · refine ⟨fun l => ?_, fun _ => ⟨rfl, rfl⟩, fun _ hd => Stage.noConfusion hd, fun _ _ _ hd => Stage.noConfusion hd,
      fun r hr => Stage.noConfusion hr⟩
    unfold start Pipeline.init WebsocketBlockSource.new
    dsimp only
    rw [BlockSettler.logsOf_new]
    rfl
  · exact ⟨rfl, hs, fun _ => hr, fun _ hd => Stage.noConfusion hd, fun _ _ _ hd => Stage.noConfusion hd,
      fun hb => (Bool.false_ne_true hb.symm).elim, fun hb => (Bool.false_ne_true hb.symm).elim,
      fun hb => (Bool.false_ne_true hb.symm).elim⟩

/-- **Stopping and restarting**: a registry whose cursor is exact, given to a session with one feed, is left
by a stop with an exact cursor, from which it can be caught up, in every run in which bootstrap's drain
finds nothing the saved cursor covers and no log the cursor covers waits when the stop is taken. -/
theorem restarts_run (c : Chain) (r : PoolRegistry (Traced π)) (hr : r.Holds c fun l => l.block ≤ r.lastProcessedBlock)
    (hs : r.Subscribed) (swapEventTx : Bool) (maxEvents maxBlocks settle : Nat) (actions : List Action)
    (hm : ∀ k x, actions[k]? = some x →
      (runTo (step c) (start c r swapEventTx maxEvents maxBlocks settle) actions k).Meets c x) (k : Nat) :
    let s := runTo (step c) (start c r swapEventTx maxEvents maxBlocks settle) actions k
    s.phase = .stopped → Restarts c s.registry :=
  (runTo_invariant (P := fun s : Session (Traced π) => s.Left c) (left_start hr hs swapEventTx maxEvents maxBlocks settle)
    (fun k x hx h => h.step (hm k x hx)) k).2

/-! ## A block that settles before it is whole -/

/-- Two syncs of the pair at address 1, both in block 100. -/
def twoSyncs : Chain where
  logs := [syncAt 100 0, syncAt 100 1]
  mined l hl := by
    rcases List.mem_cons.1 hl with rfl | hl
    · exact syncAt_mined (by decide) (by decide)
    · rw [List.mem_singleton.1 hl]
      exact syncAt_mined (by decide) (by decide)
  sorted := by decide +kernel
  keys := by decide +kernel

/-- The pair, as it is at block 99. -/
def pairAt99 : PoolRegistry (Traced Pool) :=
  (PoolRegistry.empty.registerPoolsAndTopics [⟨.v2 (.emptyPair 1), []⟩]).setLastProcessedBlock 99

theorem pairAt99_subscribed : pairAt99.Subscribed := PoolRegistry.subscribed_empty.register _

theorem pairAt99_ledger {a : Address} {e : PoolType × List Log} (h : pairAt99.ledger a = some e) :
    a = 1 ∧ e = (.UniswapV2, []) := by
  have hpools : pairAt99.byAddress = (∅ : Std.ExtTreeMap Address (Traced Pool)).insert 1 ⟨.v2 (.emptyPair 1), []⟩ := rfl
  unfold PoolRegistry.ledger PoolRegistry.getPool at h
  rw [hpools, Ranges.lookup_insert] at h
  split at h
  · next ha => exact ⟨ha, (Option.some.inj h).symm⟩
  · simp at h

theorem pairAt99_holds : pairAt99.Holds twoSyncs fun l => l.block ≤ pairAt99.lastProcessedBlock := by
  intro a e he
  obtain ⟨rfl, rfl⟩ := pairAt99_ledger he
  have hnil : twoSyncs.ownWhere 1 .UniswapV2 (fun l => l.block ≤ pairAt99.lastProcessedBlock) = [] := by decide +kernel
  rw [hnil]

/-- Bootstrap with an empty queue, and a turn that drains the first `n` logs of the feed. -/
def drainAfter (n : Nat) : List Action :=
  ([.bootDrain 99, .bootTakeGaps, .bootDone, .subscribe] ++ (List.replicate n [.deliver, .send]).flatten ++
    [.intake 0, .takeGaps, .fill 0, .takeReady 100, .handOn] : List Pipeline.Action).map (.turn stillEnv)

/-- Both logs are in when the block settles. -/
theorem restarts_run_twoSyncs :
    (runTo (step twoSyncs) (start twoSyncs pairAt99 false 1000 10 20) (drainAfter 2 ++ [.stop]) 14).phase = .stopped ∧
    Restarts twoSyncs
      (runTo (step twoSyncs) (start twoSyncs pairAt99 false 1000 10 20) (drainAfter 2 ++ [.stop]) 14).registry := by
  have hstopped : (runTo (step twoSyncs) (start twoSyncs pairAt99 false 1000 10 20) (drainAfter 2 ++ [.stop]) 14).phase =
      .stopped := by decide +kernel
  refine ⟨hstopped, restarts_run twoSyncs pairAt99 pairAt99_holds pairAt99_subscribed false 1000 10 20
    (drainAfter 2 ++ [.stop]) (fun k x hx => ?_) 14 hstopped⟩
  match k with
  | 0 =>
    cases hx
    have hall : ∀ l ∈ twoSyncs.logs, 99 < l.block := by decide +kernel
    exact fun _ => ⟨by decide, fun l hl _ _ => hall l hl⟩
  | 13 =>
    cases hx
    have hbehind : ∀ l ∈ (runTo (step twoSyncs) (start twoSyncs pairAt99 false 1000 10 20) (drainAfter 2 ++ [.stop])
        13).pipeline.behind, (runTo (step twoSyncs) (start twoSyncs pairAt99 false 1000 10 20) (drainAfter 2 ++ [.stop])
        13).pipeline.progress.lastForwarded.any (l.place ≤ ·) = true := by decide +kernel
    have hnone : let s := runTo (step twoSyncs) (start twoSyncs pairAt99 false 1000 10 20) (drainAfter 2 ++ [.stop]) 13
        s.pipeline.ahead = [] ∧ s.pipeline.inQueue = [] ∧ s.pipeline.inGaps twoSyncs s.registry.getAllAddresses = [] ∧
          s.pipeline.source.settler.pending.isEmpty = true ∧ s.pipeline.stage.logs = [] := by decide +kernel
    revert hbehind hnone
    generalize runTo (step twoSyncs) (start twoSyncs pairAt99 false 1000 10 20) (drainAfter 2 ++ [.stop]) 13 = s
    rintro hbehind ⟨hahead, hqueue, hgaps, hpending, hlogs⟩ - l hl - (⟨-, ha | ⟨hb, hp⟩⟩ | hq | hg | ⟨b, hb⟩ | hst)
    · rw [hahead] at ha
      cases ha
    · exact absurd (hbehind l hb) hp
    · rw [hqueue] at hq
      cases hq
    · rw [hgaps] at hg
      cases hg
    · rw [Std.ExtTreeMap.isEmpty_iff] at hpending
      unfold BlockSettler.logsOf at hb
      rw [hpending, Std.ExtTreeMap.getElem?_empty] at hb
      cases hb
    · rw [hlogs] at hst
      cases hst
  | 1 | 2 | 3 | 4 | 5 | 6 | 7 | 8 | 9 | 10 | 11 | 12 =>
    cases hx
    trivial
  | k + 14 => cases hx

/-- The block settles and is handed on with its first log; the second is sent, and the stop comes before
the next turn. -/
theorem restarts_run_fails :
    ¬ ∀ (c : Chain) (r : PoolRegistry (Traced Pool)), (r.Holds c fun l => l.block ≤ r.lastProcessedBlock) →
      r.Subscribed → ∀ (swapEventTx : Bool) (maxEvents maxBlocks settle : Nat) (actions : List Action) (k : Nat),
      let s := runTo (step c) (start c r swapEventTx maxEvents maxBlocks settle) actions k
      s.phase = .stopped → Restarts c s.registry := by
  intro h
  have hrun := (h twoSyncs pairAt99 pairAt99_holds pairAt99_subscribed false 1000 10 20
    (drainAfter 1 ++ [.turn stillEnv .deliver, .turn stillEnv .send, .stop]) 14 (by decide +kernel)).exact
  have hperm := (hrun 1 (.UniswapV2, [(syncAt 100 0).untimed]) (by decide +kernel)).length_eq
  revert hperm
  decide +kernel

end Session

end EvmDexPool
