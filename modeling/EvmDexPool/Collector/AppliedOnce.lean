import EvmDexPool.Collector.Arrivals
import EvmDexPool.Collector.BootCursor
import EvmDexPool.Collector.BrokenOff

/-!
# Each log applied once, over the registry (websocket mode, `block_source.rs:711-1013`)

Listeners and updater take their steps in any order. The pools are given what the catch-up fetches, what
bootstrap drained and fetched, and the blocks released: the same logs that the source keeps account of. A
panic leaves them with some of these.
-/

namespace EvmDexPool

open Replay

/-- Over what the pools had, they have been given logs of blocks past the cursor, and no log twice. -/
def PoolRegistry.AppliedOnce {π : Type} [PoolInterface π] (r₀ r : PoolRegistry (Traced π)) : Prop :=
  ∀ a e, r₀.ledger a = some e → ∃ new, r.ledger a = some (e.1, e.2 ++ new) ∧ (e.2 ++ new).Nodup ∧
    ∀ l ∈ new, r₀.lastProcessedBlock < l.block

/-- Mined logs, those of the pools past the cursor and each once. -/
structure PoolRegistry.Fresh {π : Type} [PoolInterface π] (r₀ : PoolRegistry (Traced π)) (c : Chain) (ls : List Log) :
    Prop where
  mem : ∀ l ∈ ls, l ∈ c.logs
  past : ∀ l ∈ ls, r₀.Concerned l → r₀.lastProcessedBlock < l.block
  once : ∀ l, r₀.Concerned l → ls.count l ≤ 1

namespace PoolRegistry
variable {π : Type} [PoolInterface π] {c : Chain} {r₀ r r' : PoolRegistry (Traced π)} {xs ys : List Log}

theorem Fresh.subperm (h : r₀.Fresh c xs) (hs : ys.Subperm xs) : r₀.Fresh c ys :=
  ⟨fun l hl => h.mem l (hs.subset hl), fun l hl => h.past l (hs.subset hl),
    fun l ho => (hs.count_le l).trans (h.once l ho)⟩

/-- Some logs given, then some more. -/
theorem Gives.then_some (h : r₀.Gives xs r) (h' : r.GivesSome ys r') {a : Address} {e : PoolType × List Log}
    (he : r₀.ledger a = some e) :
    ∃ new, r'.ledger a = some (e.1, e.2 ++ new) ∧ new.Sublist (((xs ++ ys).filter (·.ownedBy a e.1)).map Log.untimed) := by
  obtain ⟨new, hnew, hsub⟩ := h'.ledger a (entered xs a e) (by rw [h.ledger, he]; rfl)
  unfold entered at hnew hsub
  refine ⟨(xs.filter (·.ownedBy a e.1)).map Log.untimed ++ new, by rw [hnew, List.append_assoc], ?_⟩
  rw [List.filter_append, List.map_append]
  exact (List.Sublist.refl _).append hsub

theorem Gives.refl (r : PoolRegistry (Traced π)) : r.Gives [] r := gives_replayed (fun _ => 0) r []

/-- A pool's logs, each there once, are different also without their times. -/
theorem nodup_map_untimed (hm : ∀ l ∈ xs, l ∈ c.logs) (hn : xs.Nodup) : (xs.map Log.untimed).Nodup :=
  List.Nodup.map_on (fun x hx y hy h => Chain.eq_of_untimed (hm y hy) (hm x hx) h) hn

theorem Fresh.appliedOnce (h : r₀.Fresh c (xs ++ ys)) (hr : r₀.Holds c fun l => l.block ≤ r₀.lastProcessedBlock)
    (hg : r₀.Gives xs r) (hg' : r.GivesSome ys r') : r₀.AppliedOnce r' := by
  intro a e he
  obtain ⟨new, hnew, hsub⟩ := hg.then_some hg' he
  have hown : ∀ l ∈ (xs ++ ys).filter (·.ownedBy a e.1), l ∈ c.logs ∧ r₀.lastProcessedBlock < l.block := by
    intro l hl
    obtain ⟨hl, ho⟩ := List.mem_filter.1 hl
    exact ⟨h.mem l hl, h.past l hl (concerned_of_owned he ho)⟩
  have hnodup : ((xs ++ ys).filter (·.ownedBy a e.1)).Nodup := by
    refine List.nodup_iff_count_le_one.2 fun l => ?_
    by_cases ho : l.ownedBy a e.1 = true
    · exact (List.filter_sublist.count_le l).trans (h.once l (concerned_of_owned he ho))
    · rw [List.count_eq_zero_of_not_mem fun hl => ho (List.mem_filter.1 hl).2]
      exact Nat.zero_le 1
  have hpast : ∀ l ∈ new, r₀.lastProcessedBlock < l.block := by
    intro l hl
    obtain ⟨x, hx, rfl⟩ := List.mem_map.1 (hsub.subset hl)
    exact (hown x hx).2
  refine ⟨new, hnew, List.nodup_append.2 ⟨?_, ?_, ?_⟩, hpast⟩
  · refine (hr a e he).nodup_iff.2 (nodup_map_untimed (c := c) (fun l hl => (List.mem_filter.1 hl).1) ?_)
    exact c.nodup.sublist List.filter_sublist
  · exact (nodup_map_untimed (fun l hl => (hown l hl).1) hnodup).sublist hsub
  · rintro l hl m hm rfl
    obtain ⟨x, hx, hxl⟩ := List.mem_map.1 ((hr a e he).subset hl)
    have hle : x.block ≤ r₀.lastProcessedBlock := of_decide_eq_true (of_decide_eq_true (List.mem_filter.1 hx).2).2
    have hlt := hpast l hm
    rw [← hxl] at hlt
    exact absurd hlt (not_lt.2 hle)

end PoolRegistry

/-! ## The source's account -/

namespace Pipeline
variable {π : Type} [PoolInterface π] {c : Chain} {r₀ : PoolRegistry (Traced π)} {s : Pipeline}

/-- What the catch-up fetches before the floor. -/
def caught (s : Pipeline) (c : Chain) (r₀ : PoolRegistry π) : List Log :=
  (c.relevant r₀.getAllAddresses s.source.topics).filter fun l =>
    r₀.lastProcessedBlock < l.block ∧ l.place < s.source.fillFloor

/-- The floor keeps the catch-up apart from the rest, and the rest is what the source has had. -/
theorem Single.fresh (h : s.Single r₀.Concerned r₀.lastProcessedBlock c) :
    r₀.Fresh c (s.caught c r₀ ++ s.bootstrapped ++ (s.releasedLogs ++ s.stage.logs)) := by
  have hcaught : ∀ l ∈ s.caught c r₀, l ∈ c.logs ∧ r₀.lastProcessedBlock < l.block ∧ l.place < s.source.fillFloor := by
    intro l hl
    obtain ⟨hl, hp⟩ := List.mem_filter.1 hl
    exact ⟨(List.mem_filter.1 hl).1, of_decide_eq_true hp⟩
  have hhanded : ∀ l, (s.releasedLogs ++ s.stage.logs).count l ≤ s.handed.count l := by
    intro l
    have hcount := h.settling.count l
    rw [List.count_append]
    omega
  have hhad : ∀ l, l ∈ s.bootstrapped ∨ l ∈ s.releasedLogs ++ s.stage.logs → l ∈ s.bootstrapped ∨ l ∈ s.handed := by
    refine fun l hl => hl.imp_right fun hl => ?_
    exact List.count_pos_iff.1 ((List.count_pos_iff.2 hl).trans_le (hhanded l))
  refine ⟨fun l hl => ?_, fun l hl ho => ?_, fun l ho => ?_⟩
  · rw [List.append_assoc] at hl
    rcases List.mem_append.1 hl with hl | hl
    · exact (hcaught l hl).1
    · exact (h.had l (hhad l (List.mem_append.1 hl))).1
  · rw [List.append_assoc] at hl
    rcases List.mem_append.1 hl with hl | hl
    · exact (hcaught l hl).2.1
    · exact (h.had l (hhad l (List.mem_append.1 hl))).2.2 ho
  · rw [List.append_assoc, List.count_append, List.count_append]
    have hhanded := hhanded l
    by_cases hl : l ∈ s.caught c r₀
    · have hnot : ¬(l ∈ s.bootstrapped ∨ l ∈ s.handed) := fun hin =>
        absurd (hcaught l hl).2.2 (not_lt.2 (h.had l hin).2.1)
      rw [not_or] at hnot
      rw [List.count_eq_zero_of_not_mem hnot.2] at hhanded
      rw [List.count_eq_zero_of_not_mem hnot.1]
      have hnodup : (s.caught c r₀).Nodup := (c.relevant_nodup ..).sublist List.filter_sublist
      have hone := List.nodup_iff_count_le_one.1 hnodup l
      omega
    · rw [List.count_eq_zero_of_not_mem hl]
      by_cases hin : l ∈ s.bootstrapped ∨ l ∈ s.handed
      · have honce := h.once l ho (h.had l hin).2.1
        omega
      · rw [not_or] at hin
        rw [List.count_eq_zero_of_not_mem hin.2] at hhanded
        rw [List.count_eq_zero_of_not_mem hin.1]
        omega

end Pipeline

/-! ## The registry's account -/

/-- The pools have been given what the source has been through. -/
structure InPace {π : Type} [PoolInterface π] (c : Chain) (r₀ r : PoolRegistry (Traced π)) (s : Pipeline) : Prop where
  saved : s.stage = .created ∨ (∃ drained, s.stage = .catchingUp drained) → r = r₀
  boundary : ∀ drained, s.stage = .catchingUp drained → s.source.fillFloor.block < 2 ^ 64
  filling : ∀ drained events filled, s.stage = .bootFilling drained events filled →
    r₀.Gives (s.caught c r₀) r ∧ r.lastProcessedBlock = r₀.lastProcessedBlock
  given : s.stage.boots = false → ∃ events, events.Perm s.bootstrapped ∧
    r₀.Gives (s.caught c r₀ ++ events ++ s.releasedLogs) r
  through : s.stage.boots = false → r.lastProcessedBlock ≤ s.source.settler.releasedThrough

namespace InPace
variable {π : Type} [PoolInterface π] {c : Chain} {r₀ r r' : PoolRegistry (Traced π)} {s : Pipeline}

theorem quiet (h : InPace c r₀ r s) {s' : Pipeline} (hq : s.Quiet s') : InPace c r₀ r s' := by
  have hcaught : s'.caught c r₀ = s.caught c r₀ := by
    unfold Pipeline.caught
    rw [hq.topics, hq.floor]
  have hgiven : s.stage.boots = false → ∃ events, events.Perm s'.bootstrapped ∧
      r₀.Gives (s'.caught c r₀ ++ events ++ s'.releasedLogs) r := fun hb => by
    unfold Pipeline.releasedLogs
    rw [hcaught, hq.bootstrapped hb, hq.released]
    exact h.given hb
  rcases hq.stage with hst | ⟨hb, hb'⟩ | ⟨⟨d, e, f, hst⟩, d', e', f', hst'⟩
  · refine ⟨?_, ?_, ?_, fun hb => hgiven (hst ▸ hb), fun hb => (h.through (hst ▸ hb)).trans hq.through⟩
    · rw [hst]
      exact h.saved
    · rw [hst, hq.floor]
      exact h.boundary
    · rw [hst, hcaught]
      exact h.filling
  · -- in the loop
    have hno : ∀ {st : Stage}, s'.stage = st → st.boots = false := fun hst => hst ▸ hb'
    refine ⟨?_, fun d hd => Bool.noConfusion (hno hd), fun d e f hd => Bool.noConfusion (hno hd), fun _ => hgiven hb,
      fun _ => (h.through hb).trans hq.through⟩
    rintro (hd | ⟨d, hd⟩)
    · exact Bool.noConfusion (hno hd)
    · exact Bool.noConfusion (hno hd)
  · -- a gap of bootstrap's
    have hboots : ∀ b, s'.stage.boots = b → b = true := by
      rintro b rfl
      rw [hst']
      rfl
    refine ⟨fun hd => ?_, fun _ hd => ?_, fun _ _ _ _ => ?_, fun hb => Bool.noConfusion (hboots _ hb),
      fun hb => Bool.noConfusion (hboots _ hb)⟩
    · rw [hst'] at hd
      rcases hd with hd | ⟨_, hd⟩
      · cases hd
      · cases hd
    · rw [hst'] at hd
      cases hd
    · rw [hcaught]
      exact h.filling _ _ _ hst

theorem bootDrain (h : InPace c r₀ r s) {latest : Nat} (hl : latest < 2 ^ 64) (hq : ∀ l ∈ s.queue.queue, l.Mined)
    (hst : s.stage = .created) : InPace c r₀ r (s.bootDrain latest) := by
  unfold Pipeline.bootDrain
  rw [hst]
  exact ⟨fun _ => h.saved (.inl hst), fun _ _ => WebsocketBlockSource.firstQueuedPosition_block hl hq,
    fun _ _ _ hd => Stage.noConfusion hd, fun hb => (Bool.false_ne_true hb.symm).elim,
    fun hb => (Bool.false_ne_true hb.symm).elim⟩

theorem bootTakeGaps (h : InPace c r₀ r s) {env : Env} {drained : List Log} (hst : s.stage = .catchingUp drained)
    (hw : s.source.catchUp c env r = (r', .ok ())) :
    InPace c r₀ r' s.bootTakeGaps ∧ r'.lastProcessedBlock = r.lastProcessedBlock ∧
      r'.getAllAddresses = r.getAllAddresses := by
  obtain ⟨hcursor, hgives⟩ := WebsocketBlockSource.catchUp_ok (h.boundary _ hst) hw
  cases h.saved (.inr ⟨_, hst⟩)
  refine ⟨?_, hcursor, hgives.addresses⟩
  unfold Pipeline.bootTakeGaps
  rw [hst]
  refine ⟨fun hd => ?_, fun _ hd => Stage.noConfusion hd, fun _ _ _ _ => ⟨hgives, hcursor⟩,
    fun hb => (Bool.false_ne_true hb.symm).elim, fun hb => (Bool.false_ne_true hb.symm).elim⟩
  rcases hd with hd | ⟨_, hd⟩
  · cases hd
  · cases hd

/-- The buffered logs, in whatever order; the cursor moves to bootstrap's block. -/
theorem bootDone (h : InPace c r₀ r s) (hse : s.Settling) {env : Env} {drained events : List Log} {filled : Bool}
    (hst : s.stage = .bootFilling drained events filled) (ht : s.taken = [])
    (hw : s.source.applyBuffered env (if filled then WebsocketBlockSource.byPosition events else events) r =
      (r', .ok ())) :
    InPace c r₀ r' s.bootDone ∧ r'.lastProcessedBlock = s.source.bootstrapBlock events ∧
      r'.getAllAddresses = r.getAllAddresses := by
  have hperm : (if filled then WebsocketBlockSource.byPosition events else events).Perm events := by
    split
    · exact List.perm_insertionSort ..
    · exact .refl _
  obtain ⟨hcursor, hgives⟩ := WebsocketBlockSource.applyBuffered_ok hw
  rw [WebsocketBlockSource.bootstrapBlock_perm hperm] at hcursor
  refine ⟨?_, hcursor, hgives.addresses⟩
  have hboot := hse.events _ _ _ hst
  have hrel := (hse.boots (by rw [hst]; rfl)).2
  unfold Pipeline.bootDone
  rw [hst, ht]
  refine ⟨fun hd => ?_, fun _ hd => Stage.noConfusion hd, fun _ _ _ hd => Stage.noConfusion hd,
    fun _ => ⟨_, hperm.trans (.of_eq hboot.symm), ?_⟩, fun _ => hcursor.le⟩
  · rcases hd with hd | ⟨_, hd⟩
    · cases hd
    · cases hd
  · unfold Pipeline.releasedLogs
    dsimp only
    rw [hrel, List.flatMap_nil, List.append_nil]
    exact (h.filling _ _ _ hst).1.trans hgives

/-- A block handed on. -/
theorem handOn (h : InPace c r₀ r s) (hse : s.Settling) {x : Settled} (hst : s.stage = .settled x)
    (hgives : r.Gives x.logs r') (hcursor : r'.lastProcessedBlock = x.processedThrough) :
    InPace c r₀ r' s.handOn ∧ r.lastProcessedBlock ≤ r'.lastProcessedBlock := by
  obtain ⟨hthrough, -⟩ := hse.through x hst
  have hboots : s.stage.boots = false := by
    rw [hst]
    rfl
  obtain ⟨events, hperm, hgiven⟩ := h.given hboots
  refine ⟨?_, by rw [hcursor, hthrough]; exact h.through hboots⟩
  unfold Pipeline.handOn
  rw [hst]
  refine ⟨fun hd => ?_, fun _ hd => Stage.noConfusion hd, fun _ _ _ hd => Stage.noConfusion hd,
    fun _ => ⟨events, hperm, ?_⟩, fun _ => (hcursor.trans hthrough).le⟩
  · rcases hd with hd | ⟨_, hd⟩
    · cases hd
    · cases hd
  · unfold Pipeline.releasedLogs
    dsimp only
    rw [List.flatMap_append, ← List.append_assoc, List.flatMap_singleton]
    exact hgiven.trans hgives

theorem appliedOnce (h : InPace c r₀ r s) (hs : s.Single r₀.Concerned r₀.lastProcessedBlock c)
    (hr : r₀.Holds c fun l => l.block ≤ r₀.lastProcessedBlock) : r₀.AppliedOnce r := by
  have hall := hs.fresh
  have hgives : ∃ ls, r₀.Gives ls r ∧ r₀.Fresh c ls := by
    cases hst : s.stage with
    | created =>
      cases h.saved (.inl hst)
      exact ⟨[], .refl _, hall.subperm (List.nil_subperm)⟩
    | catchingUp drained =>
      cases h.saved (.inr ⟨_, hst⟩)
      exact ⟨[], .refl _, hall.subperm (List.nil_subperm)⟩
    | bootFilling drained events filled =>
      refine ⟨_, (h.filling _ _ _ hst).1, hall.subperm (List.Sublist.subperm ?_)⟩
      rw [List.append_assoc]
      exact List.sublist_append_left _ _
    | _ =>
      obtain ⟨events, hperm, hgiven⟩ := h.given (by rw [hst]; rfl)
      refine ⟨_, hgiven, hall.subperm ?_⟩
      rw [← List.append_assoc]
      exact (((hperm.append_left _).append_right _).subperm).trans (List.sublist_append_left _ _).subperm
  obtain ⟨ls, hg, hf⟩ := hgives
  exact PoolRegistry.Fresh.appliedOnce (by rwa [List.append_nil]) hr hg (.refl r [])

end InPace

/-! ## Runs -/

namespace Session
variable {π : Type} [PoolInterface π] {c : Chain} {r₀ : PoolRegistry (Traced π)} {s : Session (Traced π)}

/-- A log arrives from some listener, a listener notes a gap, or the updater takes a step. -/
inductive Event
  | arrive (l : Log)
  | noteGap (g : Gap)
  | turn (env : Env) (a : Pipeline.Action)

def react {π : Type} [PoolInterface π] (c : Chain) (s : Session π) : Event → Session π
  | .arrive l => { s with pipeline := s.pipeline.arrive l }
  | .noteGap g => { s with pipeline := s.pipeline.noteGap g }
  | .turn env a => s.step c (.turn env a)

/-- A new updater; gaps are filled if there is one feed. -/
def startOver {π : Type} [PoolInterface π] (c : Chain) (r : PoolRegistry π) (fill swapEventTx : Bool)
    (maxEvents maxBlocksPerBatch blockSettle : Nat) : Session π :=
  let s := start c r swapEventTx maxEvents maxBlocksPerBatch blockSettle
  { s with pipeline := { s.pipeline with source := .new r.topics maxBlocksPerBatch blockSettle fill } }

/-- What arrives is of the chain; block numbers are `u64`. -/
def Possible (c : Chain) : Event → Prop
  | .arrive l => l ∈ c.logs
  | .noteGap g => g.before.block < 2 ^ 64
  | .turn _ (.bootDrain latest) => latest < 2 ^ 64
  | .turn _ _ => True

/-- What is taken is of blocks past the cursor that bootstrap found, and what was taken before is recalled. -/
def Spares (c : Chain) (r₀ : PoolRegistry (Traced π)) (s : Session (Traced π)) : Event → Prop
  | .arrive l => s.phase = .running → s.pipeline.Recalls r₀.Concerned s.pipeline.queue l
  | .noteGap _ => True
  | .turn _ a => s.phase = .running →
      s.pipeline.Spares r₀.Concerned r₀.lastProcessedBlock c s.registry.getAllAddresses a

/-- While the session runs the registry keeps pace with the source; however it ends, no log is applied twice. -/
structure Paces (c : Chain) (r₀ : PoolRegistry (Traced π)) (s : Session (Traced π)) : Prop where
  single : s.phase = .running → s.pipeline.Single r₀.Concerned r₀.lastProcessedBlock c
  inPace : s.phase = .running → InPace c r₀ s.registry s.pipeline
  once : r₀.AppliedOnce s.registry

/-- What a step that ends well leaves. -/
theorem inPace_turn (h : InPace c r₀ s.registry s.pipeline) (hs : s.pipeline.Single r₀.Concerned r₀.lastProcessedBlock c)
    {env : Env} {a : Pipeline.Action} (hp : Possible c (.turn env a))
    (hsp : s.pipeline.Spares r₀.Concerned r₀.lastProcessedBlock c s.registry.getAllAddresses a)
    {r : PoolRegistry (Traced π)} (hw : s.work c env a = (r, .ok ())) :
    InPace c r₀ r (s.pipeline.step c s.registry.getAllAddresses a) ∧
      s.registry.lastProcessedBlock ≤ r.lastProcessedBlock ∧ r.getAllAddresses = s.registry.getAllAddresses := by
  rcases s.pipeline.step_cases c s.registry.getAllAddresses a with ⟨latest, rfl, hst⟩ | ⟨drained, rfl, hst⟩ |
    ⟨drained, events, filled, rfl, hst, ht⟩ | ⟨x, rfl, hst⟩ | ⟨hquiet, htake, hdone, hhand⟩
  · cases hw
    exact ⟨h.bootDrain hp (fun l hl => c.mined l (hs.queued l hl)) hst, le_rfl, rfl⟩
  · unfold work at hw
    rw [hst] at hw
    obtain ⟨hin, hcursor, haddr⟩ := h.bootTakeGaps hst hw
    exact ⟨hin, hcursor.ge, haddr⟩
  · unfold work at hw
    rw [hst, ht] at hw
    obtain ⟨hin, hcursor, haddr⟩ := h.bootDone hs.settling hst ht hw
    refine ⟨hin, ?_, haddr⟩
    rw [hcursor, (h.filling _ _ _ hst).2]
    rcases hsp _ _ _ hst ht with ⟨l, hl, hle⟩ | ⟨rfl, hle⟩
    · have hmem := (hs.had l (.inl (hs.settling.events _ _ _ hst ▸ hl))).1
      exact hle.trans (WebsocketBlockSource.le_bootstrapBlock hl (c.mined l hmem).blockNumber)
    · exact hle
  · have hmem : ∀ l ∈ x.logs, l ∈ c.logs := fun l hl => hs.fresh.mem l (by rw [hst]; simp [Stage.logs, hl])
    unfold work at hw
    rw [hst] at hw
    obtain ⟨hgives, hcursor⟩ := InStep.gives_of_batch hmem rfl (s.batchOf_mode env x) rfl hw
    obtain ⟨hin, hle⟩ := h.handOn hs.settling hst hgives hcursor
    exact ⟨hin, hle, hgives.addresses⟩
  · rw [work_idle htake hdone hhand] at hw
    cases hw
    exact ⟨h.quiet hquiet, le_rfl, rfl⟩

/-- What a step leaves that ends in a panic. -/
theorem appliedOnce_broken (h : InPace c r₀ s.registry s.pipeline)
    (hs : s.pipeline.Single r₀.Concerned r₀.lastProcessedBlock c)
    (hr : r₀.Holds c fun l => l.block ≤ r₀.lastProcessedBlock) {env : Env} {a : Pipeline.Action}
    {r : PoolRegistry (Traced π)} {e : Fault} (hw : s.work c env a = (r, .error e)) :
    r₀.AppliedOnce r ∧ r.lastProcessedBlock = s.registry.lastProcessedBlock := by
  have hall := hs.fresh
  rcases s.pipeline.step_cases c s.registry.getAllAddresses a with ⟨latest, rfl, hst⟩ | ⟨drained, rfl, hst⟩ |
    ⟨drained, events, filled, rfl, hst, ht⟩ | ⟨x, rfl, hst⟩ | ⟨-, htake, hdone, hhand⟩
  · cases hw
  · unfold work at hw
    rw [hst] at hw
    dsimp only at hw
    have hsome := WebsocketBlockSource.catchUp_givesSome (c := c) env s.registry (h.boundary _ hst)
    rw [hw] at hsome
    refine ⟨?_, hsome.cursor⟩
    rw [h.saved (.inr ⟨_, hst⟩)] at hsome
    refine PoolRegistry.Fresh.appliedOnce (hall.subperm (List.Sublist.subperm ?_)) hr (.refl _) hsome
    rw [List.nil_append, List.append_assoc]
    exact List.sublist_append_left _ _
  · unfold work at hw
    rw [hst, ht] at hw
    have hsome := WebsocketBlockSource.applyBuffered_givesSome hw
    refine ⟨PoolRegistry.Fresh.appliedOnce (hall.subperm ?_) hr (h.filling _ _ _ hst).1 hsome, hsome.cursor⟩
    have hperm : (if filled then WebsocketBlockSource.byPosition events else events).Perm events := by
      split
      · exact List.perm_insertionSort ..
      · exact .refl _
    rw [hs.settling.events _ _ _ hst]
    exact (hperm.append_left _).subperm.trans (List.sublist_append_left _ _).subperm
  · unfold work at hw
    rw [hst] at hw
    obtain ⟨events, hperm, hgiven⟩ := h.given (by rw [hst]; rfl)
    have hsome := (process_givesSome _ _ _ _ hw).of_enriched
    refine ⟨PoolRegistry.Fresh.appliedOnce (hall.subperm ?_) hr hgiven hsome, hsome.cursor⟩
    rw [hst, List.append_assoc, List.append_assoc, List.append_assoc]
    exact ((hperm.append_right _).append_left _).subperm
  · rw [work_idle htake hdone hhand] at hw
    cases hw

theorem Paces.react (h : s.Paces c r₀) (hr : r₀.Holds c fun l => l.block ≤ r₀.lastProcessedBlock) {x : Event}
    (hp : Possible c x) (hm : s.Spares c r₀ x) :
    (s.react c x).Paces c r₀ ∧ s.registry.lastProcessedBlock ≤ (s.react c x).registry.lastProcessedBlock := by
  cases x with
  | arrive l =>
    exact ⟨⟨fun hrun => (h.single hrun).arrive hp (hm hrun),
      fun hrun => (h.inPace hrun).quiet (.of_feed ⟨rfl, rfl, rfl, rfl, rfl⟩), h.once⟩, le_rfl⟩
  | noteGap g =>
    exact ⟨⟨fun hrun => (h.single hrun).noteGap hp,
      fun hrun => (h.inPace hrun).quiet (.of_feed ⟨rfl, rfl, rfl, rfl, rfl⟩), h.once⟩, le_rfl⟩
  | turn env a =>
    unfold Session.react step
    dsimp only
    split
    · next hrun =>
      have hs := h.single hrun
      have hin := h.inPace hrun
      split
      · next r hw =>
        obtain ⟨hpace, hle, haddr⟩ := inPace_turn hin hs hp (hm hrun) hw
        have hsingle := hs.step a (hm hrun)
        rw [← haddr] at hpace hsingle
        exact ⟨⟨fun _ => hsingle, fun _ => hpace, hpace.appliedOnce hsingle hr⟩, hle⟩
      · next r e hw =>
        obtain ⟨honce, hcursor⟩ := appliedOnce_broken hin hs hr hw
        exact ⟨⟨nofun, nofun, honce⟩, hcursor.ge⟩
    · exact ⟨h, le_rfl⟩

theorem paces_startOver (hr : r₀.Holds c fun l => l.block ≤ r₀.lastProcessedBlock) (fill swapEventTx : Bool)
    (maxEvents maxBlocks settle : Nat) : (startOver c r₀ fill swapEventTx maxEvents maxBlocks settle).Paces c r₀ := by
  have hsingle : (startOver c r₀ fill swapEventTx maxEvents maxBlocks settle).pipeline.Single r₀.Concerned
      r₀.lastProcessedBlock c := Pipeline.single_init _ _ _ _ _ _ _ _ _ fun l hl => (List.mem_filter.1 hl).1
  have hpace : InPace c r₀ r₀ (startOver c r₀ fill swapEventTx maxEvents maxBlocks settle).pipeline :=
    ⟨fun _ => rfl, fun _ hd => Stage.noConfusion hd, fun _ _ _ hd => Stage.noConfusion hd,
      fun hb => (Bool.false_ne_true hb.symm).elim, fun hb => (Bool.false_ne_true hb.symm).elim⟩
  exact ⟨fun _ => hsingle, fun _ => hpace, hpace.appliedOnce hsingle hr⟩

/-- **No log twice**: over a registry whose cursor is exact, in every run of arrivals, gaps and steps of the
updater in which no log of a block the cursor covers is taken, and none that was taken before and whose key
the queue has dropped, no log is applied on top of what includes it, and the cursor does not go back. -/
theorem appliedOnce_run (c : Chain) (r : PoolRegistry (Traced π)) (hr : r.Holds c fun l => l.block ≤ r.lastProcessedBlock)
    (fill swapEventTx : Bool) (maxEvents maxBlocks settle : Nat) (events : List Event)
    (hp : ∀ x ∈ events, Possible c x)
    (hm : ∀ k x, events[k]? = some x →
      (runTo (react c) (startOver c r fill swapEventTx maxEvents maxBlocks settle) events k).Spares c r x) (k : Nat) :
    let run := runTo (react c) (startOver c r fill swapEventTx maxEvents maxBlocks settle) events
    r.AppliedOnce (run k).registry ∧ ∀ j ≤ k, (run j).registry.lastProcessedBlock ≤ (run k).registry.lastProcessedBlock := by
  have hpaces : ∀ k, (runTo (react c) (startOver c r fill swapEventTx maxEvents maxBlocks settle) events k).Paces c r :=
    runTo_invariant (P := fun s : Session (Traced π) => s.Paces c r) (paces_startOver hr ..)
      fun k x hx h => (h.react hr (hp x (List.mem_of_getElem? hx)) (hm k x hx)).1
  refine ⟨(hpaces k).once, fun j hj => monotone_nat_of_le_succ (f := fun k =>
    (runTo (react c) (startOver c r fill swapEventTx maxEvents maxBlocks settle) events k).registry.lastProcessedBlock)
    (fun i => ?_) hj⟩
  cases hx : events[i]? with
  | none => rw [runTo_succ_of_none hx]
  | some x =>
    rw [runTo_succ hx]
    exact ((hpaces i).react hr (hp x (List.mem_of_getElem? hx)) (hm i x hx)).2

/-- One log waits in the queue when bootstrap runs; the other arrives afterwards, and the first again. -/
def twoArrivals : List Event :=
  [.arrive (syncAt 100 0), .turn stillEnv (.bootDrain 100), .turn stillEnv .bootTakeGaps, .turn stillEnv .bootDone,
    .arrive (syncAt 100 1), .arrive (syncAt 100 0), .turn stillEnv (.intake 0), .turn stillEnv .takeGaps,
    .turn stillEnv (.takeReady 100), .turn stillEnv .handOn]

theorem appliedOnce_run_twoSyncs :
    let run := runTo (react twoSyncs) (startOver twoSyncs pairAt99 true false 1000 10 20) twoArrivals
    (run 10).registry.ledger 1 = some (.UniswapV2, [(syncAt 100 0).untimed, (syncAt 100 1).untimed]) ∧
      pairAt99.AppliedOnce (run 10).registry ∧
      ∀ j ≤ 10, (run j).registry.lastProcessedBlock ≤ (run 10).registry.lastProcessedBlock := by
  refine ⟨by decide +kernel, appliedOnce_run twoSyncs pairAt99 pairAt99_holds true false 1000 10 20 twoArrivals
    (fun x hx => ?_) (fun k x hx => ?_) 10⟩
  · have hin : ∀ i, i ≤ 1 → syncAt 100 i ∈ twoSyncs.logs := by decide +kernel
    obtain ⟨k, hx⟩ := List.mem_iff_getElem?.1 hx
    match k with
    | 0 | 5 =>
      cases hx
      exact hin 0 (by decide)
    | 1 =>
      cases hx
      exact (by decide : 100 < 2 ^ 64)
    | 4 =>
      cases hx
      exact hin 1 (by decide)
    | 2 | 3 | 6 | 7 | 8 | 9 =>
      cases hx
      trivial
    | k + 10 => cases hx
  · match k with
    | 0 =>
      cases hx
      have hnew : ¬Pipeline.Had (runTo (react twoSyncs) (startOver twoSyncs pairAt99 true false 1000 10 20) twoArrivals
          0).pipeline (syncAt 100 0) := by
        unfold Pipeline.Had
        decide +kernel
      exact fun _ _ _ hhad => absurd hhad hnew
    | 1 =>
      cases hx
      have hpast : ∀ l ∈ (runTo (react twoSyncs) (startOver twoSyncs pairAt99 true false 1000 10 20) twoArrivals
          1).pipeline.queue.queue, 99 < l.block := by decide +kernel
      exact fun _ _ l hl _ => hpast l hl
    | 3 =>
      cases hx
      have hstage : (runTo (react twoSyncs) (startOver twoSyncs pairAt99 true false 1000 10 20) twoArrivals
          3).pipeline.stage = .bootFilling [syncAt 100 0] [syncAt 100 0] false := rfl
      intro _ drained events filled hst _
      obtain ⟨-, rfl, -⟩ := Stage.bootFilling.inj (hst.symm.trans hstage)
      exact .inl ⟨_, List.mem_cons_self, by decide⟩
    | 4 =>
      cases hx
      have hnew : ¬Pipeline.Had (runTo (react twoSyncs) (startOver twoSyncs pairAt99 true false 1000 10 20) twoArrivals
          4).pipeline (syncAt 100 1) := by
        unfold Pipeline.Had
        decide +kernel
      exact fun _ _ _ hhad => absurd hhad hnew
    | 5 =>
      cases hx
      have hrecalled : ∃ k ∈ (runTo (react twoSyncs) (startOver twoSyncs pairAt99 true false 1000 10 20) twoArrivals
          5).pipeline.queue.recent, (syncAt 100 0).key? = some k := by decide +kernel
      exact fun _ _ _ _ => hrecalled
    | 6 =>
      cases hx
      have hpast : ∀ l ∈ (runTo (react twoSyncs) (startOver twoSyncs pairAt99 true false 1000 10 20) twoArrivals
          6).pipeline.queue.queue, 99 < l.block := by decide +kernel
      exact fun _ _ l hl _ _ => hpast l hl
    | 2 | 7 | 8 | 9 =>
      cases hx
      exact fun _ => trivial
    | k + 10 => cases hx

/-- The pair, as it is once both syncs are applied. -/
def pairAt100 : PoolRegistry (Traced Pool) := (pairAt99.replayed stillEnv.clock twoSyncs.logs).setLastProcessedBlock 100

theorem pairAt100_holds : pairAt100.Holds twoSyncs fun l => l.block ≤ pairAt100.lastProcessedBlock := by
  have hreplayed := PoolRegistry.gives_replayed stillEnv.clock pairAt99 twoSyncs.logs
  have hgives : pairAt99.Gives twoSyncs.logs pairAt100 := ⟨hreplayed.ledger, hreplayed.addresses, hreplayed.topics⟩
  refine hgives.holds pairAt99_holds twoSyncs.nodup (fun l hl => hl) fun a e _ l hl _ => ?_
  have hblock : ∀ l ∈ twoSyncs.logs, 99 < l.block ∧ l.block ≤ 100 := by decide +kernel
  have hle : ¬l.block ≤ pairAt99.lastProcessedBlock := not_le.2 (hblock l hl).1
  have hall : l.block ≤ pairAt100.lastProcessedBlock := (hblock l hl).2
  simp [hl, hle, hall]

/-- A sync of the block the cursor is at arrives before bootstrap, and is applied over the pair that
includes it. -/
theorem appliedOnce_run_fails :
    ¬ ∀ (c : Chain) (r : PoolRegistry (Traced Pool)), (r.Holds c fun l => l.block ≤ r.lastProcessedBlock) →
      ∀ (fill swapEventTx : Bool) (maxEvents maxBlocks settle : Nat) (events : List Event),
      (∀ x ∈ events, Possible c x) → ∀ k,
      let run := runTo (react c) (startOver c r fill swapEventTx maxEvents maxBlocks settle) events
      r.AppliedOnce (run k).registry ∧
        ∀ j ≤ k, (run j).registry.lastProcessedBlock ≤ (run k).registry.lastProcessedBlock := by
  intro h
  have hrun := (h twoSyncs pairAt100 pairAt100_holds true false 1000 10 20
    [.arrive (syncAt 100 1), .turn stillEnv (.bootDrain 100), .turn stillEnv .bootTakeGaps, .turn stillEnv .bootDone]
    (fun x hx => ?_) 4).1
  · obtain ⟨new, hnew, hnodup, -⟩ := hrun 1 (.UniswapV2, [(syncAt 100 0).untimed, (syncAt 100 1).untimed])
      (by decide +kernel)
    have hthrice := (by decide +kernel : (runTo (react twoSyncs) (startOver twoSyncs pairAt100 true false 1000 10 20)
      [.arrive (syncAt 100 1), .turn stillEnv (.bootDrain 100), .turn stillEnv .bootTakeGaps, .turn stillEnv .bootDone]
      4).registry.ledger 1 = some (.UniswapV2, [(syncAt 100 0).untimed, (syncAt 100 1).untimed, (syncAt 100 1).untimed]))
    have hgiven := congrArg Prod.snd (Option.some.inj (hnew.symm.trans hthrice))
    dsimp only at hgiven hnodup
    rw [hgiven] at hnodup
    revert hnodup
    decide +kernel
  · obtain ⟨k, hx⟩ := List.mem_iff_getElem?.1 hx
    match k with
    | 0 =>
      cases hx
      exact (by decide +kernel : syncAt 100 1 ∈ twoSyncs.logs)
    | 1 =>
      cases hx
      exact (by decide : 100 < 2 ^ 64)
    | 2 | 3 =>
      cases hx
      trivial
    | k + 4 => cases hx

end Session

end EvmDexPool
