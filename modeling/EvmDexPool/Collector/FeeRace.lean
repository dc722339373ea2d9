import EvmDexPool.Collector.Chain
import EvmDexPool.Collector.FeeReader

/-!
# Fee reads against logs (`collector/fee_reader.rs`, `collector/unified_pool_updater.rs:160-240`)

The updater's batches, the catch-up's logs and the spawned reads share the registry and take its pools'
locks in turn: each step here runs from one lock to the next. What a read plans for a pool, it plans under
that pool's lock, and writes back under it later.

| here | there |
| --- | --- |
| `takeBatch`, `applyNext`, `afterBatch` | one turn of the updater's loop, in a confirmed mode |
| `catchup`             | a log applied by `catchup_registry_to_block` or `bootstrap` |
| `restart`             | a new updater, with a new `FeeReader` |
| `FeeTask`             | a read that `after_batch` spawned (fee_reader.rs:236) |

`stale` and `owed` keep account: the pools reset since the read planned them, and those reset with no write
by a read planned since.
-/

namespace EvmDexPool

open Std Replay V3

/-- Where a spawned read is: its full pass's scan, its plan, and once the plan is whole its write-back. -/
inductive FeeTask.Stage
  | scanning (addresses left found : List Address)
  | planning (left : List Address)
deriving DecidableEq, Repr

structure FeeTask where
  stage : FeeTask.Stage
  plan : ReadPlan
  ofReader : Bool
  stale : List Address
deriving DecidableEq, Repr

structure FeeReading where
  registry : PoolRegistry Pool
  schedule : FeeReadSchedule
  busy : Bool
  batch : Option (List Log × List Address)
  tasks : List FeeTask
  owed : List Address

namespace FeeTask

/-- The pools the read has still to plan. -/
def toPlan (t : FeeTask) : List Address :=
  match t.stage with
  | .scanning addresses _ _ => addresses
  | .planning left => left

/-- The pools whose read is planned after their last reset, or still to be planned. -/
def covered (t : FeeTask) : List Address := t.toPlan ++ t.plan.wantFee.filter (· ∉ t.stale)

end FeeTask

namespace FeeReading

inductive Action
  | takeBatch (events : List Log)
  | applyNext (a : Address) (now : Nat)
  | afterBatch (now : Nat)
  | catchup (l : Log) (now : Nat)
  | restart
  | scan (k : Nat) (a : Address)
  | scanned (k : Nat)
  | plan (k : Nat) (a : Address)
  | writeFee (k : Nat) (a : Address) (fee config : Option Nat)
  | writeCurrentFee (k : Nat) (a : Address) (current : Option Nat)
  | finish (k : Nat)
  | fail (k : Nat)
deriving DecidableEq, Repr

variable (s : FeeReading)

/-- A new reader over the registry. -/
def start (r : PoolRegistry Pool) : FeeReading := ⟨r, .empty, false, none, [], []⟩

/-- The pool is an Algebra pool. -/
def algebra (r : PoolRegistry Pool) (a : Address) : Bool := (r.feeKind a).any (·.1 = .AlgebraV3)

/-! ## Logs -/

/-- What a log applied to its pool means for the reads. -/
def account (l : Log) : FeeReading :=
  if l.reconfigures ∧ algebra s.registry l.address then
    { s with
      tasks := s.tasks.map fun t => { t with stale := l.address :: t.stale }
      owed := l.address :: s.owed }
  else s

/-- The updater ends or is stopped, and its reader's queue with it; the reads that run go on. -/
def dropReader : FeeReading :=
  { s with
    schedule := .empty
    busy := false
    batch := none
    tasks := s.tasks.map fun t => { t with ofReader := false } }

/-- A batch is taken and its candidates are found (unified_pool_updater.rs:173). -/
def takeBatch (events : List Log) : FeeReading :=
  match s.batch with
  | none =>
    let out := s.registry.feeReadCandidates events
    { s with registry := out.1, batch := some (events, out.2) }
  | some _ => s

/-- The next of a pool's events in the batch is applied; a panic ends the updater. -/
def applyNext (a : Address) (now : Nat) : FeeReading :=
  match s.batch with
  | none => s
  | some (left, candidates) =>
    match left.find? (·.address = a) with
    | none => s
    | some l =>
      let out := onPool (applyOrReport (fun _ => now) l) l.address s.registry
      let s := { s with registry := out.1, batch := some (left.erase l, candidates) }.account l
      match out.2 with
      | .ok () => s
      | .error _ => s.dropReader

/-- Applying the next of a pool's events panics. -/
def panics (a : Address) (now : Nat) : Bool :=
  s.batch.any fun b => (b.1.find? (·.address = a)).any fun l =>
    !(onPool (applyOrReport (fun _ => now) l) l.address s.registry).2.isOk

/-- The batch is applied: its candidates are queued, and a read is spawned unless one runs
(fee_reader.rs:216). -/
def afterBatch (now : Nat) : FeeReading :=
  match s.batch with
  | some ([], candidates) =>
    match s.schedule.nextRead candidates s.registry.getDynamicFeeAddresses now s.busy with
    | (schedule, none) => { s with schedule := schedule, batch := none }
    | (schedule, some read) =>
      { s with
        schedule := schedule
        busy := true
        batch := none
        tasks := s.tasks ++ [{
          stage := if read.fullPass then .scanning read.addresses s.registry.getAllAddresses [] else .planning read.addresses
          plan := .empty
          ofReader := true
          stale := [] }] }
  | _ => s

/-- A log applied past the updater: nothing is tracked or queued. -/
def catchup (l : Log) (now : Nat) : FeeReading :=
  { s with registry := (onPool (applyOrWarn (fun _ => now) l) l.address s.registry).1 }.account l

/-- Between batches. -/
def restart : FeeReading :=
  match s.batch with
  | none => s.dropReader
  | some _ => s

/-! ## Reads -/

/-- The full pass looks at a pool (fee_reader.rs:116). -/
def scan (k : Nat) (a : Address) : FeeReading :=
  match s.tasks[k]? with
  | some t =>
    match t.stage with
    | .scanning addresses left found =>
      if a ∈ left then
        { s with tasks := s.tasks.set k { t with
            stage := .scanning addresses (left.erase a) (if s.registry.needsReading a then found ++ [a] else found) } }
      else s
    | .planning _ => s
  | none => s

/-- It has looked at all of them, and those it found are tracked and read (fee_reader.rs:125, 257). -/
def scanned (k : Nat) : FeeReading :=
  match s.tasks[k]? with
  | some t =>
    match t.stage with
    | .scanning addresses [] found =>
      { s with
        registry := found.foldl PoolRegistry.addDynamicFeeAddress s.registry
        tasks := s.tasks.set k { t with stage := .planning (((addresses ++ found).insertionSort (· ≤ ·)).dedup) } }
    | _ => s
  | none => s

/-- A pool is planned. -/
def plan (k : Nat) (a : Address) : FeeReading :=
  match s.tasks[k]? with
  | some t =>
    match t.stage with
    | .planning left =>
      if a ∈ left then
        { s with tasks := s.tasks.set k { t with
            stage := .planning (left.erase a)
            plan := t.plan.plan s.registry a
            stale := t.stale.filter (· ≠ a) } }
      else s
    | .scanning .. => s
  | none => s

/-- The pool's answers are written back. -/
def writeFee (k : Nat) (a : Address) (fee config : Option Nat) : FeeReading :=
  match s.tasks[k]? with
  | some t =>
    if t.stage = .planning [] ∧ a ∈ t.plan.wantFee then
      { s with
        registry := s.registry.writeFee a fee (if a ∈ t.plan.wantConfig then config else none)
        tasks := s.tasks.set k { t with plan := { t.plan with wantFee := t.plan.wantFee.filter (· ≠ a) } }
        owed := if fee.isSome ∧ a ∉ t.stale then s.owed.filter (· ≠ a) else s.owed }
    else s
  | none => s

def writeCurrentFee (k : Nat) (a : Address) (current : Option Nat) : FeeReading :=
  match s.tasks[k]? with
  | some t =>
    if t.stage = .planning [] ∧ a ∈ t.plan.wantCurrentFee then
      { s with
        registry := s.registry.writeCurrentFee a current
        tasks := s.tasks.set k
          { t with plan := { t.plan with wantCurrentFee := t.plan.wantCurrentFee.filter (· ≠ a) } } }
    else s
  | none => s

/-- The read is over, and so is its reader's wait for it. -/
def endTask (k : Nat) : FeeReading :=
  { s with
    tasks := s.tasks.eraseIdx k
    busy := if s.tasks[k]?.any (·.ofReader) then false else s.busy }

/-- Everything is written back. -/
def finish (k : Nat) : FeeReading :=
  match s.tasks[k]? with
  | some t => if t.stage = .planning [] ∧ t.plan.wantFee = [] ∧ t.plan.wantCurrentFee = [] then s.endTask k else s
  | none => s

/-- The read fails or times out. -/
def fail (k : Nat) : FeeReading := s.endTask k

def step (s : FeeReading) : Action → FeeReading
  | .takeBatch events => s.takeBatch events
  | .applyNext a now => s.applyNext a now
  | .afterBatch now => s.afterBatch now
  | .catchup l now => s.catchup l now
  | .restart => s.restart
  | .scan k a => s.scan k a
  | .scanned k => s.scanned k
  | .plan k a => s.plan k a
  | .writeFee k a fee config => s.writeFee k a fee config
  | .writeCurrentFee k a current => s.writeCurrentFee k a current
  | .finish k => s.finish k
  | .fail k => s.fail k

/-! ## What a reset pool is owed -/

/-- The pool is queued or being read again. -/
def Guarded (a : Address) : Prop := a ∈ s.schedule.queued ∨ ∃ t ∈ s.tasks, a ∈ t.covered

instance (a : Address) : Decidable (s.Guarded a) :=
  inferInstanceAs (Decidable (a ∈ s.schedule.queued ∨ ∃ t ∈ s.tasks, a ∈ t.covered))

/-- The pool is not classified, or is tracked. -/
def Watched (a : Address) : Prop :=
  (s.registry.feeKind a).map Prod.snd = some .unknown ∨ s.registry.isDynamicFeeAddress a = true

/-- Every pool that was reset, until a read planned since writes back, is watched, queued or being read. -/
def Attended : Prop := ∀ a ∈ s.owed, s.Watched a ∨ s.Guarded a

/-- The pools whose place in the queue or whose read the step gives up. -/
def givesUp : Action → List Address
  | .applyNext a now => if s.panics a now then s.schedule.queued else []
  | .restart => s.schedule.queued
  | .writeFee k a none _ => (s.tasks[k]?).elim [] fun t => t.covered.filter (· = a)
  | .fail k => (s.tasks[k]?).elim [] FeeTask.covered
  | _ => []

/-- The pool that the step finds to be event-driven by a read planned before its last reset. -/
def misreads : Action → List Address
  | .writeFee k a (some _) (some config) =>
    (s.tasks[k]?).elim [] fun t =>
      if a ∈ t.plan.wantConfig ∧ a ∈ t.stale ∧ feeSourceOfConfig config = .events then [a] else []
  | _ => []

/-- The step lets a stale read classify a pool as event-driven only if the pool is queued or being read
again, and gives no pool up that such a read has left so. -/
def Meets (act : Action) : Prop :=
  (∀ a ∈ s.givesUp act, a ∈ s.owed → s.Watched a) ∧ ∀ a ∈ s.misreads act, a ∈ s.owed → s.Guarded a

instance (a : Address) : Decidable (s.Watched a) :=
  inferInstanceAs (Decidable ((s.registry.feeKind a).map Prod.snd = some .unknown ∨ s.registry.isDynamicFeeAddress a = true))

instance (act : Action) : Decidable (s.Meets act) :=
  inferInstanceAs (Decidable ((∀ a ∈ s.givesUp act, a ∈ s.owed → s.Watched a) ∧
    ∀ a ∈ s.misreads act, a ∈ s.owed → s.Guarded a))

instance : Decidable s.Attended := inferInstanceAs (Decidable (∀ a ∈ s.owed, s.Watched a ∨ s.Guarded a))

/-- What the steps keep: a read of an Algebra pool asks for `fee()`, and what the pools are owed. -/
structure Sound (s : FeeReading) : Prop where
  owed : ∀ a ∈ s.owed, algebra s.registry a
  source : ∀ a, s.registry.feeKind a ≠ some (.AlgebraV3, .readCurrentFee)
  plans : ∀ t ∈ s.tasks, ∀ a ∈ t.plan.wantCurrentFee, ¬ algebra s.registry a
  attended : s.Attended

variable {s}

/-- A step that changes what no V3 pool is, stops no tracking and takes no guard away. -/
theorem Sound.frame {s' : FeeReading} (h : s.Sound) (hkind : ∀ a, s'.registry.feeKind a = s.registry.feeKind a)
    (htracked : ∀ a, s.registry.isDynamicFeeAddress a = true → s'.registry.isDynamicFeeAddress a = true)
    (hplans : ∀ t ∈ s'.tasks, ∀ a ∈ t.plan.wantCurrentFee, ¬ algebra s.registry a)
    (howed : ∀ a ∈ s'.owed, a ∈ s.owed) (hguard : ∀ a ∈ s'.owed, s.Guarded a → s.Watched a ∨ s'.Guarded a) : s'.Sound := by
  have halgebra : ∀ a, algebra s'.registry a = algebra s.registry a := by
    intro a
    unfold algebra
    rw [hkind]
  have hwatched : ∀ a, s.Watched a → s'.Watched a := by
    intro a hw
    unfold Watched at *
    rw [hkind]
    exact hw.imp_right (htracked a)
  refine ⟨fun a ha => ?_, fun a => ?_, fun t ht a ha => ?_, fun a ha => ?_⟩
  · rw [halgebra]
    exact h.owed a (howed a ha)
  · rw [hkind]
    exact h.source a
  · rw [halgebra]
    exact hplans t ht a ha
  · rcases h.attended a (howed a ha) with hw | hg
    · exact .inl (hwatched a hw)
    · exact (hguard a ha hg).imp_left (hwatched a)

/-! ## Logs -/

theorem Sound.dropReader (h : s.Sound) (hq : ∀ a ∈ s.schedule.queued, a ∈ s.owed → s.Watched a) : s.dropReader.Sound := by
  refine h.frame (fun _ => rfl) (fun _ => id) (fun t ht => ?_) (fun _ => id) fun a ha hg => ?_
  · obtain ⟨t0, ht0, rfl⟩ := List.mem_map.1 ht
    exact h.plans t0 ht0
  · rcases hg with hg | ⟨t, ht, hc⟩
    · exact .inl (hq a hg ha)
    · exact .inr (.inr ⟨_, List.mem_map_of_mem ht, hc⟩)

/-- A log was applied to its pool, and what is owed for it is not yet accounted for. -/
structure Applies (s : FeeReading) (l : Log) (s' : FeeReading) : Prop where
  kind : ∀ a, s'.registry.feeKind a =
    if a = l.address then (s.registry.feeKind a).map (PoolRegistry.reclassify l) else s.registry.feeKind a
  tracked : ∀ a, s'.registry.isDynamicFeeAddress a = s.registry.isDynamicFeeAddress a
  schedule : s'.schedule = s.schedule
  tasks : s'.tasks = s.tasks
  owed : s'.owed = s.owed

variable {s' : FeeReading} {l : Log}

theorem Applies.algebra (happ : s.Applies l s') (a : Address) : algebra s'.registry a = algebra s.registry a := by
  unfold FeeReading.algebra
  rw [happ.kind]
  split
  · rw [Option.any_map]
    rfl
  · rfl

/-- The pool that a log resets is watched; the others are as they were. -/
theorem Applies.watched (happ : s.Applies l s') (h : s.Sound) {a : Address} (ha : a ∈ (s'.account l).owed) :
    (s'.account l).Watched a ∨
      a ∈ s.owed ∧ ¬ (a = l.address ∧ l.reconfigures) ∧ (s.Watched a → (s'.account l).Watched a) := by
  have hreset : l.reconfigures → FeeReading.algebra s'.registry l.address → s'.Watched l.address := by
    intro hl halg
    rw [happ.algebra] at halg
    unfold FeeReading.algebra at halg
    obtain ⟨kind, hk, -⟩ := (Option.any_eq_true ..).1 halg
    refine .inl ?_
    rw [happ.kind, if_pos rfl, hk]
    unfold PoolRegistry.reclassify
    simp [hl]
  have hsame : ¬ (a = l.address ∧ l.reconfigures) → s.Watched a → s'.Watched a := by
    intro hno hw
    have hk : s'.registry.feeKind a = s.registry.feeKind a := by
      rw [happ.kind]
      split
      · next heq =>
        have hre : PoolRegistry.reclassify l = id := by
          funext kind
          unfold PoolRegistry.reclassify
          rw [if_neg fun hl => hno ⟨heq, hl⟩]
          rfl
        rw [hre, Option.map_id]
        rfl
      · rfl
    unfold Watched at *
    rwa [hk, happ.tracked]
  unfold FeeReading.account at *
  split at ha
  · next hl =>
    rw [if_pos hl]
    by_cases heq : a = l.address
    · subst heq
      exact .inl (hreset hl.1 hl.2)
    · have ha := (List.mem_cons.1 ha).resolve_left heq
      rw [happ.owed] at ha
      exact .inr ⟨ha, fun h => heq h.1, hsame fun h => heq h.1⟩
  · next hl =>
    rw [if_neg hl]
    rw [happ.owed] at ha
    have hno : ¬ (a = l.address ∧ l.reconfigures) := by
      rintro ⟨rfl, hre⟩
      exact hl ⟨hre, (happ.algebra _).trans (h.owed _ ha)⟩
    exact .inr ⟨ha, hno, hsame hno⟩

/-- A log resets its pool or changes nothing that matters here. -/
theorem Applies.sound (happ : s.Applies l s') (h : s.Sound) : (s'.account l).Sound := by
  have hregistry : (s'.account l).registry = s'.registry := by
    unfold FeeReading.account
    split <;> rfl
  refine ⟨fun a ha => ?_, fun a => ?_, fun t ht a ha => ?_, fun a ha => ?_⟩
  · rw [hregistry]
    unfold FeeReading.account at ha
    split at ha
    · next hl =>
      rcases List.mem_cons.1 ha with rfl | ha
      · exact hl.2
      · exact (happ.algebra a).trans (h.owed a (happ.owed ▸ ha))
    · exact (happ.algebra a).trans (h.owed a (happ.owed ▸ ha))
  · rw [hregistry, happ.kind]
    split
    · intro hmap
      obtain ⟨kind, hk, hre⟩ := Option.map_eq_some_iff.1 hmap
      unfold PoolRegistry.reclassify at hre
      split at hre
      · exact FeeSource.noConfusion (congrArg Prod.snd hre)
      · exact h.source a (hk.trans (congrArg some hre))
    · exact h.source a
  · rw [hregistry, happ.algebra]
    unfold FeeReading.account at ht
    split at ht
    · obtain ⟨t0, ht0, rfl⟩ := List.mem_map.1 ht
      exact h.plans t0 (happ.tasks ▸ ht0) a ha
    · exact h.plans t (happ.tasks ▸ ht) a ha
  · rcases happ.watched h ha with hw | ⟨ho, hno, hw⟩
    · exact .inl hw
    rcases h.attended a ho with hat | hq | ⟨t, ht, hc⟩
    · exact .inl (hw hat)
    · refine .inr (.inl ?_)
      have hschedule : (s'.account l).schedule = s.schedule := by
        rw [← happ.schedule]
        unfold FeeReading.account
        split <;> rfl
      rw [hschedule]
      exact hq
    · rw [← happ.tasks] at ht
      unfold FeeReading.account
      split
      · next hl =>
        -- the read's plan is stale for the log's pool alone
        refine .inr (.inr ⟨_, List.mem_map_of_mem ht, ?_⟩)
        unfold FeeTask.covered at *
        refine (List.mem_append.1 hc).elim (List.mem_append_left _) fun hin => List.mem_append_right _ ?_
        obtain ⟨hin, hst⟩ := List.mem_filter.1 hin
        have hne : a ≠ l.address := fun heq => hno ⟨heq, hl.1⟩
        refine List.mem_filter.2 ⟨hin, ?_⟩
        simpa [hne] using hst
      · exact .inr (.inr ⟨t, ht, hc⟩)

theorem Sound.takeBatch (h : s.Sound) (events : List Log) : (s.takeBatch events).Sound := by
  unfold FeeReading.takeBatch
  split
  · exact h.frame (fun a => (PoolRegistry.feeReadCandidates_frame events s.registry a).1)
      (fun a => (PoolRegistry.feeReadCandidates_frame events s.registry a).2) h.plans (fun _ => id) fun _ _ hg => .inr hg
  · exact h

theorem Sound.applyNext (h : s.Sound) (a : Address) (now : Nat)
    (hq : s.panics a now = true → ∀ b ∈ s.schedule.queued, b ∈ s.owed → s.Watched b) : (s.applyNext a now).Sound := by
  unfold FeeReading.applyNext FeeReading.panics at *
  split
  · exact h
  · next left candidates hbatch =>
    rw [hbatch] at hq
    split
    · exact h
    · next l hl =>
      have happ : s.Applies l { s with
          registry := (onPool (applyOrReport (fun _ => now) l) l.address s.registry).1
          batch := some (left.erase l, candidates) } :=
        ⟨fun _ => PoolRegistry.feeKind_applyOrReport .., fun _ => PoolRegistry.onPool_tracked .., rfl, rfl, rfl⟩
      have hs := happ.sound h
      dsimp only at hs ⊢
      split
      · exact hs
      · next e he =>
        rw [Option.any_some, hl, Option.any_some, he] at hq
        refine hs.dropReader fun b hb ho => ?_
        rcases happ.watched h ho with hw | ⟨ho, -, hw⟩
        · exact hw
        · refine hw (hq rfl b ?_ ho)
          unfold FeeReading.account at hb
          split at hb <;> exact hb

theorem Sound.catchup (h : s.Sound) (l : Log) (now : Nat) : (s.catchup l now).Sound :=
  Applies.sound ⟨fun _ => PoolRegistry.feeKind_applyOrWarn .., fun _ => PoolRegistry.onPool_tracked .., rfl, rfl, rfl⟩ h

theorem Sound.restart (h : s.Sound) (hq : ∀ a ∈ s.schedule.queued, a ∈ s.owed → s.Watched a) : s.restart.Sound := by
  unfold FeeReading.restart
  split
  · exact h.dropReader hq
  · exact h

/-! ## Reads -/

theorem Sound.afterBatch (h : s.Sound) (now : Nat) : (s.afterBatch now).Sound := by
  unfold FeeReading.afterBatch
  split
  · next candidates hbatch =>
    have hmem := fun a => FeeReadSchedule.mem_nextRead (s := s.schedule) (a := a) candidates
      s.registry.getDynamicFeeAddresses now s.busy
    split
    · next schedule hnext =>
      rw [hnext] at hmem
      refine h.frame (fun _ => rfl) (fun _ => id) h.plans (fun _ => id) fun a _ hg => .inr ?_
      refine hg.imp_left fun hq => (hmem a hq).resolve_right ?_
      rintro ⟨read, hread, -⟩
      cases hread
    · next schedule read hnext =>
      rw [hnext] at hmem
      refine h.frame (fun _ => rfl) (fun _ => id) (fun t ht a ha => ?_) (fun _ => id) fun a _ hg => .inr ?_
      · rcases List.mem_append.1 ht with ht | ht
        · exact h.plans t ht a ha
        · rw [List.mem_singleton.1 ht] at ha
          cases ha
      · rcases hg with hq | ⟨t, ht, hc⟩
        · rcases hmem a hq with hq | ⟨read', hread, hin⟩
          · exact .inl hq
          · cases hread
            refine .inr ⟨_, List.mem_append_right _ List.mem_cons_self, List.mem_append_left _ ?_⟩
            unfold FeeTask.toPlan
            dsimp only
            cases read.fullPass <;> exact hin
        · exact .inr ⟨t, List.mem_append_left _ ht, hc⟩
  · exact h

/-- A step on one read that guards the pools it guarded. -/
theorem Sound.setTask {k : Nat} {t t' : FeeTask} {r : PoolRegistry Pool} (h : s.Sound) (ht : s.tasks[k]? = some t)
    (hkind : ∀ a, r.feeKind a = s.registry.feeKind a)
    (htracked : ∀ a, s.registry.isDynamicFeeAddress a = true → r.isDynamicFeeAddress a = true)
    (hplan : ∀ a ∈ t'.plan.wantCurrentFee, a ∈ t.plan.wantCurrentFee ∨ ¬ algebra s.registry a)
    (hcovered : ∀ a ∈ t.covered, a ∈ s.owed → a ∈ t'.covered) :
    ({ s with registry := r, tasks := s.tasks.set k t' } : FeeReading).Sound := by
  have hk : k < s.tasks.length := (List.getElem?_eq_some_iff.1 ht).1
  refine h.frame hkind htracked (fun x hx a ha => ?_) (fun _ => id) fun a ha hg => .inr ?_
  · rcases List.mem_or_eq_of_mem_set hx with hx | rfl
    · exact h.plans x hx a ha
    · exact (hplan a ha).elim (h.plans t (List.mem_of_getElem? ht) a) id
  · refine hg.imp_right fun ⟨x, hx, hc⟩ => ?_
    obtain ⟨j, hj⟩ := List.mem_iff_getElem?.1 hx
    by_cases hkj : j = k
    · subst hkj
      cases hj.symm.trans ht
      exact ⟨t', List.mem_set hk t', hcovered a hc ha⟩
    · refine ⟨x, List.mem_iff_getElem?.2 ⟨j, ?_⟩, hc⟩
      rwa [List.getElem?_set_ne (Ne.symm hkj)]

theorem Sound.scan (h : s.Sound) (k : Nat) (a : Address) : (s.scan k a).Sound := by
  unfold FeeReading.scan
  split
  · next t ht =>
    split
    · next addresses left found hstage =>
      split
      · refine h.setTask ht (fun _ => rfl) (fun _ => id) (fun _ ha => .inl ha) fun b hb _ => ?_
        unfold FeeTask.covered FeeTask.toPlan at *
        rw [hstage] at hb
        exact hb
      · exact h
    · exact h
  · exact h

theorem Sound.scanned (h : s.Sound) (k : Nat) : (s.scanned k).Sound := by
  unfold FeeReading.scanned
  split
  · next t ht =>
    split
    · next addresses found hstage =>
      have hframe := fun a => PoolRegistry.addDynamicFeeAddresses_frame found s.registry a
      refine h.setTask ht (fun a => (hframe a).1) (fun a => (hframe a).2) (fun _ ha => .inl ha) fun b hb _ => ?_
      unfold FeeTask.covered FeeTask.toPlan at *
      rw [hstage] at hb
      refine (List.mem_append.1 hb).elim (fun hb => List.mem_append_left _ ?_) (List.mem_append_right _)
      exact List.mem_dedup.2 ((List.perm_insertionSort ..).mem_iff.2 (List.mem_append_left _ hb))
    · exact h
  · exact h

/-- A pool leaves the addresses to plan for the plan, which is not stale for it. -/
theorem Sound.plan (h : s.Sound) (k : Nat) (a : Address) : (s.plan k a).Sound := by
  unfold FeeReading.plan
  split
  · next t ht =>
    split
    · next left hstage =>
      split
      · obtain ⟨hfee, hcurrent, hself⟩ := t.plan.plan_frame s.registry a
        have hsource : ∀ source, s.registry.feeKind a = some (.AlgebraV3, source) → source ≠ .readCurrentFee := by
          rintro source hk rfl
          exact h.source a hk
        refine h.setTask ht (fun _ => rfl) (fun _ => id) (fun b hb => ?_) fun b hb ho => ?_
        · refine (hcurrent b hb).imp_right ?_
          rintro ⟨rfl, hno⟩ halg
          obtain ⟨⟨type, source⟩, hk, htype⟩ := (Option.any_eq_true ..).1 halg
          have htype : type = .AlgebraV3 := of_decide_eq_true htype
          subst htype
          exact hsource source hk (hno source hk)
        · unfold FeeTask.covered FeeTask.toPlan at *
          rw [hstage] at hb
          by_cases heq : b = a
          · subst heq
            obtain ⟨⟨type, source⟩, hk, htype⟩ := (Option.any_eq_true ..).1 (h.owed b ho)
            have htype : type = .AlgebraV3 := of_decide_eq_true htype
            subst htype
            refine List.mem_append_right _ (List.mem_filter.2 ⟨hself source hk (hsource source hk), ?_⟩)
            simp
          · rcases List.mem_append.1 hb with hb | hb
            · exact List.mem_append_left _ ((List.mem_erase_of_ne heq).2 hb)
            · obtain ⟨hb, hst⟩ := List.mem_filter.1 hb
              refine List.mem_append_right _ (List.mem_filter.2 ⟨hfee b hb, ?_⟩)
              simp only [decide_eq_true_eq] at hst ⊢
              exact fun hin => hst (List.mem_filter.1 hin).1
      · exact h
    · exact h
  · exact h

theorem Sound.endTask (h : s.Sound) {k : Nat}
    (hc : ∀ t, s.tasks[k]? = some t → ∀ a ∈ t.covered, a ∈ s.owed → s.Watched a) : (s.endTask k).Sound := by
  refine h.frame (fun _ => rfl) (fun _ => id) (fun t ht => h.plans t (List.mem_of_mem_eraseIdx ht)) (fun _ => id)
    fun a ha hg => ?_
  rcases hg with hq | ⟨t, ht, hin⟩
  · exact .inr (.inl hq)
  · obtain ⟨j, hj⟩ := List.mem_iff_getElem?.1 ht
    by_cases hjk : j = k
    · subst hjk
      exact .inl (hc t hj a hin ha)
    · exact .inr (.inr ⟨t, List.mem_eraseIdx_iff_getElem?.2 ⟨j, hjk, hj⟩, hin⟩)

theorem Sound.finish (h : s.Sound) (k : Nat) : (s.finish k).Sound := by
  unfold FeeReading.finish
  split
  · next t ht =>
    split
    · next hdone =>
      refine h.endTask fun t' ht' a ha => ?_
      cases ht.symm.trans ht'
      unfold FeeTask.covered FeeTask.toPlan at ha
      rw [hdone.1, hdone.2.1] at ha
      cases ha
    · exact h
  · exact h

/-! ## Write-backs -/

theorem algebra_writeFee (r : PoolRegistry Pool) (a b : Address) (fee config : Option Nat) :
    algebra (r.writeFee b fee config) a = algebra r a := by
  unfold algebra
  rw [PoolRegistry.feeKind_writeFee]
  split
  · rewrite [Option.any_map]
    rfl
  · rfl

/-- The read still guards the pools it guarded but `a`, and `a` only if its plan was not stale. -/
theorem guarded_set {k : Nat} {a b : Address} {t : FeeTask} {r : PoolRegistry Pool} {owed : List Address}
    (ht : s.tasks[k]? = some t) (hb : b ≠ a ∨ b ∉ t.covered) (hg : s.Guarded b) :
    ({ s with
        registry := r
        tasks := s.tasks.set k { t with plan := { t.plan with wantFee := t.plan.wantFee.filter (· ≠ a) } }
        owed := owed } : FeeReading).Guarded b := by
  have hk : k < s.tasks.length := (List.getElem?_eq_some_iff.1 ht).1
  refine hg.imp_right fun ⟨x, hx, hc⟩ => ?_
  obtain ⟨j, hj⟩ := List.mem_iff_getElem?.1 hx
  by_cases hkj : j = k
  · subst hkj
    cases hj.symm.trans ht
    have hne := hb.resolve_right fun hno => hno hc
    refine ⟨_, List.mem_set hk _, ?_⟩
    unfold FeeTask.covered at *
    refine (List.mem_append.1 hc).elim (List.mem_append_left _) fun hin => List.mem_append_right _ ?_
    obtain ⟨hin, hst⟩ := List.mem_filter.1 hin
    exact List.mem_filter.2 ⟨List.mem_filter.2 ⟨hin, decide_eq_true hne⟩, hst⟩
  · refine ⟨x, List.mem_iff_getElem?.2 ⟨j, ?_⟩, hc⟩
    rwa [List.getElem?_set_ne (Ne.symm hkj)]

theorem Sound.writeFee (h : s.Sound) (k : Nat) (a : Address) (fee config : Option Nat)
    (hm : s.Meets (.writeFee k a fee config)) : (s.writeFee k a fee config).Sound := by
  obtain ⟨hgives, hstale⟩ := hm
  unfold FeeReading.writeFee
  split
  · next t ht =>
    split
    · next hwant =>
      have howed : ∀ b ∈ (if fee.isSome ∧ a ∉ t.stale then s.owed.filter (· ≠ a) else s.owed),
          b ∈ s.owed ∧ (b = a → fee = none ∨ a ∈ t.stale) := by
        intro b hb
        split at hb
        · obtain ⟨hb, hne⟩ := List.mem_filter.1 hb
          exact ⟨hb, fun heq => absurd heq (of_decide_eq_true hne)⟩
        · next hno =>
          refine ⟨hb, fun _ => ?_⟩
          cases fee with
          | none => exact .inl rfl
          | some _ => exact .inr (not_not.1 fun hn => hno ⟨rfl, hn⟩)
      refine ⟨fun b hb => ?_, fun b => ?_, fun x hx b hb => ?_, fun b hb => ?_⟩
      · exact (algebra_writeFee ..).trans (h.owed b (howed b hb).1)
      · change (s.registry.writeFee a fee _).feeKind b ≠ _
        rw [PoolRegistry.feeKind_writeFee]
        split
        · intro hmap
          obtain ⟨kind, hk, hre⟩ := Option.map_eq_some_iff.1 hmap
          cases hcfg : (if a ∈ t.plan.wantConfig then config else none) with
          | none =>
            rw [hcfg] at hre
            exact h.source b (hk.trans (congrArg some hre))
          | some y =>
            rw [hcfg] at hre
            have hread : feeSourceOfConfig y = .readCurrentFee := congrArg Prod.snd hre
            unfold feeSourceOfConfig at hread
            split at hread <;> cases hread
        · exact h.source b
      · change ¬ algebra (s.registry.writeFee a fee _) b
        rw [algebra_writeFee]
        rcases List.mem_or_eq_of_mem_set hx with hx | rfl
        · exact h.plans x hx b hb
        · exact h.plans t (List.mem_of_getElem? ht) b hb
      · obtain ⟨ho, hself⟩ := howed b hb
        by_cases heq : b = a
        · subst heq
          rcases hfee : fee with _ | x
          · -- no answer: nothing is written, and the pool loses this read
            subst hfee
            rcases h.attended b ho with hw | hg
            · exact .inl hw
            · by_cases hc : b ∈ t.covered
              · refine .inl (hgives b ?_ ho)
                change b ∈ (s.tasks[k]?).elim [] fun t => t.covered.filter (· = b)
                rw [ht]
                exact List.mem_filter.2 ⟨hc, decide_eq_true rfl⟩
              · exact .inr (guarded_set ht (.inr hc) hg)
          · subst hfee
            have hst : b ∈ t.stale := (hself rfl).resolve_left nofun
            have hnot : b ∉ t.covered := by
              unfold FeeTask.covered FeeTask.toPlan
              rw [hwant.1]
              simp [hst]
            rcases hcfg : (if b ∈ t.plan.wantConfig then config else none) with _ | y
            · -- the fee alone is written
              rcases h.attended b ho with hw | hg
              · refine .inl (hw.imp (fun hw => ?_) fun hw => ?_)
                · change ((s.registry.writeFee b (some x) none).feeKind b).map Prod.snd = _
                  rw [PoolRegistry.feeKind_writeFee, if_pos ⟨rfl, rfl⟩, Option.map_map]
                  exact hw
                · exact (PoolRegistry.writeFee_tracked_self b (some x) none nofun).1 hw
              · exact .inr (guarded_set ht (.inr hnot) hg)
            · have hconfig : b ∈ t.plan.wantConfig ∧ config = some y := by
                split at hcfg
                · next hin => exact ⟨hin, hcfg⟩
                · cases hcfg
              by_cases hevents : feeSourceOfConfig y = .events
              · have hg := hstale b (by
                  rw [hconfig.2]
                  change b ∈ (s.tasks[k]?).elim [] fun t =>
                    if b ∈ t.plan.wantConfig ∧ b ∈ t.stale ∧ feeSourceOfConfig y = .events then [b] else []
                  rw [ht]
                  change b ∈ if _ then _ else _
                  rw [if_pos ⟨hconfig.1, hst, hevents⟩]
                  exact List.mem_cons_self) ho
                exact .inr (guarded_set ht (.inr hnot) hg)
              · -- read from now on, and tracked
                have hsome : (s.registry.feeKind b).isSome := by
                  obtain ⟨kind, hk, -⟩ := (Option.any_eq_true ..).1 (h.owed b ho)
                  rw [hk]
                  rfl
                refine .inl (.inr ((PoolRegistry.writeFee_tracked_self b (some x) (some y) ?_).2 rfl rfl hsome))
                rintro _ _ - hy
                cases hy
                exact hevents
        · rcases h.attended b ho with hw | hg
          · refine .inl ?_
            unfold Watched at *
            dsimp only
            rwa [PoolRegistry.feeKind_writeFee, if_neg fun hc => heq hc.1, PoolRegistry.writeFee_tracked heq]
          · exact .inr (guarded_set ht (.inl heq) hg)
    · exact h
  · exact h

theorem Sound.writeCurrentFee (h : s.Sound) (k : Nat) (a : Address) (current : Option Nat) :
    (s.writeCurrentFee k a current).Sound := by
  unfold FeeReading.writeCurrentFee
  split
  · next t ht =>
    split
    · next hwant =>
      -- an Algebra pool is not asked for `currentFee()`
      have hno := h.plans t (List.mem_of_getElem? ht) a hwant.2
      have hframe := fun b => PoolRegistry.writeCurrentFee_frame (r := s.registry) current b a
      have halgebra : ∀ b, algebra (s.registry.writeCurrentFee a current) b = algebra s.registry b := by
        intro b
        have htype := congrArg (Option.any (· = V3PoolType.AlgebraV3)) (hframe b).1
        rwa [Option.any_map, Option.any_map] at htype
      have hk : k < s.tasks.length := (List.getElem?_eq_some_iff.1 ht).1
      refine ⟨fun b hb => (halgebra b).trans (h.owed b hb), fun b hkind => ?_, fun x hx b hb => ?_, fun b hb => ?_⟩
      · by_cases heq : b = a
        · subst heq
          refine hno ((halgebra b).symm.trans ?_)
          unfold algebra
          rw [hkind]
          rfl
        · exact h.source b (((hframe b).2 heq).1.symm.trans hkind)
      · rw [halgebra]
        rcases List.mem_or_eq_of_mem_set hx with hx | rfl
        · exact h.plans x hx b hb
        · exact h.plans t (List.mem_of_getElem? ht) b (List.mem_filter.1 hb).1
      · have hne : b ≠ a := by
          rintro rfl
          exact hno (h.owed b hb)
        obtain ⟨hkind, htracked⟩ := (hframe b).2 hne
        refine (h.attended b hb).imp (fun hw => ?_) fun hg => hg.imp_right fun ⟨x, hx, hc⟩ => ?_
        · unfold Watched at *
          dsimp only
          rwa [hkind, htracked]
        · obtain ⟨j, hj⟩ := List.mem_iff_getElem?.1 hx
          by_cases hkj : j = k
          · subst hkj
            cases hj.symm.trans ht
            exact ⟨_, List.mem_set hk _, hc⟩
          · refine ⟨x, List.mem_iff_getElem?.2 ⟨j, ?_⟩, hc⟩
            rwa [List.getElem?_set_ne (Ne.symm hkj)]
    · exact h
  · exact h

/-! ## Every run -/

theorem Sound.step (h : s.Sound) (act : Action) (hm : s.Meets act) : (s.step act).Sound := by
  cases act with
  | takeBatch events => exact h.takeBatch events
  | applyNext a now =>
    refine h.applyNext a now fun hp b hb => hm.1 b ?_
    unfold givesUp
    dsimp only
    rw [if_pos hp]
    exact hb
  | afterBatch now => exact h.afterBatch now
  | catchup l now => exact h.catchup l now
  | restart => exact h.restart hm.1
  | scan k a => exact h.scan k a
  | scanned k => exact h.scanned k
  | plan k a => exact h.plan k a
  | writeFee k a fee config => exact h.writeFee k a fee config hm
  | writeCurrentFee k a current => exact h.writeCurrentFee k a current
  | finish k => exact h.finish k
  | fail k =>
    refine h.endTask fun t ht a ha => hm.1 a ?_
    change a ∈ (s.tasks[k]?).elim [] FeeTask.covered
    rw [ht]
    exact ha

theorem sound_start {r : PoolRegistry Pool} (hr : ∀ a, r.feeKind a ≠ some (.AlgebraV3, .readCurrentFee)) :
    (start r).Sound :=
  ⟨fun _ ha => absurd ha List.not_mem_nil, hr, fun _ ht => absurd ht List.not_mem_nil,
    fun _ ha => absurd ha List.not_mem_nil⟩

/-- **A reset Algebra pool is watched, queued or read until a read planned since writes back**, in every run
whose steps do not let a stale read classify it as event-driven while nothing else will read it. -/
theorem attended_all_along (r : PoolRegistry Pool) (hr : ∀ a, r.feeKind a ≠ some (.AlgebraV3, .readCurrentFee))
    (actions : List Action) (hm : ∀ k act, actions[k]? = some act → (runTo step (start r) actions k).Meets act) (k : Nat) :
    (runTo step (start r) actions k).Attended :=
  (runTo_invariant (P := Sound) (sound_start hr) (fun k act hact h => h.step act (hm k act hact)) k).attended

/-! ## A pool reset while it is read -/

/-- An Algebra pool that has not been classified. -/
def algebraPool (a : Address) : UniswapV3Pool where
  poolType := .AlgebraV3
  address := a
  token0 := 1
  token1 := 2
  fee := 100
  tickSpacing := 60
  sqrtPriceX96 := 2 ^ 96
  tick := 0
  liquidity := 1000
  ticks := ∅
  factory := 0
  lastUpdated := 0
  createdAt := 0
  feeSource := .unknown
  swapFeeMisses := []

/-- One such pool, tracked as it was added. -/
def algebraAt1 : PoolRegistry Pool := PoolRegistry.empty.addPool (.v3 (algebraPool 1))

/-- Its plugin is configured. -/
def configured : Log := { syncAt 100 0 with payload := .event (.v3 (.pluginConfig 0x80)) }

/-- The first full pass plans its read of the pool. -/
def firstRead : List Action := [.takeBatch [], .afterBatch 0, .scan 0 1, .scanned 0, .plan 0 1]

theorem algebraAt1_source (a : Address) : algebraAt1.feeKind a ≠ some (.AlgebraV3, .readCurrentFee) := by
  have hpools : algebraAt1.byAddress = (∅ : Std.ExtTreeMap Address Pool).insert 1 (.v3 (algebraPool 1)) := rfl
  unfold PoolRegistry.feeKind PoolRegistry.getV3 PoolRegistry.getPool
  rw [hpools, Ranges.lookup_insert]
  split
  · exact nofun
  · simp

/-- The reset comes in a batch: the stale answer finds the pool queued, and it is read again. -/
def resetInBatch : List Action :=
  firstRead ++ [.takeBatch [configured], .applyNext 1 0, .afterBatch 10, .writeFee 0 1 (some 100) (some 0), .finish 0,
    .takeBatch [], .afterBatch 20, .plan 0 1]

theorem attended_all_along_batch : (runTo step (start algebraAt1) resetInBatch 13).Attended :=
  attended_all_along algebraAt1 algebraAt1_source resetInBatch (fun k act h => by
    have hall : ∀ k < 13, ∀ act ∈ resetInBatch[k]?, (runTo step (start algebraAt1) resetInBatch k).Meets act := by
      decide +kernel
    exact hall k (List.getElem?_eq_some_iff.1 h).1 act h) 13

/-- The reset comes by a catch-up, between a read's plan and its write-back: the pool is left event-driven,
not tracked and not queued. -/
theorem attended_all_along_fails :
    ¬ ∀ (r : PoolRegistry Pool), (∀ a, r.feeKind a ≠ some (.AlgebraV3, .readCurrentFee)) →
      ∀ (actions : List Action) (k : Nat), (runTo step (start r) actions k).Attended := by
  intro h
  have hrun := h algebraAt1 algebraAt1_source
    (firstRead ++ [.restart, .catchup configured 0, .writeFee 0 1 (some 100) (some 0)]) 8
  revert hrun
  decide +kernel

end FeeReading

end EvmDexPool
