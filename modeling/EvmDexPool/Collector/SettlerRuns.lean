import EvmDexPool.Collector.BlockSource

/-!
# Runs of the block settler

Logs come in for any block, in any order, and one settled block goes out at a time. What has been handed
on is kept beside the source, batch by batch; a log counts for the block `add` files it under. Nothing is
asked of the times.
-/

namespace EvmDexPool

open Std

namespace BlockSettler
variable (s : BlockSettler)

/-- The block `add` files a log under. -/
def blockOf (l : Log) : Nat := l.blockNumber.getD s.releasedThrough

/-- What is held, each log with its block. -/
def filed : List (Nat × Log) := Ranges.entries s.pending Prod.fst

variable {s}

theorem count_filed (b : Nat) (l : Log) : s.filed.count (b, l) = (s.logsOf b).count l :=
  Ranges.count_entries s.pending Prod.fst b l

/-- Every log that is no retraction is filed under its block. -/
theorem filed_add (s : BlockSettler) (logs : List Log) (now : Nat) :
    (s.add logs now).filed.Perm (s.filed ++ (logs.filter fun l => !l.removed).map fun l => (s.blockOf l, l)) := by
  rw [List.perm_iff_count]
  rintro ⟨b, l⟩
  rw [List.count_append, count_filed, count_filed, logsOf_add, List.count_append]
  congr 1
  induction logs.filter fun l => !l.removed with
  | nil => rfl
  | cons m rest ih =>
    rw [List.map_cons, List.count_cons, ← ih]
    by_cases hb : m.blockNumber.getD s.releasedThrough = b
    · rw [List.filter_cons_of_pos (by simpa using hb), List.count_cons]
      simp [blockOf, hb]
    · rw [List.filter_cons_of_neg (by simpa using hb)]
      simp [blockOf, hb]

/-- What is handed on is taken from what was held, all under its block. -/
theorem HandsOn.filed {s' : BlockSettler} {r : Settled} (h : HandsOn s s' r) :
    s.filed.Perm ((r.logs.map fun l => (r.block, l)) ++ s'.filed) := by
  rw [List.perm_iff_count]
  rintro ⟨b, l⟩
  rw [List.count_append, count_filed, count_filed, h.rest]
  have hlogs : r.logs.count l = (s.logsOf r.block).count l := by
    rw [h.logs]
    exact (List.perm_insertionSort _ _).count_eq l
  by_cases hb : b = r.block
  · subst hb
    rw [if_pos rfl, List.count_nil, List.count_map_of_injective _ _ (Prod.mk_right_injective r.block), hlogs,
      Nat.add_zero]
  · have hnone : (r.logs.map fun l => (r.block, l)).count (b, l) = 0 := by
      refine List.count_eq_zero_of_not_mem fun hmem => ?_
      obtain ⟨m, -, hm⟩ := List.mem_map.1 hmem
      exact hb (congrArg Prod.fst hm).symm
    rw [if_neg hb, hnone, Nat.zero_add]

end BlockSettler

/-! ## Runs -/

/-- A batch that was handed on, with how it was to be processed and the blocks that were only to be
applied at the time. -/
structure HandedOn where
  settled : Settled
  processingMode : ProcessingMode
  applyOnlyThrough : Nat

/-- The calls on a settler: logs that came in, the missed logs of a gap that ended in block `before`, and
a look for a settled block. -/
inductive SettlerCall
  | add (logs : List Log)
  | fill (missed : List Log) (before : Nat)
  | takeReady

/-- The logs a call adds. -/
def SettlerCall.logs : SettlerCall → List Log
  | add logs => logs
  | fill missed _ => missed
  | takeReady => []

/-- A source beside what came in, each log with the block it counts for, and what went out. -/
structure SettlerRun where
  source : WebsocketBlockSource
  arrived : List (Nat × Log)
  handed : List HandedOn

namespace SettlerRun
variable (s : SettlerRun)

/-- `settler.add` (block_source.rs:504). -/
def add (logs : List Log) (now : Nat) : SettlerRun :=
  { s with
    source := { s.source with settler := s.source.settler.add logs now }
    arrived := s.arrived ++ (logs.filter fun l => !l.removed).map fun l => (s.source.settler.blockOf l, l) }

/-- `settler.take_ready`, and what `next_batch` makes of it (block_source.rs:952-999). -/
def takeReady (now : Nat) : SettlerRun :=
  match s.source.settler.takeReady now with
  | (settler, none) => { s with source := { s.source with settler } }
  | (settler, some r) =>
    { s with
      source := { s.source with settler }
      handed := s.handed ++ [⟨r, s.source.modeOf r, s.source.applyOnlyThrough⟩] }

/-- A call at a time, as `fill_gap` and `next_batch` make it. -/
def step (now : Nat) : SettlerCall → SettlerRun
  | .add logs => s.add logs now
  | .fill missed before =>
    let t := s.add missed now
    { t with source := { t.source with applyOnlyThrough := max t.source.applyOnlyThrough before } }
  | .takeReady => s.takeReady now

def run (calls : List (Nat × SettlerCall)) : SettlerRun := calls.foldl (fun s call => s.step call.1 call.2) s

end SettlerRun

/-- The highest block among the batches, or `r`. -/
def highest (r : Nat) (batches : List HandedOn) : Nat := batches.foldl (fun n h => max n h.settled.block) r

/-- What a batch is, after those `before` it. -/
structure Fair (r : Nat) (before : List HandedOn) (h : HandedOn) : Prop where
  sorted : h.settled.logs.Pairwise fun a b => a.placeInBlock ≤ b.placeInBlock
  through : h.settled.processedThrough = max (highest r before) h.settled.block
  rises : ∀ e ∈ before, e.settled.processedThrough ≤ h.settled.processedThrough ∧
    e.settled.block ≤ h.settled.processedThrough
  late : h.settled.late = true ↔ h.settled.block ≤ highest r before
  priced : h.processingMode = .ConfirmedWithSwaps →
    (∀ e ∈ before, e.settled.block ≤ h.settled.block) ∧ h.applyOnlyThrough < h.settled.block

/-! ## One call -/

/-- What a run keeps: nothing is lost or made up, the settler stands at the highest block that went out,
and every batch is what it should be after those before it. -/
structure Kept (r : Nat) (s : SettlerRun) : Prop where
  conserved : s.arrived.Perm
    ((s.handed.flatMap fun h => h.settled.logs.map fun l => (h.settled.block, l)) ++ s.source.settler.filed)
  released : s.source.settler.releasedThrough = highest r s.handed
  fair : ∀ before h after, s.handed = before ++ h :: after → Fair r before h

section Step
variable {r : Nat} {s : SettlerRun}

theorem highest_append (r : Nat) (batches : List HandedOn) (h : HandedOn) :
    highest r (batches ++ [h]) = max (highest r batches) h.settled.block := by
  unfold highest
  rw [List.foldl_append]
  rfl

theorem highest_le (r : Nat) (before after : List HandedOn) : highest r before ≤ highest r (before ++ after) := by
  induction after generalizing before with
  | nil => rw [List.append_nil]
  | cons h after ih =>
    rw [List.append_cons]
    exact (highest_append r before h ▸ le_max_left _ _).trans (ih (before ++ [h]))

/-- What a batch moved the cursor to is no more than the highest block by now. -/
theorem Kept.through_le (h : Kept r s) {e : HandedOn} (he : e ∈ s.handed) :
    e.settled.processedThrough ≤ highest r s.handed := by
  obtain ⟨before, after, hsplit⟩ := List.append_of_mem he
  rw [(h.fair before e after hsplit).through, ← highest_append, hsplit, List.append_cons before e after]
  exact highest_le r _ after

theorem Kept.block_le (h : Kept r s) {e : HandedOn} (he : e ∈ s.handed) : e.settled.block ≤ highest r s.handed := by
  obtain ⟨before, after, hsplit⟩ := List.append_of_mem he
  have hown := (h.fair before e after hsplit).through
  exact (hown ▸ le_max_right _ _).trans (h.through_le he)

theorem Kept.add (h : Kept r s) (logs : List Log) (now : Nat) : Kept r (s.add logs now) := by
  refine ⟨?_, (BlockSettler.add_releasedThrough logs now).trans h.released, h.fair⟩
  have hfiled := s.source.settler.filed_add logs now
  refine (h.conserved.append_right _).trans ?_
  rw [List.append_assoc]
  exact hfiled.symm.append_left _

/-- A batch that goes out now is what it should be. -/
theorem Kept.fair_next (h : Kept r s) {now : Nat} {settler : BlockSettler} {b : Settled}
    (hready : s.source.settler.takeReady now = (settler, some b)) :
    Fair r s.handed ⟨b, s.source.modeOf b, s.source.applyOnlyThrough⟩ := by
  have hon := BlockSettler.takeReady_some hready
  have hthrough : b.processedThrough = max (highest r s.handed) b.block := by
    rw [hon.through, hon.released, h.released]
  refine ⟨?_, hthrough, fun e he => ?_, ?_, fun hmode => ?_⟩
  · change b.logs.Pairwise _
    rw [hon.logs]
    exact List.pairwise_insertionSort _ _
  · change _ ≤ b.processedThrough ∧ _ ≤ b.processedThrough
    rw [hthrough]
    exact ⟨(h.through_le he).trans (le_max_left _ _), (h.block_le he).trans (le_max_left _ _)⟩
  · change b.late = true ↔ b.block ≤ _
    rw [BlockSettler.takeReady_late hready, decide_eq_true_iff, h.released]
  · change s.source.modeOf b = _ at hmode
    unfold WebsocketBlockSource.modeOf at hmode
    split at hmode
    · cases hmode
    · rename_i hnot
      rw [hthrough] at hnot
      have hlater : highest r s.handed ≤ b.block ∧ s.source.applyOnlyThrough < b.block := by omega
      exact ⟨fun e he => (h.block_le he).trans hlater.1, hlater.2⟩

theorem Kept.takeReady (h : Kept r s) (now : Nat) : Kept r (s.takeReady now) := by
  unfold SettlerRun.takeReady
  split
  · next settler hready =>
    rw [BlockSettler.takeReady_none hready]
    exact ⟨h.conserved, h.released, h.fair⟩
  · next settler b hready =>
    have hon := BlockSettler.takeReady_some hready
    refine ⟨?_, ?_, fun before x after hsplit => ?_⟩
    · rw [List.flatMap_append, List.append_assoc, List.flatMap_singleton]
      exact h.conserved.trans (hon.filed.append_left _)
    · rw [highest_append, ← h.released]
      exact hon.released
    · rcases List.eq_nil_or_concat after with rfl | ⟨after, last, rfl⟩
      · obtain ⟨rfl, hx⟩ := List.append_inj' hsplit rfl
        cases hx
        exact h.fair_next hready
      · rw [List.concat_eq_append, ← List.cons_append, ← List.append_assoc] at hsplit
        exact h.fair _ _ _ (List.append_inj' hsplit rfl).1

theorem Kept.step (h : Kept r s) (now : Nat) (call : SettlerCall) : Kept r (s.step now call) := by
  cases call with
  | add logs => exact h.add logs now
  | fill missed before =>
    obtain ⟨hconserved, hreleased, hfair⟩ := h.add missed now
    exact ⟨hconserved, hreleased, hfair⟩
  | takeReady => exact h.takeReady now

end Step

/-! ## Whole runs -/

theorem Kept.run {r : Nat} {s : SettlerRun} (h : Kept r s) (calls : List (Nat × SettlerCall)) : Kept r (s.run calls) := by
  induction calls generalizing s with
  | nil => exact h
  | cons call rest ih => exact ih (h.step call.1 call.2)

/-- What came in is what the calls added, less the retractions. -/
theorem arrived_run (s : SettlerRun) (calls : List (Nat × SettlerCall)) :
    (s.run calls).arrived.map Prod.snd =
      s.arrived.map Prod.snd ++ (calls.flatMap fun call => call.2.logs).filter fun l => !l.removed := by
  induction calls generalizing s with
  | nil => simp [SettlerRun.run]
  | cons call rest ih =>
    have hcall : (s.step call.1 call.2).arrived.map Prod.snd =
        s.arrived.map Prod.snd ++ call.2.logs.filter fun l => !l.removed := by
      cases hc : call.2 with
      | add logs => simp [SettlerRun.step, SettlerRun.add, SettlerCall.logs, Function.comp_def]
      | fill missed before => simp [SettlerRun.step, SettlerRun.add, SettlerCall.logs, Function.comp_def]
      | takeReady =>
        simp only [SettlerRun.step, SettlerRun.takeReady, SettlerCall.logs, List.filter_nil, List.append_nil]
        split <;> rfl
    change ((s.step call.1 call.2).run rest).arrived.map Prod.snd = _
    rw [ih, hcall, List.flatMap_cons, List.filter_append, List.append_assoc]

/-- A run of a source whose settler is new. -/
def settlerRun (source : WebsocketBlockSource) (settle r : Nat) (calls : List (Nat × SettlerCall)) : SettlerRun :=
  SettlerRun.run ⟨{ source with settler := .new settle r }, [], []⟩ calls

/-- **The settler conserves logs and orders them.** Whatever comes in and is looked for, the logs added,
less the retractions, are those handed on and those held, each with the block it counted for; and each
batch is sorted, moves the cursor on to the highest block so far, is late if it is not above those before
it, and is priced only if none before it is later and its block is not for applying only. -/
theorem settler_conserves (source : WebsocketBlockSource) (settle r : Nat) (calls : List (Nat × SettlerCall)) :
    (settlerRun source settle r calls).arrived.map Prod.snd =
        ((calls.flatMap fun call => call.2.logs).filter fun l => !l.removed) ∧
      (settlerRun source settle r calls).arrived.Perm
        (((settlerRun source settle r calls).handed.flatMap fun h => h.settled.logs.map fun l => (h.settled.block, l)) ++
          (settlerRun source settle r calls).source.settler.filed) ∧
      ∀ before h after, (settlerRun source settle r calls).handed = before ++ h :: after → Fair r before h := by
  have hstart : Kept r ⟨{ source with settler := .new settle r }, [], []⟩ := by
    refine ⟨?_, rfl, fun before h after hsplit => ?_⟩
    · rw [List.perm_iff_count]
      rintro ⟨b, l⟩
      rw [List.flatMap_nil, List.nil_append, BlockSettler.count_filed, BlockSettler.logsOf_new]
      rfl
    · exact absurd hsplit (by simp)
  have hkept := hstart.run calls
  exact ⟨arrived_run _ calls, hkept.conserved, hkept.fair⟩

end EvmDexPool
