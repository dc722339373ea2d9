import Mathlib.Data.List.Sort
import EvmDexPool.Lib.Ranges
import EvmDexPool.Collector.Chain

/-!
# The block settler (`BlockSettler`, `collector/block_source.rs`)

Times are numbers of one clock; `duration_since` does not go below zero. `sort_by_key` is stable, as
`List.insertionSort` is.
-/

namespace EvmDexPool

open Std

/-- `Settled` (block_source.rs:467). -/
structure Settled where
  block : Nat
  logs : List Log
  late : Bool
  processedThrough : Nat
deriving DecidableEq, Repr

structure BlockSettler where
  settle : Nat
  pending : ExtTreeMap Nat (List Log × Nat)
  releasedThrough : Nat

/-- What a block's logs are sorted by (block_source.rs:531): a log without a place in its block comes
last. -/
def Log.placeInBlock (l : Log) : ℕ ×ₗ ℕ :=
  toLex (l.transactionIndex.getD (2 ^ 64 - 1), l.logIndex.getD (2 ^ 64 - 1))

namespace BlockSettler
variable (s : BlockSettler)

/-- `BlockSettler::new` (block_source.rs:496). -/
def new (settle releasedThrough : Nat) : BlockSettler := ⟨settle, ∅, releasedThrough⟩

/-- What is held for a block. -/
def logsOf (block : Nat) : List Log := (s.pending[block]?).elim [] Prod.fst

/-- One log of `add`: one without a block is filed with the last block handed on. -/
def addLog (now : Nat) (l : Log) : BlockSettler :=
  let block := l.blockNumber.getD s.releasedThrough
  { s with pending := s.pending.insert block (s.logsOf block ++ [l], now) }

/-- `add` (block_source.rs:504). -/
def add (logs : List Log) (now : Nat) : BlockSettler :=
  (logs.filter fun l => !l.removed).foldl (fun s l => s.addLog now l) s

/-- `take_ready` (block_source.rs:522). -/
def takeReady (now : Nat) : BlockSettler × Option Settled :=
  match s.pending.toList.head? with
  | none => (s, none)
  | some (block, _, lastArrival) =>
    if s.pending.size ≤ 1 ∧ now - lastArrival < s.settle then (s, none)
    else
      match s.pending[block]? with
      | none => (s, none)
      | some (logs, _) =>
        let released := max s.releasedThrough block
        ({ s with pending := s.pending.erase block, releasedThrough := released },
          some { block
                 logs := logs.insertionSort fun a b => a.placeInBlock ≤ b.placeInBlock
                 late := block ≤ s.releasedThrough
                 processedThrough := released })

variable {s}

/-! ## What is held -/

@[simp] theorem logsOf_new (settle releasedThrough block : Nat) : (new settle releasedThrough).logsOf block = [] := by
  simp [new, logsOf]

theorem logsOf_addLog (now : Nat) (l : Log) (b : Nat) :
    (s.addLog now l).logsOf b = s.logsOf b ++ if l.blockNumber.getD s.releasedThrough = b then [l] else [] := by
  unfold addLog
  unfold logsOf
  dsimp only
  rw [Ranges.lookup_insert]
  by_cases h : b = l.blockNumber.getD s.releasedThrough
  · subst h
    simp
  · simp [h, Ne.symm h]

theorem foldl_addLog (now : Nat) (logs : List Log) :
    (logs.foldl (fun s l => s.addLog now l) s).releasedThrough = s.releasedThrough ∧
    (∀ b, (logs.foldl (fun s l => s.addLog now l) s).logsOf b =
      s.logsOf b ++ logs.filter fun l => l.blockNumber.getD s.releasedThrough = b) := by
  induction logs generalizing s with
  | nil => simp
  | cons l logs ih =>
    obtain ⟨h1, h2⟩ := ih (s := s.addLog now l)
    have hr : (s.addLog now l).releasedThrough = s.releasedThrough := rfl
    refine ⟨h1.trans hr, fun b => ?_⟩
    rw [List.foldl_cons, h2, logsOf_addLog, hr, List.append_assoc]
    by_cases hb : l.blockNumber.getD s.releasedThrough = b
    · rw [if_pos hb, List.filter_cons_of_pos (by simpa using hb)]
      rfl
    · rw [if_neg hb, List.filter_cons_of_neg (by simpa using hb)]
      rfl

@[simp] theorem add_releasedThrough (logs : List Log) (now : Nat) :
    (s.add logs now).releasedThrough = s.releasedThrough := (foldl_addLog ..).1

/-- Every block is given its own logs that are no retractions. -/
theorem logsOf_add (logs : List Log) (now b : Nat) :
    (s.add logs now).logsOf b =
      s.logsOf b ++ (logs.filter fun l => !l.removed).filter fun l => l.blockNumber.getD s.releasedThrough = b :=
  (foldl_addLog ..).2 b

/-! ## What is handed on -/

/-- A block is handed on whole and in order; none with an earlier number is held. -/
structure HandsOn (s s' : BlockSettler) (r : Settled) : Prop where
  logs : r.logs = (s.logsOf r.block).insertionSort fun a b => a.placeInBlock ≤ b.placeInBlock
  rest : ∀ b, s'.logsOf b = if b = r.block then [] else s.logsOf b
  oldest : ∀ b, s.logsOf b ≠ [] → r.block ≤ b
  released : s'.releasedThrough = max s.releasedThrough r.block
  through : r.processedThrough = s'.releasedThrough

/-- The first entry is the one of the least block held. -/
theorem block_le_of_head {block : Nat} {e : List Log × Nat} (h : s.pending.toList.head? = some (block, e)) {b : Nat}
    (hb : s.logsOf b ≠ []) : block ≤ b := by
  have hhead : (Ranges.range s.pending fun _ => true).head? = some (block, e) := by
    unfold Ranges.range
    rwa [List.filter_true]
  unfold logsOf at hb
  cases hp : s.pending[b]? with
  | none =>
    rw [hp] at hb
    exact absurd rfl hb
  | some v => exact (Ranges.range_head hhead).2.2 b v hp rfl

theorem takeReady_some {now : Nat} {s' : BlockSettler} {r : Settled} (h : s.takeReady now = (s', some r)) :
    HandsOn s s' r := by
  unfold takeReady at h
  split at h
  · cases h
  · next block e lastArrival hhead =>
    split at h
    · cases h
    · split at h
      · cases h
      · next logs last hlogs =>
        cases h
        refine ⟨?_, fun b => ?_, fun b hb => block_le_of_head hhead hb, rfl, rfl⟩
        · unfold logsOf
          rw [hlogs]
          rfl
        · unfold logsOf
          dsimp only
          rw [Ranges.lookup_erase]
          by_cases hb : b = block
          · rw [if_pos hb, if_pos hb]
            rfl
          · rw [if_neg hb, if_neg hb]

/-- A batch is late when its block is none after those handed on. -/
theorem takeReady_late {now : Nat} {s' : BlockSettler} {r : Settled} (h : s.takeReady now = (s', some r)) :
    r.late = decide (r.block ≤ s.releasedThrough) := by
  unfold takeReady at h
  split at h
  · cases h
  · split at h
    · cases h
    · split at h
      · cases h
      · cases h
        rfl

theorem takeReady_none {now : Nat} {s' : BlockSettler} (h : s.takeReady now = (s', none)) : s' = s := by
  unfold takeReady at h
  split at h
  · exact (congrArg Prod.fst h).symm
  · split at h
    · exact (congrArg Prod.fst h).symm
    · split at h
      · exact (congrArg Prod.fst h).symm
      · cases h

end BlockSettler

end EvmDexPool
