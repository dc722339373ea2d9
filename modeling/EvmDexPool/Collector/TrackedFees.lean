import EvmDexPool.Collector.Chain
import EvmDexPool.Collector.FeeReader

/-!
# The tracked set against the registry (`registry.rs`, `collector/fee_reader.rs`)

| here | there |
| --- | --- |
| `candidates`              | `fee_read_candidates` |
| `scan`, `look`, `trackNext` | `pools_needing_reads`: the pools there are, each one's lock, and the tracking afterwards |
| `writeFee`, `writeCurrentFee` | `with_v3` in one of the write-backs of `read_fees` |
| `settle`                  | what that write-back then does to the tracked set |

Between a pool's lock and the tracking anything may happen. A write to a pool that was removed after it was
looked up is one just before the removal: no other sees it.

`unclassified` keeps account of the V3 pools whose fee had to be read when they were added, and whose source
no write-back has set since.
-/

namespace EvmDexPool

open Std Replay V3

/-- What a write-back does to the tracked set. -/
inductive Tracking
  | track (a : Address)
  | untrack (a : Address)
deriving DecidableEq, Repr

namespace PoolRegistry
variable {π : Type} [PoolInterface π] (r : PoolRegistry π)

def settle : Option Tracking → PoolRegistry π
  | some (.track a) => r.addDynamicFeeAddress a
  | some (.untrack a) => r.removeDynamicFeeAddress a
  | none => r

/-- A `fee()` answer under the pool's lock (fee_reader.rs:416-426). -/
def setFee (a : Address) (fee config : Option Nat) : PoolRegistry π :=
  match fee, r.getV3 a with
  | some fee, some _ =>
    match config with
    | none => r.withV3 a fun v3 => { v3 with fee := fee }
    | some config => r.withV3 a fun v3 => { v3 with fee := fee, feeSource := feeSourceOfConfig config }
  | _, _ => r

/-- Tracking follows the classification just derived (fee_reader.rs:435-439). -/
def feeTracking (a : Address) (fee config : Option Nat) : Option Tracking :=
  match fee, r.getV3 a, config with
  | some _, some _, some config =>
    match feeSourceOfConfig config with
    | .readFee => some (.track a)
    | .events => some (.untrack a)
    | _ => none
  | _, _, _ => none

/-- A `currentFee()` answer under the pool's lock (fee_reader.rs:448-469). -/
def setCurrentFee (a : Address) (current : Option Nat) : PoolRegistry π :=
  match r.getV3 a, current with
  | some _, some fee => r.withV3 a fun v3 => { v3 with fee := fee, feeSource := .readCurrentFee }
  | some v3, none => if v3.feeSource = .unknown then r.withV3 a fun v3 => { v3 with feeSource := .events } else r
  | none, _ => r

/-- A pool without the function is event-driven (fee_reader.rs:474). -/
def currentFeeTracking (a : Address) (current : Option Nat) : Option Tracking :=
  match r.getV3 a, current with
  | some v3, none => if v3.feeSource = .unknown then some (.untrack a) else none
  | _, _ => none

end PoolRegistry

/-- A full pass: the pools it has still to look at, and those it found. -/
structure Scan where
  left : List Address
  found : List Address
deriving DecidableEq, Repr

structure FeeTracking where
  registry : PoolRegistry Pool
  scans : List Scan
  writes : List Tracking
  unclassified : List Address

namespace FeeTracking

inductive Action
  | addPool (p : Pool)
  | removePool (a : Address)
  | candidates (events : List Log)
  | scan
  | look (k : Nat) (a : Address)
  | trackNext (k : Nat)
  | writeFee (a : Address) (fee config : Option Nat)
  | writeCurrentFee (a : Address) (current : Option Nat)
  | settle (k : Nat)

/-- Nothing is registered, tracked or under way. -/
def start : FeeTracking := ⟨.empty, [], [], []⟩

variable (s : FeeTracking)

/-- A pool is registered at the address. -/
def registered (a : Address) : Bool := (s.registry.getPool a).isSome

/-- The fee reader tracks the address. -/
def tracked (a : Address) : Bool := s.registry.isDynamicFeeAddress a

/-- `add_pool`. -/
def addPool (p : Pool) : FeeTracking :=
  { s with
    registry := s.registry.addPool p
    unclassified :=
      if p.asV3.any UniswapV3Pool.feeNeedsReading then p.address :: s.unclassified
      else s.unclassified.filter (· ≠ p.address) }

/-- `remove_pool`. -/
def removePool (a : Address) : FeeTracking :=
  { s with registry := s.registry.removePool a, unclassified := s.unclassified.filter (· ≠ a) }

def candidates (events : List Log) : FeeTracking :=
  { s with registry := (s.registry.feeReadCandidates events).1 }

/-- A full pass starts from the pools there are (fee_reader.rs:116). -/
def scan : FeeTracking := { s with scans := s.scans ++ [⟨s.registry.getAllAddresses, []⟩] }

def look (k : Nat) (a : Address) : FeeTracking :=
  match s.scans[k]? with
  | some scan =>
    if a ∈ scan.left then
      { s with scans := s.scans.set k {
          left := scan.left.erase a
          found := if s.registry.needsReading a then scan.found ++ [a] else scan.found } }
    else s
  | none => s

/-- When all are looked at, those found are tracked one after the other (fee_reader.rs:125). -/
def trackNext (k : Nat) : FeeTracking :=
  match s.scans[k]? with
  | some ⟨[], a :: found⟩ =>
    { s with registry := s.registry.addDynamicFeeAddress a, scans := s.scans.set k ⟨[], found⟩ }
  | _ => s

def writeFee (a : Address) (fee config : Option Nat) : FeeTracking :=
  { s with
    registry := s.registry.setFee a fee config
    writes := s.writes ++ (s.registry.feeTracking a fee config).toList
    unclassified := if fee.isSome ∧ config.isSome then s.unclassified.filter (· ≠ a) else s.unclassified }

/-- Either the pool answers, or it is set to be event-driven if it was not classified. -/
def writeCurrentFee (a : Address) (current : Option Nat) : FeeTracking :=
  { s with
    registry := s.registry.setCurrentFee a current
    writes := s.writes ++ (s.registry.currentFeeTracking a current).toList
    unclassified :=
      if current.isSome ∨ (s.registry.currentFeeTracking a current).isSome then s.unclassified.filter (· ≠ a)
      else s.unclassified }

def settle (k : Nat) : FeeTracking :=
  { s with registry := s.registry.settle s.writes[k]?, writes := s.writes.eraseIdx k }

def step (s : FeeTracking) : Action → FeeTracking
  | .addPool p => s.addPool p
  | .removePool a => s.removePool a
  | .candidates events => s.candidates events
  | .scan => s.scan
  | .look k a => s.look k a
  | .trackNext k => s.trackNext k
  | .writeFee a fee config => s.writeFee a fee config
  | .writeCurrentFee a current => s.writeCurrentFee a current
  | .settle k => s.settle k

/-- The tracked set follows the registry. -/
structure Follows : Prop where
  alive : ∀ a, s.tracked a = true → s.registered a = true
  watched : ∀ a ∈ s.unclassified, s.tracked a = true

/-- A pool is there when it is tracked; when it is untracked, it has been classified. -/
def Meets : Action → Prop
  | .candidates events => ∀ l ∈ events, l.reconfigures = true → s.registered l.address = true
  | .trackNext k => ∀ scan ∈ s.scans[k]?, scan.left = [] → ∀ a ∈ scan.found.head?, s.registered a = true
  | .settle k => ∀ t ∈ s.writes[k]?,
    match t with
    | .track a => s.registered a = true
    | .untrack a => a ∉ s.unclassified
  | _ => True

end FeeTracking

/-! ## The registry -/

namespace PoolRegistry

section Generic
variable {π : Type} [PoolInterface π] {r : PoolRegistry π}

/-- With nothing in between, the two halves are the write-back. -/
theorem writeFee_eq_settle (a : Address) (fee config : Option Nat) :
    r.writeFee a fee config = (r.setFee a fee config).settle (r.feeTracking a fee config) := by
  unfold writeFee setFee feeTracking
  cases fee with
  | none => rfl
  | some fee =>
    cases r.getV3 a with
    | none => rfl
    | some v3 =>
      cases config with
      | none => rfl
      | some config =>
        dsimp only
        cases feeSourceOfConfig config <;> rfl

theorem writeCurrentFee_eq_settle (a : Address) (current : Option Nat) :
    r.writeCurrentFee a current = (r.setCurrentFee a current).settle (r.currentFeeTracking a current) := by
  unfold writeCurrentFee setCurrentFee currentFeeTracking
  cases r.getV3 a with
  | none => rfl
  | some v3 =>
    cases current with
    | some fee => rfl
    | none =>
      dsimp only
      split <;> rfl

omit [PoolInterface π] in
@[simp] theorem settle_getPool (t : Option Tracking) (b : Address) : (r.settle t).getPool b = r.getPool b := by
  rcases t with _ | _ | _ <;> rfl

/-- A write to a pool moves no pool and tracks none. -/
theorem withV3_keeps (a b : Address) (f : UniswapV3Pool → UniswapV3Pool) :
    ((r.withV3 a f).getPool b).isSome = (r.getPool b).isSome ∧
      (r.withV3 a f).isDynamicFeeAddress b = r.isDynamicFeeAddress b := by
  unfold withV3
  cases ha : r.getPool a with
  | none => exact ⟨rfl, rfl⟩
  | some p =>
    refine ⟨?_, rfl⟩
    unfold getPool at ha ⊢
    dsimp only
    rw [Ranges.lookup_insert]
    split
    · next h => simp [h, ha]
    · rfl

theorem setFee_keeps (a b : Address) (fee config : Option Nat) :
    ((r.setFee a fee config).getPool b).isSome = (r.getPool b).isSome ∧
      (r.setFee a fee config).isDynamicFeeAddress b = r.isDynamicFeeAddress b := by
  unfold setFee
  split
  · split
    · exact withV3_keeps ..
    · exact withV3_keeps ..
  · exact ⟨rfl, rfl⟩

theorem setCurrentFee_keeps (a b : Address) (current : Option Nat) :
    ((r.setCurrentFee a current).getPool b).isSome = (r.getPool b).isSome ∧
      (r.setCurrentFee a current).isDynamicFeeAddress b = r.isDynamicFeeAddress b := by
  unfold setCurrentFee
  split
  · exact withV3_keeps ..
  · split
    · exact withV3_keeps ..
    · exact ⟨rfl, rfl⟩
  · exact ⟨rfl, rfl⟩

end Generic

variable {r : PoolRegistry Pool}

theorem addPool_getPool (p : Pool) (b : Address) :
    (r.addPool p).getPool b = if b = p.address then some p else r.getPool b := by
  unfold getPool
  rw [addPool_byAddress, Ranges.lookup_insert]
  rfl

theorem addPool_tracked (p : Pool) (b : Address) :
    (r.addPool p).isDynamicFeeAddress b = true ↔
      (b = p.address ∧ p.asV3.any UniswapV3Pool.feeNeedsReading = true) ∨ r.isDynamicFeeAddress b = true := by
  have hv : PoolInterface.asV3 p = p.asV3 := rfl
  unfold addPool
  rw [hv]
  cases p.asV3 with
  | none => exact ⟨.inr, fun h => h.resolve_left fun h' => nomatch h'.2⟩
  | some v3 =>
    dsimp only
    rw [Option.any_some]
    split
    · next h =>
      rw [and_iff_left h]
      exact isDynamicFeeAddress_add ..
    · next h => exact ⟨.inr, fun h' => h'.resolve_left fun hn => h hn.2⟩

theorem removePool_tracked {a b : Address} (h : b ≠ a) :
    (r.removePool a).isDynamicFeeAddress b = r.isDynamicFeeAddress b := by
  unfold removePool
  cases r.byAddress[a]? with
  | some p => exact isDynamicFeeAddress_remove h
  | none => rfl

theorem isDynamicFeeAddress_remove_self (a : Address) :
    (r.removeDynamicFeeAddress a).isDynamicFeeAddress a = false := by
  unfold isDynamicFeeAddress removeDynamicFeeAddress
  simp

/-- A batch's reconfigured addresses are tracked, whether a pool is there or not. -/
theorem feeReadCandidates_tracked (events : List Log) (b : Address) :
    (r.feeReadCandidates events).1.getPool b = r.getPool b ∧
      ((r.feeReadCandidates events).1.isDynamicFeeAddress b = true ↔
        (∃ l ∈ events, l.reconfigures = true ∧ l.address = b) ∨ r.isDynamicFeeAddress b = true) := by
  unfold feeReadCandidates
  generalize hs : (r, ([] : List Address)) = s
  have hr : r = s.1 := by rw [← hs]
  rw [hr]
  clear hs hr
  induction events generalizing s with
  | nil => simp
  | cons l events ih =>
    rw [List.foldl_cons]
    obtain ⟨hpool, htracked⟩ := ih (feeReadCandidate s l)
    have hone : (feeReadCandidate s l).1.getPool b = s.1.getPool b ∧
        ((feeReadCandidate s l).1.isDynamicFeeAddress b = true ↔
          (l.reconfigures = true ∧ l.address = b) ∨ s.1.isDynamicFeeAddress b = true) := by
      unfold feeReadCandidate
      dsimp only
      split
      · next h =>
        refine ⟨rfl, ?_⟩
        rw [isDynamicFeeAddress_add, and_iff_right h, eq_comm]
      · next h => exact ⟨rfl, by simp [h]⟩
    refine ⟨hpool.trans hone.1, ?_⟩
    rw [htracked, hone.2, ← or_assoc]
    refine or_congr_left ?_
    rw [or_comm]
    simp [List.mem_cons, or_and_right, exists_or]

end PoolRegistry

/-! ## One step -/

namespace FeeTracking
variable {s : FeeTracking}

/-- A step that moves no pool, tracks none and counts no more of them as unclassified. -/
theorem Follows.keep (h : s.Follows) {t : FeeTracking} (hr : ∀ a, t.registered a = s.registered a)
    (ht : ∀ a, t.tracked a = s.tracked a) (hu : t.unclassified ⊆ s.unclassified) : t.Follows where
  alive a ha := by
    rw [ht] at ha
    rw [hr]
    exact h.alive a ha
  watched a ha := (ht a).trans (h.watched a (hu ha))

theorem Follows.addPool (h : s.Follows) (p : Pool) : (s.addPool p).Follows where
  alive a ha := by
    unfold tracked FeeTracking.addPool at ha
    unfold registered FeeTracking.addPool
    dsimp only at ha ⊢
    rw [PoolRegistry.addPool_tracked] at ha
    rw [PoolRegistry.addPool_getPool]
    split
    · rfl
    · next hne =>
      rcases ha with ⟨heq, -⟩ | ha
      · exact absurd heq hne
      · exact h.alive a ha
  watched a ha := by
    unfold FeeTracking.addPool at ha
    unfold tracked FeeTracking.addPool
    dsimp only at ha ⊢
    rw [PoolRegistry.addPool_tracked]
    split at ha
    · next hneeds =>
      rcases List.mem_cons.1 ha with rfl | ha
      · exact .inl ⟨rfl, hneeds⟩
      · exact .inr (h.watched a ha)
    · exact .inr (h.watched a (List.mem_filter.1 ha).1)

theorem Follows.removePool (h : s.Follows) (b : Address) : (s.removePool b).Follows where
  alive a ha := by
    unfold tracked FeeTracking.removePool at ha
    unfold registered FeeTracking.removePool
    dsimp only at ha ⊢
    rw [PoolRegistry.removePool_getPool]
    by_cases hab : a = b
    · -- no pool was there, and then it was not tracked, or its tracking went with it
      subst hab
      unfold PoolRegistry.removePool at ha
      cases hp : s.registry.byAddress[a]? with
      | some p =>
        rw [hp] at ha
        have hgone := PoolRegistry.isDynamicFeeAddress_remove_self (r := s.registry) a
        exact absurd (hgone.symm.trans ha) (by decide)
      | none =>
        rw [hp] at ha
        have hthere := h.alive a ha
        unfold registered PoolRegistry.getPool at hthere
        rw [hp] at hthere
        cases hthere
    · rw [if_neg hab]
      rw [PoolRegistry.removePool_tracked hab] at ha
      exact h.alive a ha
  watched a ha := by
    unfold FeeTracking.removePool at ha
    obtain ⟨ha, hne⟩ := List.mem_filter.1 ha
    unfold tracked FeeTracking.removePool
    dsimp only
    rw [PoolRegistry.removePool_tracked (of_decide_eq_true hne)]
    exact h.watched a ha

/-- Tracking the addresses of `P` keeps the set to the registry when and only when pools are there. -/
theorem Follows.track_iff (h : s.Follows) {t : FeeTracking} {P : Address → Prop}
    (hr : ∀ a, t.registered a = s.registered a) (ht : ∀ a, t.tracked a = true ↔ P a ∨ s.tracked a = true)
    (hu : t.unclassified = s.unclassified) : t.Follows ↔ ∀ a, P a → s.registered a = true := by
  constructor
  · intro hf a ha
    rw [← hr]
    exact hf.alive a ((ht a).2 (.inl ha))
  · intro hall
    refine ⟨fun a ha => ?_, fun a ha => ?_⟩
    · rw [hr]
      rcases (ht a).1 ha with ha | ha
      · exact hall a ha
      · exact h.alive a ha
    · rw [hu] at ha
      exact (ht a).2 (.inr (h.watched a ha))

theorem Follows.candidates_iff (h : s.Follows) (events : List Log) :
    (s.candidates events).Follows ↔ s.Meets (.candidates events) := by
  have hframe := fun a => PoolRegistry.feeReadCandidates_tracked (r := s.registry) events a
  rw [h.track_iff (t := s.candidates events) (P := fun a => ∃ l ∈ events, l.reconfigures = true ∧ l.address = a)
    (fun a => congrArg Option.isSome (hframe a).1) (fun a => (hframe a).2) rfl]
  constructor
  · intro hall l hl hre
    exact hall l.address ⟨l, hl, hre, rfl⟩
  · rintro hall a ⟨l, hl, hre, rfl⟩
    exact hall l hl hre

theorem Follows.trackNext_iff (h : s.Follows) (k : Nat) : (s.trackNext k).Follows ↔ s.Meets (.trackNext k) := by
  unfold FeeTracking.trackNext Meets
  split
  · next a found hk =>
    have htracks := fun b => PoolRegistry.isDynamicFeeAddress_add (r := s.registry) b a
    have hiff := h.track_iff (t := s.trackNext k) (P := fun b => b = a)
    unfold FeeTracking.trackNext at hiff
    rw [hk] at hiff
    refine (hiff (fun _ => rfl) htracks rfl).trans ?_
    simp [hk]
  · next hnot =>
    refine ⟨fun _ scan hk hleft a ha => ?_, fun _ => h⟩
    obtain ⟨left, found⟩ := scan
    cases found with
    | nil => cases ha
    | cons b found =>
      dsimp only at hleft
      subst hleft
      exact absurd hk (hnot b found)

theorem Follows.settle_iff (h : s.Follows) (k : Nat) : (s.settle k).Follows ↔ s.Meets (.settle k) := by
  have hmeets : s.Meets (.settle k) ↔ ∀ t ∈ s.writes[k]?,
      match t with
      | .track a => s.registered a = true
      | .untrack a => a ∉ s.unclassified := Iff.rfl
  have hregistry : (s.settle k).registry = s.registry.settle s.writes[k]? := rfl
  have hr : ∀ b, (s.settle k).registered b = s.registered b := fun b =>
    congrArg Option.isSome (PoolRegistry.settle_getPool s.writes[k]? b)
  rw [hmeets]
  cases hk : s.writes[k]? with
  | none =>
    rw [hk] at hregistry
    have ht : ∀ a, (s.settle k).tracked a = s.tracked a := fun a => by
      unfold tracked
      rw [hregistry]
      rfl
    exact iff_of_true (h.keep hr ht (List.Subset.refl _)) (fun t ht => nomatch ht)
  | some t =>
    rw [hk] at hregistry
    cases t with
    | track a =>
      have ht : ∀ b, (s.settle k).tracked b = true ↔ b = a ∨ s.tracked b = true := fun b => by
        unfold tracked
        rw [hregistry]
        exact PoolRegistry.isDynamicFeeAddress_add b a
      rw [h.track_iff hr ht rfl]
      simp
    | untrack a =>
      have hgone : (s.settle k).tracked a = false := by
        unfold tracked
        rw [hregistry]
        exact PoolRegistry.isDynamicFeeAddress_remove_self a
      have hother : ∀ b, b ≠ a → (s.settle k).tracked b = s.tracked b := fun b hb => by
        unfold tracked
        rw [hregistry]
        exact PoolRegistry.isDynamicFeeAddress_remove hb
      simp only [Option.mem_def, Option.some.injEq, forall_eq']
      constructor
      · intro hf hmem
        exact absurd (hgone.symm.trans (hf.watched a hmem)) (by decide)
      · intro hnot
        refine ⟨fun b hb => ?_, fun b hb => ?_⟩
        · rw [hr]
          by_cases hba : b = a
          · subst hba
            exact absurd (hgone.symm.trans hb) (by decide)
          · exact h.alive b ((hother b hba).symm.trans hb)
        · have hba : b ≠ a := fun heq => hnot (heq ▸ hb)
          exact (hother b hba).trans (h.watched b hb)

/-- A step keeps the tracked set to the registry when and only when it meets the condition. -/
theorem Follows.step_iff (h : s.Follows) (act : Action) : (s.step act).Follows ↔ s.Meets act := by
  cases act with
  | addPool p => exact iff_of_true (h.addPool p) trivial
  | removePool a => exact iff_of_true (h.removePool a) trivial
  | candidates events => exact h.candidates_iff events
  | scan => exact iff_of_true (h.keep (fun _ => rfl) (fun _ => rfl) (List.Subset.refl _)) trivial
  | look k a =>
    refine iff_of_true ?_ trivial
    unfold FeeTracking.step FeeTracking.look
    dsimp only
    split
    · split
      · exact h.keep (fun _ => rfl) (fun _ => rfl) (List.Subset.refl _)
      · exact h
    · exact h
  | trackNext k => exact h.trackNext_iff k
  | writeFee a fee config =>
    have hkeeps := fun b => PoolRegistry.setFee_keeps (r := s.registry) a b fee config
    refine iff_of_true (h.keep (fun b => (hkeeps b).1) (fun b => (hkeeps b).2) ?_) trivial
    unfold FeeTracking.step FeeTracking.writeFee
    dsimp only
    split
    · exact List.filter_subset_self _
    · exact List.Subset.refl _
  | writeCurrentFee a current =>
    have hkeeps := fun b => PoolRegistry.setCurrentFee_keeps (r := s.registry) a b current
    refine iff_of_true (h.keep (fun b => (hkeeps b).1) (fun b => (hkeeps b).2) ?_) trivial
    unfold FeeTracking.step FeeTracking.writeCurrentFee
    dsimp only
    split
    · exact List.filter_subset_self _
    · exact List.Subset.refl _
  | settle k => exact h.settle_iff k

/-! ## Whole runs -/

theorem follows_start : start.Follows := by
  refine ⟨fun a ha => ?_, fun a ha => nomatch ha⟩
  unfold tracked PoolRegistry.isDynamicFeeAddress start PoolRegistry.empty at ha
  simp at ha

/-- **The tracked set follows the registry** all along a run when and only when each of its steps tracks an
address where a pool is registered, or untracks one whose pool has been classified. -/
theorem tracked_follows (actions : List Action) :
    (∀ k, (runTo step start actions k).Follows) ↔
      ∀ k, ∀ act ∈ actions[k]?, (runTo step start actions k).Meets act := by
  constructor
  · intro hall k act hact
    have hnext := hall (k + 1)
    rw [runTo_succ hact] at hnext
    exact ((hall k).step_iff act).1 hnext
  · intro hmeets k
    exact runTo_invariant follows_start (fun k act hact hf => (hf.step_iff act).2 (hmeets k act hact)) k

/-- The plugin of a pool that is not registered is configured. -/
def strayConfig : Log := { syncAt 100 0 with payload := .event (.v3 (.pluginConfig 0x80)) }

/-- The address is tracked, and no removal takes it out. -/
theorem tracked_follows_fails : ¬ ∀ (actions : List Action) (k : Nat), (runTo step start actions k).Follows := by
  intro h
  have hone := (h [.candidates [strayConfig], .removePool 1] 2).alive 1
  revert hone
  decide +kernel

end FeeTracking

end EvmDexPool
