import EvmDexPool.Collector.Chain

/-!
# The event queue (`collector/event_queue.rs`)

| here | there |
| --- | --- |
| `queue`  | the `mpsc` channel's contents, oldest first; its bound only makes a sender wait |
| `recent` | `recent_events` and `event_order`, which hold the same keys, oldest first |
| `gaps`   | the gaps noted and not taken yet |

The `newHeads` block times are part of what `Env.times` stands for.
-/

namespace EvmDexPool

/-- `Gap` (event_queue.rs:18). -/
structure Gap where
  after : Option LogPosition
  before : LogPosition
deriving DecidableEq

/-- The positions strictly between the gap's ends. -/
def Gap.Holds (g : Gap) (p : LogPosition) : Prop := (∀ a, g.after = some a → a < p) ∧ p < g.before

instance (g : Gap) (p : LogPosition) : Decidable (g.Holds p) :=
  inferInstanceAs (Decidable ((∀ a, g.after = some a → a < p) ∧ p < g.before))

structure EventQueue where
  queue : List Log
  recent : List (B256 × Nat)
  gaps : List Gap
  maxEvents : Nat

namespace EventQueue
variable (q : EventQueue)

/-- `EventQueue::new` (event_queue.rs:54). -/
def new (maxEvents : Nat) : EventQueue := ⟨[], [], [], maxEvents⟩

/-- `record` (event_queue.rs:212): the oldest key makes room for the new one. -/
def record (l : Log) : EventQueue × Except String Bool :=
  match l.transactionHash with
  | none => (q, .error "Log missing transaction hash")
  | some hash =>
    match l.logIndex with
    | none => (q, .error "Log missing log index")
    | some index =>
      if (hash, index) ∈ q.recent then (q, .ok false)
      else
        let kept := if q.recent.length ≥ q.maxEvents then q.recent.drop 1 else q.recent
        ({ q with recent := kept ++ [(hash, index)] }, .ok true)

/-- `send` (event_queue.rs:198). -/
def send (l : Log) : EventQueue × Except String Unit :=
  match q.record l with
  | (q, .error e) => (q, .error e)
  | (q, .ok false) => (q, .ok ())
  | (q, .ok true) => ({ q with queue := q.queue ++ [l] }, .ok ())

/-- `claim` (event_queue.rs:169). -/
def claim (l : Log) : EventQueue × Except String Bool := q.record l

/-- `note_gap` (event_queue.rs:193). -/
def noteGap (g : Gap) : EventQueue := { q with gaps := q.gaps ++ [g] }

/-- `take_gaps` (event_queue.rs:162). -/
def takeGaps : EventQueue × List Gap := ({ q with gaps := [] }, q.gaps)

/-- `get_all_available_events` (event_queue.rs:107). -/
def getAllAvailableEvents : EventQueue × List Log := ({ q with queue := [] }, q.queue)

/-! ## What is recorded -/

variable {q}

/-- A log with a key that is not among the recent ones is recorded; only older keys make room. -/
theorem record_fresh {l : Log} {k : B256 × Nat} (hk : l.key? = some k) (hf : k ∉ q.recent) :
    ∃ kept, (∀ x ∈ kept, x ∈ q.recent) ∧ q.record l = ({ q with recent := kept ++ [k] }, .ok true) := by
  unfold Log.key? at hk
  unfold record
  cases hh : l.transactionHash with
  | none =>
    rw [hh] at hk
    cases hk
  | some hash =>
    cases hi : l.logIndex with
    | none =>
      rw [hh, hi] at hk
      cases hk
    | some index =>
      rw [hh, hi] at hk
      cases hk
      refine ⟨if q.recent.length ≥ q.maxEvents then q.recent.drop 1 else q.recent, fun x hx => ?_, if_neg hf⟩
      split at hx
      · exact List.mem_of_mem_drop hx
      · exact hx

theorem record_stale {l : Log} {k : B256 × Nat} (hk : l.key? = some k) (hr : k ∈ q.recent) :
    q.record l = (q, .ok false) := by
  unfold Log.key? at hk
  unfold record
  cases hh : l.transactionHash with
  | none =>
    rw [hh] at hk
    cases hk
  | some hash =>
    cases hi : l.logIndex with
    | none =>
      rw [hh, hi] at hk
      cases hk
    | some index =>
      rw [hh, hi] at hk
      cases hk
      exact if_pos hr

/-- A log is sent unless its key is among the recent ones; only its own key is added to them. -/
theorem send_effect {l : Log} {k : B256 × Nat} (hk : l.key? = some k) :
    ((q.send l).1.queue = q.queue ++ [l] ∨ (q.send l).1.queue = q.queue ∧ k ∈ q.recent) ∧
      (q.send l).1.gaps = q.gaps ∧ ∀ x ∈ (q.send l).1.recent, x ∈ q.recent ∨ x = k := by
  unfold send
  by_cases hr : k ∈ q.recent
  · rw [record_stale hk hr]
    exact ⟨.inr ⟨rfl, hr⟩, rfl, fun x hx => .inl hx⟩
  · obtain ⟨kept, hkept, hrec⟩ := record_fresh hk hr
    rw [hrec]
    refine ⟨.inl rfl, rfl, fun x hx => ?_⟩
    rcases List.mem_append.1 hx with hx | hx
    · exact .inl (hkept x hx)
    · exact .inr (List.mem_singleton.1 hx)

end EventQueue

end EvmDexPool
