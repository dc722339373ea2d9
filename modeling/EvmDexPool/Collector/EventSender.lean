import Std.Data.ExtHashMap
import Mathlib.Data.List.DropRight
import EvmDexPool.Collector.EventQueue

/-!
# De-duplication (`EventSender`, `collector/event_queue.rs`)

| here | there |
| --- | --- |
| `recentEvents` | `Mutex<HashMap<(TxHash, u64), Log>>` |
| `eventOrder`   | `Mutex<VecDeque<(TxHash, u64)>>`, oldest first |
| `inner`        | what has been sent into the channel |

Both locks are held while a call is recorded, so a call is one step. `EventQueue` keeps the two as one list;
here they are two, and `record_abs` says that this makes no difference.
-/

namespace EvmDexPool

open Std

structure EventSender where
  inner : List Log
  recentEvents : ExtHashMap (B256 × Nat) Log
  eventOrder : List (B256 × Nat)
  maxEvents : Nat

namespace EventSender
variable (s : EventSender)

/-- The sender of `EventQueue::new` (event_queue.rs:54). -/
def new (maxEvents : Nat) : EventSender := ⟨[], ∅, [], maxEvents⟩

/-- The oldest key goes (event_queue.rs:233-239). -/
def prune : EventSender :=
  match s.eventOrder with
  | [] => s
  | oldKey :: rest => { s with recentEvents := s.recentEvents.erase oldKey, eventOrder := rest }

/-- `record` (event_queue.rs:212). -/
def record (event : Log) : EventSender × Except String Bool :=
  match event.transactionHash with
  | none => (s, .error "Log missing transaction hash")
  | some transactionHash =>
    match event.logIndex with
    | none => (s, .error "Log missing log index")
    | some logIndex =>
      let key := (transactionHash, logIndex)
      if key ∈ s.recentEvents then (s, .ok false)
      else
        let s := if s.recentEvents.size ≥ s.maxEvents then s.prune else s
        ({ s with recentEvents := s.recentEvents.insert key event, eventOrder := s.eventOrder ++ [key] }, .ok true)

/-- `send` (event_queue.rs:198), the channel being open. -/
def send (event : Log) : EventSender × Except String Unit :=
  match s.record event with
  | (s, .error e) => (s, .error e)
  | (s, .ok false) => (s, .ok ())
  | (s, .ok true) => ({ s with inner := s.inner ++ [event] }, .ok ())

/-- `claim` (event_queue.rs:169). -/
def claim (log : Log) : EventSender × Except String Bool := s.record log

/-- The map and the order hold the same keys, each once. -/
structure InStep : Prop where
  nodup : s.eventOrder.Nodup
  same : ∀ k, k ∈ s.recentEvents ↔ k ∈ s.eventOrder
  size : s.recentEvents.size = s.eventOrder.length

/-- The event queue of a sender, with one list for both. -/
def abs (gaps : List Gap) : EventQueue := ⟨s.inner, s.eventOrder, gaps, s.maxEvents⟩

/-! ## One call -/

variable {s}

theorem InStep.prune (h : s.InStep) : s.prune.InStep ∧ s.prune.eventOrder = s.eventOrder.drop 1 := by
  unfold EventSender.prune
  cases ho : s.eventOrder with
  | nil =>
    dsimp only
    exact ⟨h, ho⟩
  | cons oldKey rest =>
    have hnodup := h.nodup
    rw [ho] at hnodup
    obtain ⟨hnot, hnodup⟩ := List.nodup_cons.1 hnodup
    have hold : oldKey ∈ s.recentEvents := (h.same oldKey).2 (by rw [ho]; exact List.mem_cons_self)
    refine ⟨⟨hnodup, fun k => ?_, ?_⟩, rfl⟩
    · rw [ExtHashMap.mem_erase, h.same, ho, List.mem_cons]
      constructor
      · rintro ⟨hne, rfl | hmem⟩
        · simp at hne
        · exact hmem
      · intro hmem
        refine ⟨?_, .inr hmem⟩
        rw [beq_eq_false_iff_ne]
        rintro rfl
        exact hnot hmem
    · change (s.recentEvents.erase oldKey).size = rest.length
      rw [ExtHashMap.size_erase, if_pos hold, h.size, ho, List.length_cons]
      rfl

/-- What is left of the order when a new key comes. -/
def kept (s : EventSender) : List (B256 × Nat) :=
  if s.eventOrder.length ≥ s.maxEvents then s.eventOrder.drop 1 else s.eventOrder

theorem InStep.room (h : s.InStep) :
    (if s.recentEvents.size ≥ s.maxEvents then s.prune else s).InStep ∧
      (if s.recentEvents.size ≥ s.maxEvents then s.prune else s).eventOrder = s.kept := by
  unfold kept
  rw [h.size]
  split
  · exact h.prune
  · exact ⟨h, rfl⟩

/-- What a call does with a log that has a key. -/
theorem InStep.record (h : s.InStep) {l : Log} {k : B256 × Nat} (hk : l.key? = some k) :
    (s.record l).1.InStep ∧ (s.record l).1.inner = s.inner ∧ (s.record l).1.maxEvents = s.maxEvents ∧
      (s.record l).1.eventOrder = (if k ∈ s.eventOrder then s.eventOrder else s.kept ++ [k]) ∧
      (s.record l).2 = .ok (decide (k ∉ s.eventOrder)) := by
  unfold Log.key? at hk
  unfold EventSender.record
  cases hhash : l.transactionHash with
  | none =>
    rw [hhash] at hk
    cases hk
  | some hash =>
    cases hindex : l.logIndex with
    | none =>
      rw [hhash, hindex] at hk
      cases hk
    | some index =>
      rw [hhash, hindex] at hk
      cases hk
      dsimp only
      by_cases hmem : (hash, index) ∈ s.eventOrder
      · rw [if_pos ((h.same _).2 hmem), if_pos hmem]
        exact ⟨h, rfl, rfl, rfl, by simp [hmem]⟩
      · obtain ⟨hroom, horder⟩ := h.room
        rw [if_neg ((h.same _).not.2 hmem), if_neg hmem]
        have hfields : (if s.recentEvents.size ≥ s.maxEvents then s.prune else s).inner = s.inner ∧
            (if s.recentEvents.size ≥ s.maxEvents then s.prune else s).maxEvents = s.maxEvents := by
          unfold EventSender.prune
          split
          · split
            · exact ⟨rfl, rfl⟩
            · exact ⟨rfl, rfl⟩
          · exact ⟨rfl, rfl⟩
        generalize (if s.recentEvents.size ≥ s.maxEvents then s.prune else s) = t at *
        have hkept : (hash, index) ∉ s.kept := by
          unfold kept
          intro hin
          split at hin
          · exact hmem (List.mem_of_mem_drop hin)
          · exact hmem hin
        rw [← horder] at hkept ⊢
        refine ⟨⟨?_, fun k => ?_, ?_⟩, hfields.1, hfields.2, rfl, by simp [hmem]⟩
        · exact List.nodup_append.2 ⟨hroom.nodup, List.nodup_singleton _, by
            rintro a ha b hb rfl
            exact hkept (List.mem_singleton.1 hb ▸ ha)⟩
        · change k ∈ t.recentEvents.insert (hash, index) l ↔ k ∈ t.eventOrder ++ [(hash, index)]
          rw [ExtHashMap.mem_insert, hroom.same, List.mem_append, List.mem_singleton, or_comm, beq_iff_eq, eq_comm]
        · change (t.recentEvents.insert (hash, index) l).size = (t.eventOrder ++ [(hash, index)]).length
          rw [ExtHashMap.size_insert, if_neg ((hroom.same _).not.2 hkept), hroom.size, List.length_append]
          rfl

/-- One list is enough: the event queue records as its sender does. -/
theorem record_abs (h : s.InStep) (gaps : List Gap) (l : Log) :
    (s.abs gaps).record l = ((s.record l).1.abs gaps, (s.record l).2) := by
  cases hk : l.key? with
  | none =>
    unfold Log.key? at hk
    unfold EventQueue.record EventSender.record
    cases hhash : l.transactionHash with
    | none => rfl
    | some hash =>
      cases hindex : l.logIndex with
      | none => rfl
      | some index =>
        rw [hhash, hindex] at hk
        cases hk
  | some k =>
    obtain ⟨-, hinner, hmax, horder, hanswer⟩ := h.record hk
    have habs : (s.record l).1.abs gaps =
        ⟨s.inner, if k ∈ s.eventOrder then s.eventOrder else s.kept ++ [k], gaps, s.maxEvents⟩ := by
      unfold abs
      rw [hinner, hmax, horder]
    rw [habs, hanswer]
    by_cases hmem : k ∈ s.eventOrder
    · have hrecent : k ∈ (s.abs gaps).recent := hmem
      rw [EventQueue.record_stale hk hrecent, if_pos hmem]
      simp [hmem, abs]
    · unfold Log.key? at hk
      unfold EventQueue.record
      cases hhash : l.transactionHash with
      | none =>
        rw [hhash] at hk
        cases hk
      | some hash =>
        cases hindex : l.logIndex with
        | none =>
          rw [hhash, hindex] at hk
          cases hk
        | some index =>
          rw [hhash, hindex] at hk
          cases hk
          have hrecent : (hash, index) ∉ (s.abs gaps).recent := hmem
          dsimp only
          rw [if_neg hrecent, if_neg hmem]
          simp [hmem, abs, kept]

/-- And it sends as its sender does. -/
theorem send_abs (h : s.InStep) (gaps : List Gap) (l : Log) :
    (s.abs gaps).send l = ((s.send l).1.abs gaps, (s.send l).2) := by
  unfold EventQueue.send EventSender.send
  rw [record_abs h]
  rcases s.record l with ⟨t, _ | _ | _⟩ <;> rfl

end EventSender

/-! ## Runs -/

/-- A listener sends a log, or the gap fill claims one. -/
inductive SenderCall
  | send (event : Log)
  | claim (log : Log)

def SenderCall.log : SenderCall → Log
  | send event => event
  | claim log => log

/-- The logs that are sent. -/
def SenderCall.sent : SenderCall → Option Log
  | send event => some event
  | claim _ => none

/-- A sender, and the calls it has accepted, oldest first. -/
structure SenderRun where
  sender : EventSender
  accepted : List SenderCall

namespace SenderRun

/-- A call; `record`'s answer says whether it is accepted. -/
def step (s : SenderRun) (c : SenderCall) : SenderRun where
  sender := match c with
    | .send event => (s.sender.send event).1
    | .claim log => (s.sender.claim log).1
  accepted := if (s.sender.record c.log).2 = .ok true then s.accepted ++ [c] else s.accepted

/-- A run of a new queue. -/
def run (maxEvents : Nat) (calls : List SenderCall) : SenderRun := calls.foldl step ⟨.new maxEvents, []⟩

/-- The keys accepted so far, oldest first. -/
def keys (s : SenderRun) : List (B256 × Nat) := s.accepted.filterMap fun c => c.log.key?

/-- The last `max 1 maxEvents` of them. -/
def window (s : SenderRun) : List (B256 × Nat) := s.keys.rtake (max 1 s.sender.maxEvents)

/-- The window is exact: the map and the order both hold the keys of the window, each once, the queue is what
was accepted of what was sent, and a key in the window, and no other, is refused, whichever call brings it. -/
structure Slides (s : SenderRun) : Prop where
  order : s.sender.eventOrder = s.window
  inStep : s.sender.InStep
  bounded : s.sender.eventOrder.length ≤ max 1 s.sender.maxEvents
  queue : s.sender.inner = s.accepted.filterMap SenderCall.sent
  claims : ∀ l k, l.key? = some k → (s.sender.claim l).2 = .ok (decide (k ∉ s.window)) ∧
    (s.sender.claim l).1.inner = s.sender.inner
  sends : ∀ l k, l.key? = some k → (s.sender.send l).2 = .ok () ∧
    (s.sender.send l).1.inner = if k ∈ s.window then s.sender.inner else s.sender.inner ++ [l]
  accepts : ∀ c k, c.log.key? = some k →
    (s.step c).accepted = if k ∈ s.window then s.accepted else s.accepted ++ [c]

/-- What a run keeps. -/
structure Kept (s : SenderRun) : Prop where
  order : s.sender.eventOrder = s.window
  inStep : s.sender.InStep
  queue : s.sender.inner = s.accepted.filterMap SenderCall.sent

variable {s : SenderRun}

/-- Making room leaves one key less than the window holds. -/
theorem Kept.room (h : Kept s) : s.sender.kept = s.keys.rtake (max 1 s.sender.maxEvents - 1) := by
  have horder := h.order
  unfold window List.rtake at horder
  unfold EventSender.kept List.rtake
  rw [horder, List.length_drop, List.drop_drop]
  split
  · by_cases hfull : max 1 s.sender.maxEvents ≤ s.keys.length
    · congr 1
      omega
    · rw [List.drop_eq_nil_of_le (by omega), List.drop_eq_nil_of_le (by omega)]
  · congr 1
    omega

theorem Kept.slides (h : Kept s) : s.Slides := by
  have hrecord : ∀ l k, l.key? = some k → (s.sender.record l).1.inner = s.sender.inner ∧
      (s.sender.record l).2 = .ok (decide (k ∉ s.window)) := fun l k hk => by
    obtain ⟨-, hinner, -, -, hanswer⟩ := h.inStep.record hk
    rw [h.order] at hanswer
    exact ⟨hinner, hanswer⟩
  refine ⟨h.order, h.inStep, ?_, h.queue, fun l k hk => (hrecord l k hk).symm, fun l k hk => ?_, fun c k hk => ?_⟩
  · rw [h.order]
    unfold window List.rtake
    rw [List.length_drop]
    omega
  · obtain ⟨hinner, hanswer⟩ := hrecord l k hk
    unfold EventSender.send
    rcases hrec : s.sender.record l with ⟨t, answer⟩
    rw [hrec] at hinner hanswer
    dsimp only at hinner hanswer
    subst hanswer
    by_cases hmem : k ∈ s.window
    · simp [hmem, hinner]
    · simp [hmem, hinner]
  · unfold step
    rw [(hrecord _ k hk).2]
    by_cases hmem : k ∈ s.window
    · simp [hmem]
    · simp [hmem]

/-- The sender of a call is the one that recorded it, but for the queue. -/
theorem sender_step (s : SenderRun) (c : SenderCall) :
    (s.step c).sender.eventOrder = (s.sender.record c.log).1.eventOrder ∧
      (s.step c).sender.recentEvents = (s.sender.record c.log).1.recentEvents ∧
      (s.step c).sender.maxEvents = (s.sender.record c.log).1.maxEvents := by
  cases c with
  | send event =>
    unfold step EventSender.send SenderCall.log
    dsimp only
    rcases s.sender.record event with ⟨t, _ | _ | _⟩ <;> exact ⟨rfl, rfl, rfl⟩
  | claim log => exact ⟨rfl, rfl, rfl⟩

theorem Kept.step (h : Kept s) {c : SenderCall} (hk : c.log.key?.isSome) : Kept (s.step c) := by
  obtain ⟨k, hk⟩ := Option.isSome_iff_exists.1 hk
  obtain ⟨hinStep, -, hmax, horder, -⟩ := h.inStep.record hk
  obtain ⟨horder', hrecent', hmax'⟩ := sender_step s c
  have haccepts := h.slides.accepts c k hk
  have hkeys : (s.step c).keys = if k ∈ s.window then s.keys else s.keys ++ [k] := by
    unfold keys
    rw [haccepts]
    split
    · rfl
    · rw [List.filterMap_append]
      simp [hk]
  refine ⟨?_, ⟨?_, ?_, ?_⟩, ?_⟩
  · unfold window
    rw [horder', horder, hmax', hmax, hkeys, h.order, h.room]
    split
    · rfl
    · -- the key that comes in takes the place of the one that went
      have hpos : max 1 s.sender.maxEvents = max 1 s.sender.maxEvents - 1 + 1 := by omega
      rw [hpos, List.rtake_concat_succ, Nat.add_sub_cancel]
  · rw [horder']
    exact hinStep.nodup
  · rw [horder', hrecent']
    exact hinStep.same
  · rw [horder', hrecent']
    exact hinStep.size
  · rw [haccepts]
    cases c with
    | send event =>
      have hsent := (h.slides.sends event k hk).2
      change (s.sender.send event).1.inner = _
      rw [hsent, h.queue]
      split
      · rfl
      · rw [List.filterMap_append]
        rfl
    | claim log =>
      have hclaimed := (h.slides.claims log k hk).2
      change (s.sender.claim log).1.inner = _
      rw [hclaimed, h.queue]
      split
      · rfl
      · rw [List.filterMap_append]
        simp [SenderCall.sent]

/-- **De-duplication is an exact sliding window**: after every sequence of calls on a new queue, whatever its
capacity, the last `max 1 max_events` accepted keys are those refused. -/
theorem run_slides (maxEvents : Nat) (calls : List SenderCall) (hkeys : ∀ c ∈ calls, c.log.key?.isSome) :
    (run maxEvents calls).sender.maxEvents = maxEvents ∧ (run maxEvents calls).Slides := by
  have hrun : ∀ s, Kept s → s.sender.maxEvents = maxEvents →
      (calls.foldl SenderRun.step s).sender.maxEvents = maxEvents ∧ Kept (calls.foldl SenderRun.step s) := by
    induction calls with
    | nil => exact fun s h hmax => ⟨hmax, h⟩
    | cons c rest ih =>
      intro s h hmax
      have hc := hkeys c List.mem_cons_self
      obtain ⟨k, hk⟩ := Option.isSome_iff_exists.1 hc
      refine ih (fun c' hc' => hkeys c' (List.mem_cons_of_mem _ hc')) _ (h.step hc) ?_
      rw [(sender_step s c).2.2, (h.inStep.record hk).2.2.1, hmax]
  have hnew : Kept ⟨.new maxEvents, []⟩ := by
    refine ⟨?_, ⟨List.nodup_nil, fun k => ?_, rfl⟩, rfl⟩
    · simp [EventSender.new, window, keys]
    · simp [EventSender.new]
  obtain ⟨hmax, hkept⟩ := hrun ⟨.new maxEvents, []⟩ hnew rfl
  exact ⟨hmax, hkept.slides⟩

/-- A capacity of zero still keeps one key. -/
theorem run_slides_zero :
    (run 0 [.send (syncAt 5 0), .claim (syncAt 5 1), .send (syncAt 5 0)]).sender.maxEvents = 0 ∧
      (run 0 [.send (syncAt 5 0), .claim (syncAt 5 1), .send (syncAt 5 0)]).Slides :=
  run_slides 0 _ (by decide)

end SenderRun

end EvmDexPool
