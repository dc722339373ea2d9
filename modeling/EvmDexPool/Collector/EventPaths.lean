import EvmDexPool.Collector.EventProcessor

/-!
# The event paths agree

Catch-up applies a list of logs one at a time, the two confirmed paths pool by pool, the pending path
on clones. Whatever the pools do with the logs, all of them end with each pool stepped by its own logs
in order (`replayed`), as long as none panics. The event processor does panic on logs the others pass
over: it unwraps the transaction hash of a log that fails to apply, and the topic, hash and log index
of what it sends on (`Reportable`).
-/

namespace EvmDexPool

open Std Replay

variable {π : Type}

/-! ## Loops over a registry -/

section OnPool
variable {α : Type} (key : α → Address) (g : α → π → π × Except Fault Unit)

theorem onPool_fst (f : π → π × Except Fault Unit) (a : Address) (r : PoolRegistry π) :
    (onPool f a r).1 = { r with byAddress := stepAt r.byAddress a fun p => (f p).1 } := by
  unfold onPool stepAt PoolRegistry.getPool
  cases r.byAddress[a]? <;> rfl

theorem onPool_getPool (f : π → π × Except Fault Unit) (a b : Address) (r : PoolRegistry π) :
    (onPool f a r).1.getPool b = if b = a then (r.getPool b).map fun p => (f p).1 else r.getPool b := by
  rw [onPool_fst]
  exact lookup_stepAt ..

theorem onPool_snd (f : π → π × Except Fault Unit) (a : Address) (r : PoolRegistry π) :
    (onPool f a r).2 = .ok () ↔ ∀ p, r.getPool a = some p → (f p).2 = .ok () := by
  unfold onPool
  cases h : r.getPool a <;> simp

/-- A loop over the pools runs through when it does on each pool by itself. -/
theorem clean_onPool {xs : List α} {r : PoolRegistry π} :
    Clean (fun x => onPool (g x) (key x)) xs r ↔
      ∀ a p, r.getPool a = some p → Clean g (xs.filter fun x => key x = a) p := by
  induction xs generalizing r with
  | nil => simp [Clean]
  | cons x xs ih =>
    change (onPool (g x) (key x) r).2 = .ok () ∧ Clean (fun x => onPool (g x) (key x)) xs (onPool (g x) (key x) r).1 ↔ _
    rw [onPool_snd, ih]
    constructor
    · rintro ⟨h1, h2⟩ a p hp
      have h2 := h2 a
      rw [onPool_getPool] at h2
      by_cases ha : key x = a
      · subst ha
        rw [List.filter_cons_of_pos (by simp)]
        exact ⟨h1 p hp, h2 _ (by rw [if_pos rfl, hp]; rfl)⟩
      · rw [List.filter_cons_of_neg (by simpa using ha)]
        exact h2 p (by rw [if_neg fun e => ha e.symm]; exact hp)
    · intro h
      refine ⟨fun p hp => ?_, fun a p hp => ?_⟩
      · have := h _ p hp
        rw [List.filter_cons_of_pos (by simp)] at this
        exact this.1
      · rw [onPool_getPool] at hp
        by_cases ha : a = key x
        · subst ha
          rw [if_pos rfl] at hp
          obtain ⟨q, hq, rfl⟩ := Option.map_eq_some_iff.1 hp
          have := h _ q hq
          rw [List.filter_cons_of_pos (by simp)] at this
          exact this.2
        · rw [if_neg ha] at hp
          have := h _ p hp
          rwa [List.filter_cons_of_neg (by simpa using fun e => ha e.symm)] at this

/-- And it leaves each pool stepped by its own entries. -/
theorem foldl_onPool (xs : List α) (r : PoolRegistry π) :
    xs.foldl (fun r x => (onPool (g x) (key x) r).1) r =
      { r with byAddress := replay key (fun x p => (g x p).1) r.byAddress xs } := by
  induction xs generalizing r with
  | nil => rfl
  | cons x xs ih =>
    rw [List.foldl_cons, ih, onPool_fst]
    rfl

end OnPool

variable [PoolInterface π] (clock : Log → Nat)

/-! ## The common end, and when it is reached -/

/-- What a log does to a pool, whatever comes back. -/
def stepLog (l : Log) (p : π) : π := (applyLogAt clock l p).1

/-- Every pool stepped by its own logs. -/
def PoolRegistry.replayed (r : PoolRegistry π) (events : List Log) : PoolRegistry π :=
  { r with byAddress := replay (·.address) (stepLog clock) r.byAddress events }

/-- A receiver can be sent every log of a registered pool that has to be. -/
def Sendable (proc : EventProcessor) (l : Log) : Prop :=
  ∃ t, l.topic0 = some t ∧ (t ∈ proc.profitableTopics → l.transactionHash.isSome ∧ l.logIndex.isSome)

/-- No log makes its pool panic, every log a pool rejects has a transaction hash, and with a receiver
every log of a registered pool has a topic, and if that is profitable a hash and an index. -/
structure Reportable (proc : EventProcessor) (events : List Log) (r : PoolRegistry π) : Prop where
  quiet : ∀ a p, r.getPool a = some p → Clean (applyOrReport clock) (eventsOf events a) p
  sendable : proc.swapEventTx → ∀ l ∈ events, (r.getPool l.address).isSome → Sendable proc l

/-! ## One log -/

variable {clock} {proc : EventProcessor}

theorem applyOrWarn_fst (l : Log) (p : π) : (applyOrWarn clock l p).1 = stepLog clock l p := by
  unfold applyOrWarn stepLog
  split
  · next h => rw [h]
  · rfl

theorem applyOrReport_fst (l : Log) (p : π) : (applyOrReport clock l p).1 = stepLog clock l p := by
  unfold applyOrReport stepLog
  split
  · next h => rw [h]
  · rfl

/-- What the event processor can report, catch-up can pass over. -/
theorem applyOrWarn_ok {l : Log} {p : π} (h : (applyOrReport clock l p).2 = .ok ()) :
    (applyOrWarn clock l p).2 = .ok () := by
  unfold applyOrReport at h
  unfold applyOrWarn
  split at h
  · rfl
  · exact h

theorem clean_applyOrWarn {ls : List Log} {p : π} (h : Clean (applyOrReport clock) ls p) :
    Clean (applyOrWarn clock) ls p := by
  induction ls generalizing p with
  | nil => trivial
  | cons l ls ih =>
    refine ⟨applyOrWarn_ok h.1, ?_⟩
    rw [applyOrWarn_fst, ← applyOrReport_fst]
    exact ih h.2

theorem loop_applyOrReport_fst {ls : List Log} {p : π} (h : Clean (applyOrReport clock) ls p) :
    (loop (applyOrReport clock) ls p).1 = ls.foldl (fun p l => stepLog clock l p) p := by
  rw [loop_fst h]
  congr 1
  funext p l
  exact applyOrReport_fst l p

/-! ## Catch-up and the grouped path -/

variable {events : List Log} {r : PoolRegistry π}

theorem catchupEvents_eq (h : Reportable clock proc events r) :
    catchupEvents clock events r = (r.replayed clock events, .ok ()) := by
  have hc : Clean (fun l => onPool (applyOrWarn clock l) l.address) events r :=
    (clean_onPool Log.address (applyOrWarn clock)).2 fun a p hp =>
      show Clean _ (eventsOf events a) p from clean_applyOrWarn (h.quiet a p hp)
  unfold catchupEvents
  rw [loop_eq_of_clean hc, foldl_onPool (·.address) (applyOrWarn clock)]
  have hstep : (fun (l : Log) (p : π) => (applyOrWarn clock l p).1) = stepLog clock :=
    funext fun l => funext fun p => applyOrWarn_fst l p
  rw [hstep]
  rfl

/-- Pool by pool: the loop over the addresses is clean exactly when each pool's loop is. -/
theorem clean_applyEventsToRegistry {order : List Address} (hn : order.Nodup)
    (ho : ∀ a, a ∈ order ↔ a ∈ events.map (·.address)) :
    Clean (fun a => onPool (loop (applyOrReport clock) (eventsOf events a)) a) order r ↔
      ∀ a p, r.getPool a = some p → Clean (applyOrReport clock) (eventsOf events a) p := by
  refine (clean_onPool id fun a => loop (applyOrReport clock) (eventsOf events a)).trans ?_
  refine forall₂_congr fun a p => imp_congr_right fun _ => ?_
  by_cases ha : a ∈ order
  · have : (order.filter fun x => id x = a) = [a] := filter_id_of_nodup hn ha
    rw [this]
    simp only [Clean, and_true]
    exact loop_ok_iff ..
  · have hnil : eventsOf events a = [] := by
      unfold eventsOf
      rw [List.filter_eq_nil_iff]
      intro l hl he
      exact ha ((ho a).2 (List.mem_map.2 ⟨l, hl, by simpa using he⟩))
    have : (order.filter fun x => id x = a) = [] := by
      rw [List.filter_eq_nil_iff]
      intro x hx he
      exact ha (by simpa using (show x = a by simpa using he) ▸ hx)
    rw [this, hnil]
    exact iff_of_true trivial trivial

theorem applyEventsToRegistry_eq {order : List Address} (hn : order.Nodup)
    (ho : ∀ a, a ∈ order ↔ a ∈ events.map (·.address)) (h : Reportable clock proc events r) :
    applyEventsToRegistry clock order events r = (r.replayed clock events, .ok ()) := by
  have hc := (clean_applyEventsToRegistry hn ho).2 h.quiet
  have hmap : replay id (fun a p => (loop (applyOrReport clock) (eventsOf events a) p).1) r.byAddress order =
      replay (·.address) (stepLog clock) r.byAddress events := by
    refine ExtTreeMap.ext_getElem? fun t => ?_
    rw [lookup_replay, lookup_replay]
    cases hp : r.byAddress[t]? with
    | none => rfl
    | some p =>
      refine congrArg some ?_
      by_cases ht : t ∈ order
      · rw [own_id_of_nodup hn ht, loop_applyOrReport_fst (h.quiet t p hp)]
        rfl
      · rw [own_of_not_mem id _ (by simpa using ht), own_of_not_mem _ _ (mt (ho t).2 ht)]
  have hfold := foldl_onPool id (fun a => loop (applyOrReport clock) (eventsOf events a)) order r
  rw [hmap] at hfold
  unfold applyEventsToRegistry
  rw [loop_eq_of_clean hc]
  exact Prod.ext hfold rfl

/-! ## The confirmed path -/

/-- The events of a pool that are sent on. -/
def profits (proc : EventProcessor) (ls : List Log) : List Log :=
  ls.filter fun l => l.topic0.any (· ∈ proc.profitableTopics)

/-- One pool, with what it adds to the events to send. -/
theorem loop_confirmEvent {ls : List Log} {p : π} (sent : List Log) (h : Clean (applyOrReport clock) ls p)
    (ht : proc.swapEventTx → ∀ l ∈ ls, Sendable proc l) :
    loop (proc.confirmEvent clock) ls (p, sent) =
      ((ls.foldl (fun p l => stepLog clock l p) p,
        if proc.swapEventTx then sent ++ profits proc ls else sent), .ok ()) := by
  induction ls generalizing p sent with
  | nil => simp [loop, profits]
  | cons l ls ih =>
    obtain ⟨h1, h2⟩ := h
    rcases ho : applyOrReport clock l p with ⟨p', e⟩
    have hfst : (applyOrReport clock l p).1 = stepLog clock l p := applyOrReport_fst l p
    rw [ho] at h1 h2 hfst
    dsimp only at h1 h2 hfst
    subst h1 hfst
    have ih := fun sent => ih sent h2 fun hx l hl => ht hx l (List.mem_cons_of_mem _ hl)
    by_cases hx : proc.swapEventTx
    · obtain ⟨t, htop, -⟩ := ht hx l List.mem_cons_self
      have hp : proc.isProfitable l = .ok (t ∈ proc.profitableTopics) := by
        simp [EventProcessor.isProfitable, htop]
      simp only [hx, if_true] at ih ⊢
      by_cases hm : t ∈ proc.profitableTopics
      · simp [loop, EventProcessor.confirmEvent, ho, hx, hp, hm, ih, profits, htop]
      · simp [loop, EventProcessor.confirmEvent, ho, hx, hp, hm, ih, profits, htop]
    · simp only [hx] at ih ⊢
      simp [loop, EventProcessor.confirmEvent, ho, hx, ih]

/-- The pools one after the other: each is stepped by its own events, and what is to be sent is events
of registered pools with a profitable topic. -/
theorem loop_confirmPool (hq : ∀ a p, r.getPool a = some p → Clean (applyOrReport clock) (eventsOf events a) p)
    (ht : proc.swapEventTx → ∀ l ∈ events, (r.getPool l.address).isSome → Sendable proc l) {as : List Address}
    (hn : as.Nodup) (q : PoolRegistry π) (hsame : ∀ a ∈ as, q.getPool a = r.getPool a) (sent : List Log) :
    ∃ m sent', loop (proc.confirmPool clock events) as (q, sent) = (({ q with byAddress := m }, sent'), .ok ()) ∧
      (∀ t, m[t]? = if t ∈ as then (r.getPool t).map (own (·.address) (stepLog clock) events t) else q.getPool t) ∧
      ∀ l ∈ sent', l ∈ sent ∨ proc.swapEventTx ∧ l ∈ events ∧ (r.getPool l.address).isSome ∧
        l.topic0.any (· ∈ proc.profitableTopics) := by
  induction as generalizing q sent with
  | nil => exact ⟨q.byAddress, sent, rfl, fun t => by simp [PoolRegistry.getPool], fun l hl => .inl hl⟩
  | cons a as ih =>
    obtain ⟨ha, hn⟩ := List.nodup_cons.1 hn
    have hqa := hsame a List.mem_cons_self
    cases hp : r.getPool a with
    | none =>
      have hstep : proc.confirmPool clock events a (q, sent) = ((q, sent), .ok ()) := by
        unfold EventProcessor.confirmPool
        dsimp only
        rw [hqa, hp]
      obtain ⟨m, sent', h1, h2, h3⟩ := ih hn q (fun b hb => hsame b (List.mem_cons_of_mem _ hb)) sent
      refine ⟨m, sent', by rw [loop, hstep]; exact h1, fun t => ?_, h3⟩
      rw [h2]
      by_cases hta : t = a
      · subst hta
        simp [ha, hqa, hp]
      · simp [hta]
    | some p =>
      have hloop := loop_confirmEvent sent (hq a p hp) (fun hx l hl => ht hx l (List.mem_filter.1 hl).1 (by
        have : l.address = a := by simpa [eventsOf] using (List.mem_filter.1 hl).2
        rw [this, hp]; rfl))
      have hstep : proc.confirmPool clock events a (q, sent) =
          (({ q with byAddress := q.byAddress.insert a (own (·.address) (stepLog clock) events a p) },
            if proc.swapEventTx then sent ++ profits proc (eventsOf events a) else sent), .ok ()) := by
        unfold EventProcessor.confirmPool
        dsimp only
        rw [hqa, hp]
        dsimp only
        rw [hloop]
        rfl
      obtain ⟨m, sent', h1, h2, h3⟩ := ih hn
        { q with byAddress := q.byAddress.insert a (own (·.address) (stepLog clock) events a p) }
        (fun b hb => by
          have hba : b ≠ a := fun e => ha (e ▸ hb)
          have hb := hsame b (List.mem_cons_of_mem _ hb)
          unfold PoolRegistry.getPool at hb ⊢
          dsimp only
          rw [Ranges.lookup_insert, if_neg hba, hb])
        (if proc.swapEventTx then sent ++ profits proc (eventsOf events a) else sent)
      refine ⟨m, sent', by rw [loop, hstep]; exact h1, fun t => ?_, fun l hl => ?_⟩
      · rw [h2]
        unfold PoolRegistry.getPool at hp ⊢
        dsimp only
        rw [Ranges.lookup_insert]
        by_cases hta : t = a
        · subst hta
          simp [ha, hp]
        · simp [hta]
      · rcases h3 l hl with h | h
        · by_cases hx : proc.swapEventTx
          · rw [if_pos hx, List.mem_append] at h
            rcases h with h | h
            · exact .inl h
            · obtain ⟨hl, htop⟩ := List.mem_filter.1 h
              obtain ⟨hl, hadd⟩ := List.mem_filter.1 hl
              have : l.address = a := by simpa using hadd
              exact .inr ⟨hx, hl, by rw [this, hp]; rfl, htop⟩
          · rw [if_neg hx] at h
            exact .inl h
        · exact .inr h

theorem loop_sendSwapEvent {ls sent : List Log} (h : ∀ l ∈ ls, l.transactionHash.isSome ∧ l.logIndex.isSome) :
    (loop EventProcessor.sendSwapEvent ls sent).2 = .ok () := by
  induction ls generalizing sent with
  | nil => rfl
  | cons l ls ih =>
    have hl := h l List.mem_cons_self
    rw [loop, show EventProcessor.sendSwapEvent l sent = (sent ++ [l], .ok ()) from if_pos hl]
    exact ih fun l' hl' => h l' (List.mem_cons_of_mem _ hl')

theorem processConfirmedEvents_eq (h : Reportable clock proc events r) :
    ∃ sent, proc.processConfirmedEvents clock events r = ((r.replayed clock events, sent), .ok ()) := by
  have hn : (events.map (·.address)).eraseDups.Nodup := nodup_eraseDups _
  obtain ⟨m, sent, h1, h2, h3⟩ := loop_confirmPool h.quiet h.sendable hn r (fun _ _ => rfl) []
  have hm : m = replay (·.address) (stepLog clock) r.byAddress events := by
    refine ExtTreeMap.ext_getElem? fun t => ?_
    rw [h2, lookup_replay]
    split
    · rfl
    · next ht =>
      have : own (·.address) (stepLog clock) events t = id :=
        funext (own_of_not_mem (·.address) (stepLog (π := π) clock) (by simpa using ht))
      rw [this, Option.map_id]
      rfl
  unfold EventProcessor.processConfirmedEvents
  rw [h1]
  dsimp only
  rw [hm]
  by_cases hx : proc.swapEventTx
  · rw [if_pos hx]
    refine ⟨_, Prod.ext rfl (loop_sendSwapEvent fun l hl => ?_)⟩
    rcases h3 l hl with h | ⟨-, hl, hr, htop⟩
    · simp at h
    · obtain ⟨t, ht, hsend⟩ := h.sendable hx l hl hr
      rw [ht] at htop
      exact hsend (by simpa using htop)
  · rw [if_neg hx]
    exact ⟨[], rfl⟩

/-! A confirmed batch that ends well has met no panic. -/

theorem clean_of_confirmEvent {ls : List Log} {p : π} {sent : List Log}
    (h : Clean (proc.confirmEvent clock) ls (p, sent)) : Clean (applyOrReport clock) ls p := by
  induction ls generalizing p sent with
  | nil => trivial
  | cons l ls ih =>
    obtain ⟨h1, h2⟩ := h
    unfold EventProcessor.confirmEvent at h1 h2
    dsimp only at h1 h2
    rcases ho : applyOrReport clock l p with ⟨p', e⟩
    rw [ho] at h1 h2
    cases e with
    | error e => cases h1
    | ok u =>
      refine ⟨by rw [ho], ?_⟩
      rw [ho]
      dsimp only at h1 h2
      split at h1
      · next hx =>
        rw [if_pos hx] at h2
        split at h1
        · cases h1
        · next hp =>
          rw [hp] at h2
          exact ih h2
      · next hx =>
        rw [if_neg hx] at h2
        exact ih h2

theorem clean_of_confirmPool {as : List Address} (hn : as.Nodup) {q : PoolRegistry π} {sent : List Log}
    (h : Clean (proc.confirmPool clock events) as (q, sent)) {a : Address} (ha : a ∈ as) {p : π}
    (hp : q.getPool a = some p) : Clean (applyOrReport clock) (eventsOf events a) p := by
  induction as generalizing q sent with
  | nil => cases ha
  | cons b as ih =>
    obtain ⟨h1, h2⟩ := h
    obtain ⟨hb, hn⟩ := List.nodup_cons.1 hn
    unfold EventProcessor.confirmPool at h1 h2
    dsimp only at h1 h2
    rcases List.mem_cons.1 ha with rfl | ha
    · rw [hp] at h1
      exact clean_of_confirmEvent ((loop_ok_iff ..).1 h1)
    · cases hq : q.getPool b with
      | none =>
        rw [hq] at h2
        exact ih hn h2 ha hp
      | some x =>
        rw [hq] at h2
        refine ih hn h2 ha ?_
        have hab : a ≠ b := fun e => hb (e ▸ ha)
        unfold PoolRegistry.getPool at hp ⊢
        dsimp only
        rw [Ranges.lookup_insert, if_neg hab, hp]

theorem quiet_of_processConfirmedEvents (h : (proc.processConfirmedEvents clock events r).2 = .ok ()) :
    ∀ a p, r.getPool a = some p → Clean (applyOrReport clock) (eventsOf events a) p := by
  intro a p hp
  unfold EventProcessor.processConfirmedEvents at h
  split at h
  · cases h
  · next s hs =>
    have hc := (loop_ok_iff ..).1 (congrArg Prod.snd hs)
    by_cases ha : a ∈ events.map (·.address)
    · exact clean_of_confirmPool (nodup_eraseDups _) hc (List.mem_eraseDups.2 ha) hp
    · have hnil : eventsOf events a = [] := by
        unfold eventsOf
        rw [List.filter_eq_nil_iff]
        intro l hl he
        exact ha (List.mem_map.2 ⟨l, hl, by simpa using he⟩)
      rw [hnil]
      trivial

/-! ## The pending path -/

/-- The pool a pending event meets: its clone, or else the registry's pool. -/
def speculated (r : PoolRegistry π) (s : EventProcessor.Speculation π) (a : Address) : Option π :=
  (s.modifiedPools[a]?).or (r.getPool a)

theorem speculate_none {l : Log} {s : EventProcessor.Speculation π} (h : speculated r s l.address = none) :
    proc.speculate clock r l s = (s, .ok ()) := by
  unfold EventProcessor.speculate
  unfold speculated at h
  rw [h]

/-- One pending event that can be reported. -/
theorem speculate_some {l : Log} {s : EventProcessor.Speculation π} {p : π} (h : speculated r s l.address = some p)
    (ho : (applyOrWarn clock l p).2 = .ok ()) (hs : Sendable proc l) :
    ∃ sent, proc.speculate clock r l s =
      (⟨s.modifiedPools.insert l.address (stepLog clock l p), sent⟩, .ok ()) := by
  obtain ⟨t, ht, hsend⟩ := hs
  unfold EventProcessor.speculate EventProcessor.isProfitable EventProcessor.sendSwapEvent
  unfold speculated at h
  rw [h]
  dsimp only
  rw [ho, ht]
  dsimp only
  rw [applyOrWarn_fst]
  by_cases hm : t ∈ proc.profitableTopics
  · simp [hm, hsend hm]
  · simp [hm]

/-- The clones are stepped by their own events; the others are as they were. -/
theorem loop_speculate (ls : List Log) {s : EventProcessor.Speculation π}
    (hq : ∀ a p, speculated r s a = some p → Clean (applyOrWarn clock) (eventsOf ls a) p)
    (hs : ∀ l ∈ ls, (speculated r s l.address).isSome → Sendable proc l) :
    ∃ s', loop (proc.speculate clock r) ls s = (s', .ok ()) ∧
      ∀ t, s'.modifiedPools[t]? = if t ∈ ls.map (·.address) then
        (speculated r s t).map (own (·.address) (stepLog clock) ls t) else s.modifiedPools[t]? := by
  induction ls generalizing s with
  | nil => exact ⟨s, rfl, fun t => by simp⟩
  | cons l ls ih =>
    have htail : ∀ l' ∈ ls, (speculated r s l'.address).isSome → Sendable proc l' :=
      fun l' hl' => hs l' (List.mem_cons_of_mem _ hl')
    cases hp : speculated r s l.address with
    | none =>
      have hq' : ∀ a p, speculated r s a = some p → Clean (applyOrWarn clock) (eventsOf ls a) p := by
        intro a p ha
        have hne : l.address ≠ a := by
          rintro rfl
          rw [hp] at ha
          cases ha
        have := hq a p ha
        rwa [eventsOf, List.filter_cons_of_neg (by simpa using hne)] at this
      obtain ⟨s', h1, h2⟩ := ih hq' htail
      refine ⟨s', by rw [loop, speculate_none hp]; exact h1, fun t => ?_⟩
      rw [h2]
      by_cases hlt : l.address = t
      · subst hlt
        obtain ⟨hm, -⟩ := Option.or_eq_none_iff.1 hp
        simp [hp, hm]
      · rw [own_cons_of_ne _ _ hlt]
        simp [Ne.symm hlt]
    | some p =>
      have hq0 := hq _ p hp
      rw [eventsOf, List.filter_cons_of_pos (by simp)] at hq0
      obtain ⟨sent, hstep⟩ := speculate_some hp hq0.1 (hs l List.mem_cons_self (by rw [hp]; rfl))
      have hspec : ∀ a, speculated r ⟨s.modifiedPools.insert l.address (stepLog clock l p), sent⟩ a =
          if a = l.address then some (stepLog clock l p) else speculated r s a := by
        intro a
        unfold speculated
        dsimp only
        rw [Ranges.lookup_insert]
        split <;> rfl
      obtain ⟨s', h1, h2⟩ := @ih ⟨s.modifiedPools.insert l.address (stepLog clock l p), sent⟩ (by
        intro a q ha
        rw [hspec] at ha
        split at ha
        · next he =>
          cases ha
          subst he
          have := hq0.2
          rwa [applyOrWarn_fst] at this
        · next he =>
          have := hq a q ha
          rwa [eventsOf, List.filter_cons_of_neg (by simpa using Ne.symm he)] at this) (by
        intro l' hl' h'
        rw [hspec] at h'
        split at h'
        · next he => exact htail l' hl' (by rw [he, hp]; rfl)
        · exact htail l' hl' h')
      refine ⟨s', by rw [loop, hstep]; exact h1, fun t => ?_⟩
      rw [h2, hspec, Ranges.lookup_insert]
      by_cases hlt : t = l.address
      · subst hlt
        by_cases hmem : l.address ∈ ls.map (·.address)
        · simp [hmem, hp, own_cons_self Log.address]
        · have hown := own_of_not_mem Log.address (stepLog (π := π) clock) hmem (stepLog clock l p)
          simp [hmem, hp, own_cons_self Log.address, hown]
      · rw [own_cons_of_ne _ _ (Ne.symm hlt)]
        simp [hlt]

theorem processPendingEvents_eq (h : Reportable clock proc events r) (hx : proc.swapEventTx) :
    ∃ s, proc.processPendingEvents clock events r = (s, .ok ()) ∧
      ∀ a, s.modifiedPools[a]? = if a ∈ events.map (·.address) then (r.replayed clock events).getPool a else none := by
  have hspec : ∀ a, speculated r ⟨∅, []⟩ a = r.getPool a := fun a => by simp [speculated]
  obtain ⟨s, h1, h2⟩ := loop_speculate events (s := ⟨∅, []⟩)
    (fun a p ha => clean_applyOrWarn (h.quiet a p (by rwa [hspec] at ha)))
    (fun l hl ha => h.sendable hx l hl (by rwa [hspec] at ha))
  refine ⟨s, ?_, fun a => ?_⟩
  · unfold EventProcessor.processPendingEvents
    rw [if_pos hx]
    exact h1
  · rw [h2, hspec]
    unfold PoolRegistry.replayed PoolRegistry.getPool
    dsimp only
    rw [lookup_replay]
    simp

/-! ## What a run without a panic says -/

theorem speculate_isSome {l : Log} {s : EventProcessor.Speculation π} {a : Address}
    (h : (speculated r s a).isSome) : (speculated r (proc.speculate clock r l s).1 a).isSome := by
  have hins (p : π) (sent : List Log) :
      (speculated r ⟨s.modifiedPools.insert l.address p, sent⟩ a).isSome := by
    unfold speculated at h ⊢
    dsimp only
    rw [Ranges.lookup_insert]
    split
    · rfl
    · exact h
  unfold EventProcessor.speculate
  split
  · exact h
  · dsimp only
    split
    · exact hins _ _
    · split
      · exact hins _ _
      · split <;> exact hins _ _

/-- A pending event of a known pool that did not panic could be sent. -/
theorem sendable_of_speculate {l : Log} {s : EventProcessor.Speculation π} (h : (speculated r s l.address).isSome)
    (ho : (proc.speculate clock r l s).2 = .ok ()) : Sendable proc l := by
  obtain ⟨p, hp⟩ := Option.isSome_iff_exists.1 h
  unfold speculated at hp
  unfold EventProcessor.speculate at ho
  rw [hp] at ho
  dsimp only at ho
  cases hw : (applyOrWarn clock l p).2 with
  | error e =>
    rw [hw] at ho
    cases ho
  | ok u =>
    rw [hw] at ho
    dsimp only at ho
    unfold EventProcessor.isProfitable at ho
    cases ht : l.topic0 with
    | none =>
      rw [ht] at ho
      cases ho
    | some t =>
      refine ⟨t, ht, fun hm => ?_⟩
      rw [ht] at ho
      simp only [hm, decide_true, if_true] at ho
      unfold EventProcessor.sendSwapEvent at ho
      by_contra hno
      rw [if_neg hno] at ho
      cases ho

theorem sendable_of_clean {ls : List Log} {s : EventProcessor.Speculation π}
    (h : Clean (proc.speculate clock r) ls s) : ∀ l ∈ ls, (speculated r s l.address).isSome → Sendable proc l := by
  induction ls generalizing s with
  | nil => simp
  | cons l ls ih =>
    intro l' hl' hs
    rcases List.mem_cons.1 hl' with rfl | hl'
    · exact sendable_of_speculate hs h.1
    · exact ih h.2 l' hl' (speculate_isSome hs)

/-- **All event-application paths agree**: on every registry and every list of logs, one at a time, pool
by pool in any order of the pools, and with swap events sent, the paths run through and leave the same
registry, and with a receiver the pending path leaves the registry and builds the same pools as
clones, exactly when the list is `Reportable`. -/
theorem event_paths_agree (proc : EventProcessor) (clock : Log → Nat) (events : List Log) (r : PoolRegistry π) :
    (∃ r' sent, catchupEvents clock events r = (r', .ok ()) ∧
      (∀ order : List Address, order.Nodup → (∀ a, a ∈ order ↔ a ∈ events.map (·.address)) →
        applyEventsToRegistry clock order events r = (r', .ok ())) ∧
      proc.processConfirmedEvents clock events r = ((r', sent), .ok ()) ∧
      (proc.swapEventTx → ∃ s, proc.processPendingEvents clock events r = (s, .ok ()) ∧
        ∀ a, s.modifiedPools[a]? = if a ∈ events.map (·.address) then r'.getPool a else none)) ↔
    Reportable clock proc events r := by
  constructor
  · rintro ⟨r', sent, -, hgroups, -, hpending⟩
    have hn := nodup_eraseDups (events.map (·.address))
    have ho : ∀ a, a ∈ (events.map (·.address)).eraseDups ↔ a ∈ events.map (·.address) :=
      fun a => List.mem_eraseDups
    have hloop := congrArg Prod.snd (hgroups _ hn ho)
    refine ⟨(clean_applyEventsToRegistry hn ho).1 ((loop_ok_iff ..).1 hloop), fun hx l hl hr => ?_⟩
    obtain ⟨s, hs, -⟩ := hpending hx
    unfold EventProcessor.processPendingEvents at hs
    rw [if_pos hx] at hs
    have hc := (loop_ok_iff ..).1 (congrArg Prod.snd hs)
    exact sendable_of_clean hc l hl (by simpa [speculated] using hr)
  · intro h
    obtain ⟨sent, hsent⟩ := processConfirmedEvents_eq h
    exact ⟨_, sent, catchupEvents_eq h, fun order hn ho => applyEventsToRegistry_eq hn ho h, hsent,
      processPendingEvents_eq h⟩

/-- A pending block's swap log carries no transaction hash yet: with a receiver the pending path panics
on it. -/
theorem event_paths_agree_fails :
    ¬ ∀ (proc : EventProcessor) (clock : Log → Nat) (events : List Log) (r : PoolRegistry Pool),
      proc.swapEventTx → ∃ s, proc.processPendingEvents clock events r = (s, .ok ()) := by
  intro h
  obtain ⟨s, hs⟩ := h ⟨true, V2.UniswapV2Pool.profitableTopics⟩ (fun _ => 0)
    [⟨1, .event (.v2 .swap), none, none, none, none, none, false⟩] (PoolRegistry.empty.addPool (.v2 (.emptyPair 1))) rfl
  have hok := congrArg (fun out => out.2.toOption) hs
  change _ = some () at hok
  revert hok
  decide +kernel

end EvmDexPool
