import EvmDexPool.Collector.Bootstrap
import EvmDexPool.Collector.Updater

/-!
# What a call that panics has given

A panic in `apply_log` ends the call that made it, and the task. The pools keep what they have been given
until then: some of their own logs, in their order (`GivesSome`).
-/

namespace EvmDexPool

open Replay

/-- Each pool has been given some of its own logs of the list, in its order; the cursor is as it was. -/
structure PoolRegistry.GivesSome {π : Type} [PoolInterface π] (r : PoolRegistry (Traced π)) (events : List Log)
    (r' : PoolRegistry (Traced π)) : Prop where
  ledger : ∀ a e, r.ledger a = some e →
    ∃ new, r'.ledger a = some (e.1, e.2 ++ new) ∧ new.Sublist ((events.filter (·.ownedBy a e.1)).map Log.untimed)
  other : ∀ a, r.ledger a = none → r'.ledger a = none
  cursor : r'.lastProcessedBlock = r.lastProcessedBlock

section
variable {π : Type} [PoolInterface π] {clock : Log → Nat} {r r' r'' : PoolRegistry (Traced π)} {events : List Log}

namespace PoolRegistry

theorem GivesSome.refl (r : PoolRegistry (Traced π)) (events : List Log) : r.GivesSome events r :=
  ⟨fun a e he => ⟨[], by rw [List.append_nil]; exact he, List.nil_sublist _⟩, fun _ h => h, rfl⟩

theorem GivesSome.mono (h : r.GivesSome events r') {more : List Log} (hsub : events.Sublist more) : r.GivesSome more r' :=
  ⟨fun a e he => (h.ledger a e he).imp fun _ hnew => ⟨hnew.1, hnew.2.trans ((hsub.filter _).map _)⟩, h.other, h.cursor⟩

theorem GivesSome.trans {more : List Log} (h : r.GivesSome events r') (h' : r'.GivesSome more r'') :
    r.GivesSome (events ++ more) r'' := by
  refine ⟨fun a e he => ?_, fun a ha => h'.other a (h.other a ha), h'.cursor.trans h.cursor⟩
  obtain ⟨new, hnew, hsub⟩ := h.ledger a e he
  obtain ⟨new', hnew', hsub'⟩ := h'.ledger a _ hnew
  refine ⟨new ++ new', by rw [hnew', List.append_assoc], ?_⟩
  rw [List.filter_append, List.map_append]
  exact hsub.append hsub'

theorem Gives.givesSome (h : r.Gives events r') (hc : r'.lastProcessedBlock = r.lastProcessedBlock) :
    r.GivesSome events r' :=
  ⟨fun a e he => ⟨_, by rw [h.ledger, he]; rfl, List.Sublist.refl _⟩, fun a ha => by rw [h.ledger, ha]; rfl, hc⟩

theorem GivesSome.of_enriched {times : Nat → Option Nat} (h : r.GivesSome (r''.enrichIfLbPoolsPresent times events) r') :
    r.GivesSome events r' := by
  refine ⟨fun a e he => ?_, h.other, h.cursor⟩
  obtain ⟨new, hnew, hsub⟩ := h.ledger a e he
  rw [owned_enriched] at hsub
  exact ⟨new, hnew, hsub⟩

theorem givesSome_replayed (r : PoolRegistry (Traced π)) {xs : List Log} (hsub : xs.Sublist events) :
    r.GivesSome events (r.replayed clock xs) := ((gives_replayed clock r xs).givesSome rfl).mono hsub

/-- What is done to the one pool at `a`. -/
theorem givesSome_at (clock : Log → Nat) {a : Address} (hother : ∀ x, x ≠ a → r'.getPool x = r.getPool x)
    (hnone : r.getPool a = none → r'.getPool a = none)
    (hpool : ∀ p, r.getPool a = some p → ∃ xs : List Log, xs.Sublist (eventsOf events a) ∧
      r'.getPool a = some (xs.foldl (fun p l => stepLog clock l p) p))
    (hcursor : r'.lastProcessedBlock = r.lastProcessedBlock) : r.GivesSome (eventsOf events a) r' := by
  refine ⟨fun x e he => ?_, fun x hx => ?_, hcursor⟩
  · by_cases hxa : x = a
    · subst hxa
      obtain ⟨p, hp, rfl⟩ := Option.map_eq_some_iff.1 he
      obtain ⟨xs, hsub, hq⟩ := hpool p hp
      obtain ⟨htype, hgiven⟩ := Traced.foldl_stepLog clock xs p
      refine ⟨(xs.filter (PoolInterface.poolType p).concerns).map Log.untimed, ?_, ?_⟩
      · unfold ledger
        rw [hq, Option.map_some, htype, hgiven]
      · have hown : ∀ l ∈ xs, l.ownedBy x (PoolInterface.poolType p) = (PoolInterface.poolType p).concerns l := by
          intro l hl
          have ha : l.address = x := of_decide_eq_true (List.mem_filter.1 (hsub.subset hl)).2
          unfold Log.ownedBy
          simp [ha]
        rw [← List.filter_congr hown]
        exact (hsub.filter _).map _
    · exact ⟨[], by rw [List.append_nil, ← he]; unfold ledger; rw [hother x hxa], List.nil_sublist _⟩
  · unfold ledger at hx ⊢
    by_cases hxa : x = a
    · subst hxa
      rw [hnone (Option.map_eq_none_iff.1 hx)]
      rfl
    · rw [hother x hxa]
      exact hx

end PoolRegistry

/-- A loop over one pool's events has given it the first of them. -/
theorem loop_foldl {σ : Type} (pool : σ → Traced π) {step : Log → σ → σ × Except Fault Unit}
    (hstep : ∀ l s, pool (step l s).1 = stepLog clock l (pool s)) (ls : List Log) (s : σ) :
    ∃ xs : List Log, xs.Sublist ls ∧ pool (loop step ls s).1 = xs.foldl (fun p l => stepLog clock l p) (pool s) := by
  induction ls generalizing s with
  | nil => exact ⟨[], List.Sublist.refl _, rfl⟩
  | cons l ls ih =>
    have hl := hstep l s
    unfold loop
    rcases hout : step l s with ⟨s1, e | u⟩
    · rw [hout] at hl
      exact ⟨[l], (List.nil_sublist _).cons_cons l, hl⟩
    · rw [hout] at hl
      obtain ⟨xs, hsub, hxs⟩ := ih s1
      refine ⟨l :: xs, hsub.cons_cons l, hxs.trans ?_⟩
      rw [List.foldl_cons, ← hl]

/-- A loop over the pools has given each of them some of its own events. -/
theorem loop_givesSome {σ : Type} (registry : σ → PoolRegistry (Traced π)) {step : Address → σ → σ × Except Fault Unit}
    (hstep : ∀ a s, (registry s).GivesSome (eventsOf events a) (registry (step a s).1)) (order : List Address) (s : σ) :
    (registry s).GivesSome (order.flatMap (eventsOf events)) (registry (loop step order s).1) := by
  induction order generalizing s with
  | nil => exact .refl _ _
  | cons a order ih =>
    have ha := hstep a s
    rw [List.flatMap_cons]
    unfold loop
    rcases hout : step a s with ⟨s1, e | u⟩
    · rw [hout] at ha
      exact ha.mono (List.sublist_append_left _ _)
    · rw [hout] at ha
      exact ha.trans (ih s1)

/-- Address by address, each once, there are no more events than there were. -/
theorem flatMap_eventsOf_sublist {order : List Address} (hn : order.Nodup) (events : List Log) (a : Address) (t : PoolType) :
    ((order.flatMap (eventsOf events)).filter (·.ownedBy a t)).Sublist (events.filter (·.ownedBy a t)) := by
  have hone : ∀ x, (eventsOf events x).filter (·.ownedBy a t) = if x = a then events.filter (·.ownedBy a t) else [] := by
    intro x
    unfold eventsOf
    rw [List.filter_filter]
    by_cases hx : x = a
    · rw [if_pos hx]
      refine List.filter_congr fun l _ => ?_
      unfold Log.ownedBy
      by_cases hl : l.address = a <;> simp [hl, hx]
    · rw [if_neg hx, List.filter_eq_nil_iff]
      intro l _ hl
      unfold Log.ownedBy at hl
      simp only [Bool.and_eq_true, decide_eq_true_eq] at hl
      exact hx (hl.2.symm.trans hl.1.1)
  induction order with
  | nil => exact List.nil_sublist _
  | cons x order ih =>
    obtain ⟨hx, hn⟩ := List.nodup_cons.1 hn
    rw [List.flatMap_cons, List.filter_append, hone]
    by_cases hxa : x = a
    · have hrest : (order.flatMap (eventsOf events)).filter (·.ownedBy a t) = [] := by
        rw [List.filter_eq_nil_iff]
        intro l hl ho
        obtain ⟨y, hy, hly⟩ := List.mem_flatMap.1 hl
        have haddr : l.address = y := of_decide_eq_true (List.mem_filter.1 hly).2
        have hown : l.address = a := (of_decide_eq_true ho).1
        exact hx (hxa.trans (hown.symm.trans haddr) ▸ hy)
      rw [if_pos hxa, hrest, List.append_nil]
    · rw [if_neg hxa, List.nil_append]
      exact ih hn

theorem PoolRegistry.GivesSome.of_order {order : List Address} (hn : order.Nodup)
    (h : r.GivesSome (order.flatMap (eventsOf events)) r') : r.GivesSome events r' :=
  ⟨fun a e he => (h.ledger a e he).imp fun _ hnew => ⟨hnew.1, hnew.2.trans ((flatMap_eventsOf_sublist hn events a e.1).map _)⟩,
    h.other, h.cursor⟩

/-! ### The paths -/

theorem catchupEvents_givesSome (clock : Log → Nat) (events : List Log) (r : PoolRegistry (Traced π)) :
    r.GivesSome events (catchupEvents clock events r).1 := by
  unfold catchupEvents
  induction events generalizing r with
  | nil => exact .refl _ _
  | cons l ls ih =>
    have hstep : (onPool (applyOrWarn clock l) l.address r).1 = r.replayed clock [l] := onPool_replayed clock l r
    unfold loop
    rcases hout : onPool (applyOrWarn clock l) l.address r with ⟨r1, e | u⟩
    · rw [hout] at hstep
      cases hstep
      exact PoolRegistry.givesSome_replayed r ((List.nil_sublist _).cons_cons l)
    · rw [hout] at hstep
      cases hstep
      exact (PoolRegistry.givesSome_replayed r (List.Sublist.refl [l])).trans (ih _)

theorem applyEventsToRegistry_givesSome (clock : Log → Nat) {order : List Address} (hn : order.Nodup) (events : List Log)
    (r : PoolRegistry (Traced π)) : r.GivesSome events (applyEventsToRegistry clock order events r).1 := by
  refine PoolRegistry.GivesSome.of_order hn (loop_givesSome id (fun a r => ?_) order r)
  refine PoolRegistry.givesSome_at clock (fun x hx => ?_) (fun hnone => ?_) (fun p hp => ?_) ?_
  · rw [id, onPool_getPool, if_neg hx]
    rfl
  · rw [id, onPool_getPool, if_pos rfl]
    exact Option.map_eq_none_iff.2 hnone
  · obtain ⟨xs, hsub, hxs⟩ := loop_foldl id (fun l p => applyOrReport_fst l p) (eventsOf events a) p
    refine ⟨xs, hsub, ?_⟩
    rw [id, onPool_getPool, if_pos rfl]
    exact (congrArg (Option.map _) hp).trans (congrArg some hxs)
  · rw [id, onPool_fst]
    rfl

theorem confirmEvent_fst (proc : EventProcessor) (l : Log) (s : Traced π × List Log) :
    (proc.confirmEvent clock l s).1.1 = stepLog clock l s.1 := by
  rw [← applyOrReport_fst]
  unfold EventProcessor.confirmEvent
  rcases applyOrReport clock l s.1 with ⟨p, e | u⟩
  · rfl
  · dsimp only
    split
    · split <;> rfl
    · rfl

theorem processConfirmedEvents_givesSome (proc : EventProcessor) (clock : Log → Nat) (events : List Log)
    (r : PoolRegistry (Traced π)) : r.GivesSome events (proc.processConfirmedEvents clock events r).1.1 := by
  have hloop : r.GivesSome events
      (loop (proc.confirmPool clock events) (events.map (·.address)).eraseDups (r, [])).1.1 := by
    refine PoolRegistry.GivesSome.of_order (nodup_eraseDups _)
      (loop_givesSome (fun s : PoolRegistry (Traced π) × List Log => s.1) (fun a s => ?_) _ (r, []))
    unfold EventProcessor.confirmPool
    cases hp : s.1.getPool a with
    | none => exact .refl _ _
    | some p =>
      obtain ⟨xs, hsub, hxs⟩ := loop_foldl (fun s : Traced π × List Log => s.1) (confirmEvent_fst proc)
        (eventsOf events a) (p, s.2)
      have hget : ∀ (q : Traced π) x, PoolRegistry.getPool { s.1 with byAddress := s.1.byAddress.insert a q } x =
          if x = a then some q else s.1.getPool x := fun q x => Ranges.lookup_insert ..
      refine PoolRegistry.givesSome_at clock (fun x hx => ?_) (fun hnone => ?_) (fun q hq => ⟨xs, hsub, ?_⟩) rfl
      · dsimp only
        rw [hget, if_neg hx]
      · rw [hp] at hnone
        cases hnone
      · cases hp.symm.trans hq
        dsimp only
        rw [hget, if_pos rfl]
        exact congrArg some hxs
  unfold EventProcessor.processConfirmedEvents
  split
  · next hs =>
    rw [hs] at hloop
    exact hloop
  · next hs =>
    rw [hs] at hloop
    split
    · exact hloop
    · exact hloop

theorem process_givesSome (proc : EventProcessor) (env : Env) (b : EventBatch) (r : PoolRegistry (Traced π)) {e : Fault}
    (h : UnifiedPoolUpdater.process proc env b r = (r', .error e)) : r.GivesSome b.events r' := by
  unfold UnifiedPoolUpdater.process at h
  dsimp only at h
  split at h
  · cases h
    cases b.processingMode with
    | ApplyOnly => exact applyEventsToRegistry_givesSome env.clock (env.order_nodup _) b.events r
    | ConfirmedWithSwaps => exact processConfirmedEvents_givesSome proc env.clock b.events r
    | Pending => exact .refl _ _
  · cases h

end

/-! ### The catch-up -/

namespace WebsocketBlockSource
variable {π : Type} [PoolInterface π] {src : WebsocketBlockSource} {c : Chain} {r : PoolRegistry (Traced π)}

/-- However it ends, a batch has given what is before the floor, as far as it came. -/
theorem catchUpBatch_givesSome (src : WebsocketBlockSource) (clock : Log → Nat) {ls : List Log}
    (hm : ∀ l ∈ ls, l.position = some l.place) (r : PoolRegistry (Traced π)) :
    r.GivesSome (ls.filter fun l => l.place < src.fillFloor) (src.catchUpBatch clock ls r).1 := by
  induction ls generalizing r with
  | nil => exact .refl _ _
  | cons l ls ih =>
    have ih := fun r => ih (fun x hx => hm x (List.mem_cons_of_mem _ hx)) r
    have hstep := onPool_replayed clock l r
    rw [catchUpBatch, hm l List.mem_cons_self]
    dsimp only
    split
    · exact .refl _ _
    · next hf =>
      rw [List.filter_cons_of_pos (by simpa using hf)]
      rcases hout : onPool (applyOrWarn clock l) l.address r with ⟨r1, e | u⟩
      · rw [hout] at hstep
        cases hstep
        exact PoolRegistry.givesSome_replayed r ((List.nil_sublist _).cons_cons l)
      · rw [hout] at hstep
        cases hstep
        exact (PoolRegistry.givesSome_replayed r (List.Sublist.refl [l])).trans (ih _)

theorem catchUpBatches_givesSome (src : WebsocketBlockSource) (c : Chain) (env : Env) (batches : List (Nat × Nat))
    (r : PoolRegistry (Traced π)) :
    r.GivesSome ((c.getBatches r.getAllAddresses src.topics batches).filter fun l => l.place < src.fillFloor)
      (src.catchUpBatches c env batches r).1 := by
  induction batches generalizing r with
  | nil => exact .refl _ _
  | cons b rest ih =>
    have hcons : c.getBatches r.getAllAddresses src.topics (b :: rest) =
        c.getLogs r.getAllAddresses src.topics b.1 b.2 ++ c.getBatches r.getAllAddresses src.topics rest := List.flatMap_cons ..
    have hmined : ∀ l ∈ c.getLogs r.getAllAddresses src.topics b.1 b.2, l.position = some l.place :=
      fun l hl => (c.mined l (List.mem_filter.1 hl).1).position
    rw [hcons, List.filter_append]
    unfold catchUpBatches
    dsimp only
    generalize c.getLogs r.getAllAddresses src.topics b.1 b.2 = ls at hmined ⊢
    have hbatch : r.GivesSome (ls.filter fun l => l.place < src.fillFloor)
        (src.catchUpBatch env.clock (r.enrichIfLbPoolsPresent env.times ls) r).1 := by
      have hcomp : ((fun l : Log => decide (l.place < src.fillFloor)) ∘ fun l : Log =>
          l.fillBlockTimestamp (fun l => l.address ∈ r.getAddressesByType .TraderJoeLB) env.times) =
          fun l : Log => decide (l.place < src.fillFloor) := by
        funext l
        simp
      have hfilled : ∀ l ∈ r.enrichIfLbPoolsPresent env.times ls, l.position = some l.place := by
        intro l hl
        obtain ⟨x, hx, rfl⟩ := List.mem_map.1 hl
        simpa using hmined x hx
      have hsome := catchUpBatch_givesSome src env.clock hfilled r
      refine PoolRegistry.GivesSome.of_enriched (?_ : r.GivesSome (r.enrichIfLbPoolsPresent env.times _) _)
      unfold PoolRegistry.enrichIfLbPoolsPresent at hsome ⊢
      rwa [List.filter_map, hcomp] at hsome
    split
    · next h1 =>
      rw [h1] at hbatch
      exact hbatch.mono (List.sublist_append_left _ _)
    · next h1 =>
      rw [h1] at hbatch
      obtain ⟨xs, rfl⟩ := catchUpBatch_replayed h1
      have hrest := ih (r.replayed env.clock xs)
      rw [PoolRegistry.getAllAddresses_replayed] at hrest
      exact hbatch.trans hrest
    · next h1 =>
      rw [h1] at hbatch
      exact hbatch.mono (List.sublist_append_left _ _)

theorem catchUp_givesSome (env : Env) (r : PoolRegistry (Traced π)) (hf : src.fillFloor.block < 2 ^ 64) :
    r.GivesSome ((c.relevant r.getAllAddresses src.topics).filter fun l =>
      r.lastProcessedBlock < l.block ∧ l.place < src.fillFloor) (src.catchUp c env r).1 := by
  have hsome := catchUpBatches_givesSome src c env
    (catchupBatches r.lastProcessedBlock src.maxBlocksPerBatch src.fillFloor.block) r
  rwa [c.getBatches_catchupBatches hf, filter_getLogs_floor] at hsome

theorem applyBuffered_givesSome {env : Env} {events : List Log} {r r' : PoolRegistry (Traced π)} {e : Fault}
    (h : src.applyBuffered env events r = (r', .error e)) : r.GivesSome events r' := by
  have hsome := catchupEvents_givesSome env.clock (r.enrichIfLbPoolsPresent env.times events) r
  unfold applyBuffered at h
  split at h
  · cases h
  · next h1 =>
    cases h
    rw [h1] at hsome
    exact hsome.of_enriched

end WebsocketBlockSource

end EvmDexPool
