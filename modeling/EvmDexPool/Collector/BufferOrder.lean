import EvmDexPool.Collector.Bootstrap
import EvmDexPool.Collector.PoolFetcher

/-!
# The order bootstrap applies the queue in (`collector/block_source.rs:859-912`)

The buffered logs are put in order of position only when a gap was filled. Otherwise each pool gets its
logs as they arrived, and with several listeners on one queue that need not be chain order.
-/

namespace EvmDexPool

open Replay

/-- The logs do not go back in position. -/
def InOrder (ls : List Log) : Prop := ls.Pairwise fun a b => a.sortKey ≤ b.sortKey

namespace WebsocketBlockSource

section
variable {π : Type} [PoolInterface π] (src : WebsocketBlockSource) (c : Chain)

/-- The registry that the catch-up and then the buffered logs in order of position lead to. -/
def bootstrapInOrder (env : Env) (latest : Nat) (drained : List Log) (queue : EventQueue) (r : PoolRegistry π) :
    PoolRegistry π :=
  let src := { src with fillFloor := firstQueuedPosition latest drained }
  let r := (src.catchUp c env r).1
  let events := (src.buffered c r.getAllAddresses drained queue).2.1
  (r.replayed env.clock (r.enrichIfLbPoolsPresent env.times (byPosition events))).setLastProcessedBlock
    (src.bootstrapBlock events)

end

/-! ## Sorting, pool by pool -/

/-- A pool's logs that are in order stay as they are when all are sorted. -/
theorem eventsOf_byPosition {ls : List Log} {a : Address} (h : InOrder (eventsOf ls a)) :
    eventsOf (byPosition ls) a = eventsOf ls a := by
  have hsub : (eventsOf ls a).Sublist (byPosition ls) := List.sublist_insertionSort h List.filter_sublist
  have hown := hsub.filter fun l : Log => l.address = a
  have hself : (eventsOf ls a).filter (fun l => l.address = a) = eventsOf ls a := by
    unfold eventsOf
    rw [List.filter_filter]
    simp
  rw [hself] at hown
  refine (hown.eq_of_length ?_).symm
  exact ((List.perm_insertionSort ..).filter fun l : Log => decide (l.address = a)).length_eq.symm

theorem inOrder_eventsOf_byPosition (ls : List Log) (a : Address) : InOrder (eventsOf (byPosition ls) a) :=
  (List.pairwise_insertionSort ..).sublist List.filter_sublist

end WebsocketBlockSource

section
variable {π : Type} [PoolInterface π]

theorem eventsOf_enriched (r : PoolRegistry π) (times : Nat → Option Nat) (ls : List Log) (a : Address) :
    eventsOf (r.enrichIfLbPoolsPresent times ls) a = (eventsOf ls a).map fun l =>
      l.fillBlockTimestamp (fun l => l.address ∈ r.getAddressesByType .TraderJoeLB) times := by
  unfold PoolRegistry.enrichIfLbPoolsPresent eventsOf
  rw [List.filter_map]
  refine congrArg _ (List.filter_congr fun l _ => ?_)
  simp

/-- Block times do not matter for the order. -/
theorem inOrder_map {wanted : Log → Bool} {times : Nat → Option Nat} {ls : List Log} :
    InOrder (ls.map (·.fillBlockTimestamp wanted times)) ↔ InOrder ls := by
  unfold InOrder Log.sortKey
  rw [List.pairwise_map]
  simp only [Log.position_fillBlockTimestamp]

/-- A replay is told by each pool's logs. -/
theorem PoolRegistry.replayed_congr {clock : Log → Nat} {r : PoolRegistry π} {xs ys : List Log}
    (h : ∀ a ∈ r.getAllAddresses, eventsOf xs a = eventsOf ys a) : r.replayed clock xs = r.replayed clock ys := by
  have hmap : replay (·.address) (stepLog clock) r.byAddress xs = replay (·.address) (stepLog clock) r.byAddress ys := by
    refine Std.ExtTreeMap.ext_getElem? fun a => ?_
    rw [lookup_replay, lookup_replay]
    cases hp : r.byAddress[a]? with
    | none => rfl
    | some p =>
      have ha : a ∈ r.getAllAddresses := mem_of_getPool hp
      exact congrArg (fun ls => some (ls.foldl (fun p l => stepLog clock l p) p)) (h a ha)
  unfold replayed
  rw [hmap]

end

/-! ## Pools that record their logs -/

/-- A pool that records the logs it is given. -/
structure Recorder where
  address : Address
  seen : List Log

instance : PoolInterface Recorder where
  address p := p.address
  poolType _ := .UniswapV2
  applyLog _ l p := ({ p with seen := p.seen ++ [l] }, .ok ())
  asV3 _ := none
  withV3 _ p := p
  poolType_applyLog _ _ _ := rfl

namespace Recorder

/-- Recorders at the addresses. -/
def registry (addresses : List Address) : PoolRegistry Recorder :=
  (addresses.map fun a => (⟨a, []⟩ : Recorder)).foldl PoolRegistry.addPool .empty

theorem seen_own (clock : Log → Nat) (ls : List Log) (a : Address) (p : Recorder) :
    (own (·.address) (stepLog clock) ls a p).seen = p.seen ++ eventsOf ls a := by
  unfold own eventsOf
  induction ls.filter (fun l => l.address = a) generalizing p with
  | nil => simp
  | cons l ls ih =>
    rw [List.foldl_cons, ih]
    change (p.seen ++ [l]) ++ ls = _
    rw [List.append_assoc, List.singleton_append]

theorem onPool_ok (clock : Log → Nat) (l : Log) (a : Address) (r : PoolRegistry Recorder) :
    (onPool (applyOrWarn clock l) a r).2 = .ok () := by
  unfold onPool
  cases r.getPool a with
  | none => rfl
  | some p => rfl

theorem catchupEvents_ok (clock : Log → Nat) (ls : List Log) (r : PoolRegistry Recorder) :
    (catchupEvents clock ls r).2 = .ok () := by
  refine (loop_ok_iff ..).2 ?_
  induction ls generalizing r with
  | nil => trivial
  | cons l ls ih => exact ⟨onPool_ok .., ih _⟩

variable (src : WebsocketBlockSource) (c : Chain) (env : Env)

theorem catchUpBatch_ok (ls : List Log) (r : PoolRegistry Recorder) :
    ∃ reached, (src.catchUpBatch env.clock ls r).2 = .ok reached := by
  induction ls generalizing r with
  | nil => exact ⟨false, rfl⟩
  | cons l ls ih =>
    unfold WebsocketBlockSource.catchUpBatch
    cases l.position with
    | none => exact ih r
    | some p =>
      dsimp only
      split
      · exact ⟨true, rfl⟩
      · rcases h : onPool (applyOrWarn env.clock l) l.address r with ⟨r1, out⟩
        have hok : out = .ok () := by
          have := onPool_ok env.clock l l.address r
          rwa [h] at this
        subst hok
        exact ih r1

theorem catchUpBatches_ok (batches : List (Nat × Nat)) (r : PoolRegistry Recorder) :
    (src.catchUpBatches c env batches r).2 = .ok () := by
  induction batches generalizing r with
  | nil => rfl
  | cons b rest ih =>
    unfold WebsocketBlockSource.catchUpBatches
    dsimp only
    split
    · rfl
    · exact ih _
    · next h =>
      obtain ⟨reached, hok⟩ := catchUpBatch_ok src env
        (r.enrichIfLbPoolsPresent env.times (c.getLogs r.getAllAddresses src.topics b.1 b.2)) r
      rw [h] at hok
      cases hok

theorem getPool_registry {addresses : List Address} {a : Address} (h : a ∈ addresses) :
    (registry addresses).getPool a = some ⟨a, []⟩ := by
  unfold registry
  rw [PoolRegistry.foldl_addPool_getPool]
  cases hl : ((addresses.map fun a => (⟨a, []⟩ : Recorder)).filter fun p => PoolInterface.address p = a).getLast? with
  | none =>
    rw [List.getLast?_eq_none_iff, List.filter_eq_nil_iff] at hl
    exact absurd (decide_eq_true rfl) (hl ⟨a, []⟩ (List.mem_map_of_mem h))
  | some p =>
    obtain ⟨hm, ha⟩ := List.mem_filter.1 (List.mem_of_getLast? hl)
    obtain ⟨b, -, rfl⟩ := List.mem_map.1 hm
    have hb : b = a := of_decide_eq_true ha
    rw [hb]
    rfl

theorem mem_registry (addresses : List Address) (a : Address) :
    a ∈ (registry addresses).getAllAddresses ↔ a ∈ addresses := by
  rw [PoolRegistry.mem_getAllAddresses]
  by_cases h : a ∈ addresses
  · rw [getPool_registry h]
    exact iff_of_true rfl h
  · refine iff_of_false (fun hs => ?_) h
    unfold registry at hs
    rw [PoolRegistry.foldl_addPool_getPool] at hs
    cases hl : ((addresses.map fun a => (⟨a, []⟩ : Recorder)).filter fun p => PoolInterface.address p = a).getLast? with
    | none =>
      rw [hl] at hs
      simp [PoolRegistry.getPool, PoolRegistry.empty] at hs
    | some p =>
      obtain ⟨hm, ha⟩ := List.mem_filter.1 (List.mem_of_getLast? hl)
      obtain ⟨b, hb, rfl⟩ := List.mem_map.1 hm
      exact h ((of_decide_eq_true ha : b = a) ▸ hb)

/-- Bootstrap runs through on recorders. -/
theorem bootstrap_ok (latest : Nat) (drained : List Log) (queue : EventQueue) (r : PoolRegistry Recorder) :
    (src.bootstrap c env latest drained queue r).2 = .ok () := by
  unfold WebsocketBlockSource.bootstrap
  dsimp only
  split
  · next h =>
    have hok := catchUpBatches_ok { src with fillFloor := WebsocketBlockSource.firstQueuedPosition latest drained } c env
      (catchupBatches r.lastProcessedBlock src.maxBlocksPerBatch
        (WebsocketBlockSource.firstQueuedPosition latest drained).block) r
    unfold WebsocketBlockSource.catchUp at h
    rw [h] at hok
    cases hok
  · next r1 h =>
    split
    · next h2 =>
      unfold WebsocketBlockSource.applyBuffered at h2
      split at h2
      · cases h2
      · next h3 =>
        have hok := congrArg Prod.snd h3
        rw [catchupEvents_ok] at hok
        cases hok
    · rfl

end Recorder

/-! ## Chain order -/

namespace WebsocketBlockSource
variable (src : WebsocketBlockSource) (c : Chain)

/-- **Bootstrap applies the buffered logs in chain order**, to whatever pools at these addresses, exactly
when it fills a gap or every pool's queued logs have arrived in order. -/
theorem bootstrap_in_order (latest : Nat) (drained : List Log) (queue : EventQueue) (addresses : List Address) :
    (∀ (π : Type) [PoolInterface π] (env : Env) (r r' : PoolRegistry π) (src' : WebsocketBlockSource) (queue' : EventQueue),
      (∀ a, a ∈ r.getAllAddresses ↔ a ∈ addresses) →
      src.bootstrap c env latest drained queue r = ((src', queue', r'), .ok ()) →
      r' = src.bootstrapInOrder c env latest drained queue r) ↔
    src.Fills drained queue ∨ ∀ a ∈ addresses, InOrder (eventsOf drained a) := by
  constructor
  · intro h
    by_cases hf : src.Fills drained queue
    · exact .inl hf
    refine .inr fun a ha => ?_
    have hok := Recorder.bootstrap_ok src c stillEnv latest drained queue (Recorder.registry addresses)
    rcases hb : src.bootstrap c stillEnv latest drained queue (Recorder.registry addresses) with ⟨⟨src', queue', r'⟩, out⟩
    rw [hb] at hok
    cases hok
    have hsame := h Recorder stillEnv _ r' src' queue' (Recorder.mem_registry addresses) hb
    obtain ⟨r1, h1, hr', -⟩ := bootstrap_ok hb
    unfold bootstrapInOrder at hsame
    dsimp only at hr' hsame
    rw [h1] at hsame
    dsimp only at hsame
    rw [(buffered_filled { src with fillFloor := firstQueuedPosition latest drained } c
      r1.getAllAddresses drained queue).2 hf] at hr' hsame
    obtain ⟨xs, hxs⟩ := catchUpBatches_replayed h1
    -- what the recorder at `a` has seen of the drained logs is in order
    have hseen : ∀ ls, ((r1.replayed stillEnv.clock ls).getPool a).map Recorder.seen =
        some (eventsOf xs a ++ eventsOf ls a) := by
      intro ls
      rw [hxs, ← PoolRegistry.replayed_append]
      unfold PoolRegistry.replayed PoolRegistry.getPool
      dsimp only
      rw [lookup_replay]
      change ((((Recorder.registry addresses).getPool a).map _).map _) = _
      rw [Recorder.getPool_registry ha, Option.map_some, Option.map_some, Recorder.seen_own]
      unfold eventsOf
      rw [List.filter_append]
      rfl
    have heq := congrArg (fun r => (r.getPool a).map Recorder.seen) (hr'.symm.trans hsame)
    change ((r1.replayed _ _).getPool a).map _ = ((r1.replayed _ _).getPool a).map _ at heq
    rw [hseen, hseen, Option.some.injEq, List.append_cancel_left_eq, eventsOf_enriched, eventsOf_enriched] at heq
    have hsorted := inOrder_eventsOf_byPosition drained a
    rw [← inOrder_map, ← heq, inOrder_map] at hsorted
    exact hsorted
  · rintro hcond π inst env r r' src' queue' haddr hb
    obtain ⟨r1, h1, hr', -⟩ := bootstrap_ok hb
    unfold bootstrapInOrder
    dsimp only at hr' ⊢
    rw [h1]
    dsimp only
    rw [hr']
    have hfilled := buffered_filled { src with fillFloor := firstQueuedPosition latest drained } c
      r1.getAllAddresses drained queue
    by_cases hf : src.Fills drained queue
    · rw [if_pos (hfilled.1.2 hf)]
    · rw [hfilled.2 hf]
      have horder := hcond.resolve_left hf
      have hreplay : r1.replayed env.clock (r1.enrichIfLbPoolsPresent env.times drained) =
          r1.replayed env.clock (r1.enrichIfLbPoolsPresent env.times (byPosition drained)) := by
        refine PoolRegistry.replayed_congr fun a ha => ?_
        obtain ⟨xs, hxs⟩ := catchUpBatches_replayed h1
        rw [hxs, PoolRegistry.getAllAddresses_replayed] at ha
        rw [eventsOf_enriched, eventsOf_enriched, eventsOf_byPosition (horder a ((haddr a).1 ha))]
      rw [if_neg Bool.false_ne_true, hreplay]

/-- A later sync of the same pair, to other reserves. -/
def laterSync : Log := { syncAt 100 1 with payload := .event (.v2 (.sync 9 11)) }

def unlikeSyncs : Chain where
  logs := [syncAt 100 0, laterSync]
  mined l hl := by
    rcases List.mem_cons.1 hl with rfl | hl
    · exact syncAt_mined (by decide) (by decide)
    · have hm : (syncAt 100 1).Mined := syncAt_mined (by decide) (by decide)
      rw [List.mem_singleton.1 hl]
      exact { hm with }
  sorted := by decide +kernel
  keys := by decide +kernel

/-- Two listeners on one queue: the block's second sync arrives first, and the pair is left with the
reserves of the first. -/
theorem bootstrap_in_order_fails :
    ¬ ∀ (src : WebsocketBlockSource) (c : Chain) (env : Env) (latest : Nat) (drained : List Log) (queue queue' : EventQueue)
      (src' : WebsocketBlockSource) (r r' : PoolRegistry Pool),
      src.bootstrap c env latest drained queue r = ((src', queue', r'), .ok ()) →
      r' = src.bootstrapInOrder c env latest drained queue r := by
  intro h
  have hpool := congrArg (fun r => r.getPool 1) (h (.new [.v2Sync] 10 20 false) unlikeSyncs stillEnv 99 [laterSync, syncAt 100 0]
    (.new 1000) _ _ ((PoolRegistry.empty.registerPoolsAndTopics [.v2 (.emptyPair 1)]).setLastProcessedBlock 99) _ rfl)
  revert hpool
  decide +kernel

end WebsocketBlockSource

end EvmDexPool
