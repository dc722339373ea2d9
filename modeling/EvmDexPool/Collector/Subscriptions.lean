import EvmDexPool.Collector.PoolFetcher

/-!
# Every registered pool's topics are subscribed

The log filters are built from `get_topics()`, so a pool whose type's topics are missing there never
sees its own events. `add_pools` registers the topics with the pools. `fetch_pools_into_registry`
registers them at its very end: a call that gives up on a pool has inserted the ones before it, and
leaves their topics out (`Stranded`). A later call does not mend it, since it passes over
pools that are there.
-/

namespace EvmDexPool

namespace PoolRegistry
variable {π : Type} [PoolInterface π]

/-- Every pool's topics are among the registered ones. -/
def Subscribed (r : PoolRegistry π) : Prop :=
  ∀ a p, r.getPool a = some p → ∀ t ∈ (PoolInterface.poolType p).topics, t ∈ r.topics

theorem subscribed_empty : (empty : PoolRegistry π).Subscribed := by
  intro a p h
  simp [getPool, empty] at h

/-- The calls that insert pools: a fetch into the registry, with what its reads answer, and the
registration at the end of `add_pools`. -/
inductive Call (π : Type) [PoolInterface π]
  | fetch (answers : FetchAnswers π) (poolAddresses : List Address) (block : Nat) (config : PoolFetchConfig)
  | register (pools : List π)

def call (r : PoolRegistry π) : Call π → PoolRegistry π
  | .fetch answers poolAddresses block config => (r.fetchPoolsIntoRegistry answers poolAddresses block config).1
  | .register pools => r.registerPoolsAndTopics pools

/-- The call fails after fetching, as the last pool of some address, one whose topics are not all
registered. -/
def Stranded (r : PoolRegistry π) : Call π → Prop
  | .fetch answers poolAddresses _ config =>
    (r.fetchNew answers poolAddresses config).2 ≠ .ok () ∧
      ∃ a p, ((r.fetchNew answers poolAddresses config).1.filter fun p => PoolInterface.address p = a).getLast? =
        some p ∧ ∃ t ∈ (PoolInterface.poolType p).topics, t ∉ r.topics
  | .register _ => False

variable {r : PoolRegistry π}

/-- Inserting pools and registering their types' topics keeps every pool subscribed. -/
theorem Subscribed.register (h : r.Subscribed) (ps : List π) : (r.registerPoolsAndTopics ps).Subscribed := by
  intro a p hp t ht
  unfold registerPoolsAndTopics at *
  rw [mem_addTypes, foldl_addPool_topics]
  unfold getPool at hp
  rw [addTypes_byAddress] at hp
  change (ps.foldl addPool r).getPool a = some p at hp
  rw [foldl_addPool_getPool] at hp
  cases hl : (ps.filter fun p => PoolInterface.address p = a).getLast? with
  | none =>
    rw [hl] at hp
    exact .inl (h a p hp t ht)
  | some q =>
    rw [hl] at hp
    cases hp
    have hmem : p ∈ ps := (List.mem_filter.1 (List.mem_of_getLast? hl)).1
    exact .inr ⟨_, List.mem_map_of_mem hmem, ht⟩

/-- Inserting pools without their topics keeps every pool subscribed exactly when the topics of the
pools that end up at their addresses are there already. -/
theorem Subscribed.foldl_addPool_iff (h : r.Subscribed) (ps : List π) :
    (ps.foldl addPool r).Subscribed ↔
      ∀ a p, (ps.filter fun p => PoolInterface.address p = a).getLast? = some p →
        ∀ t ∈ (PoolInterface.poolType p).topics, t ∈ r.topics := by
  constructor
  · intro hs a p hp t ht
    have := hs a p (by rw [foldl_addPool_getPool, hp]; rfl) t ht
    rwa [foldl_addPool_topics] at this
  · intro hs a p hp t ht
    rw [foldl_addPool_topics]
    rw [foldl_addPool_getPool] at hp
    cases hl : (ps.filter fun p => PoolInterface.address p = a).getLast? with
    | none =>
      rw [hl] at hp
      exact h a p hp t ht
    | some q =>
      rw [hl] at hp
      cases hp
      exact hs a p hl t ht

/-- One call keeps every pool subscribed exactly when it strands none. -/
theorem Subscribed.call_iff (h : r.Subscribed) (c : Call π) : (r.call c).Subscribed ↔ ¬ r.Stranded c := by
  cases c with
  | register pools => exact iff_of_true (h.register pools) id
  | fetch answers poolAddresses block config =>
    unfold call Stranded
    dsimp only
    rcases hf : r.fetchNew answers poolAddresses config with ⟨ps, outcome⟩
    cases outcome with
    | ok u =>
      rw [fetchPoolsIntoRegistry_ok hf]
      exact iff_of_true (h.register ps) fun hs => hs.1 rfl
    | error e =>
      rw [fetchPoolsIntoRegistry_error hf, h.foldl_addPool_iff]
      simp

/-- The registry after the first `k` calls on a fresh one. -/
def after (calls : List (Call π)) (k : Nat) : PoolRegistry π := (calls.take k).foldl call empty

theorem after_succ {calls : List (Call π)} {k : Nat} {c : Call π} (h : calls[k]? = some c) :
    after calls (k + 1) = (after calls k).call c := by
  unfold after
  rw [List.take_add_one, h, List.foldl_append]
  rfl

/-- **Every registered pool's topics are subscribed**, between any two calls, exactly as long as no call
strands a pool. -/
theorem subscribed_between_calls (calls : List (Call π)) :
    (∀ k, (after calls k).Subscribed) ↔ ∀ k c, calls[k]? = some c → ¬ (after calls k).Stranded c := by
  constructor
  · intro h k c hc
    rw [← (h k).call_iff, ← after_succ hc]
    exact h (k + 1)
  · intro h k
    induction k with
    | zero => exact subscribed_empty
    | succ k ih =>
      cases hc : calls[k]? with
      | none =>
        have : after calls (k + 1) = after calls k := by
          unfold after
          rw [List.take_add_one, hc]
          simp
        rw [this]
        exact ih
      | some c =>
        rw [after_succ hc]
        exact (ih.call_iff c).2 (h k c hc)

/-- Reads that answer for the pair at address 1 and for no other. -/
def onlyFirst : FetchAnswers Pool where
  identify _ _ := .ok .UniswapV2
  fetch a t _ := if a = 1 ∧ t = .UniswapV2 then .ok (.v2 (.emptyPair 1)) else .error "no answer"
  fetched := by
    intro a t n p hp
    split at hp
    · next ha =>
      cases hp
      exact ⟨ha.1.symm, ha.2.symm⟩
    · cases hp

/-- Two pairs are fetched, the second fails for good: the first is in the registry and none of its
topics is. -/
theorem subscribed_between_calls_fails :
    ¬ ∀ (calls : List (Call Pool)) (k : Nat), (after calls k).Subscribed := by
  intro h
  have := h [.fetch onlyFirst [1, 2] 100 ⟨10, 0⟩] 1 1 (.v2 (.emptyPair 1)) (by decide +kernel) .v2Sync (by decide)
  revert this
  decide +kernel

end PoolRegistry

end EvmDexPool
