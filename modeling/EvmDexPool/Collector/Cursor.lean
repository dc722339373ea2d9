import EvmDexPool.Collector.History
import EvmDexPool.Collector.PoolFetcher
import EvmDexPool.Collector.Updater

/-!
# One cursor for all pools

`get_last_processed_block` is one number for the whole registry. A registry is `Coherent` when every
pool has been given exactly its own logs up to that block. Fetching pools at another block than the
registry stands at, starting an updater further on, and batches that were planned before the cursor or
the topics moved each keep that only where no pool has a log in between (`Sound`); nothing here makes
sure of it, while `add_pools` catches the registered pools up first.
-/

namespace EvmDexPool

open Std Replay

/-- The registry and the updater that runs on it. -/
structure Collector (π : Type) where
  registry : PoolRegistry π
  updater : Option UnifiedPoolUpdater

namespace Collector
variable {π : Type} [PoolInterface π]

def fresh : Collector π := ⟨.empty, none⟩

/-- A call of `fetch_pools_into_registry` with what its reads answer, a new updater, and a turn of the
running one with the header its poll reads. -/
inductive Step (π : Type) [PoolInterface π]
  | fetch (answers : FetchAnswers π) (poolAddresses : List Address) (block : Nat) (config : PoolFetchConfig)
  | start (swapEventTx : Bool) (startBlock maxBlocksPerBatch : Nat)
  | batch (env : Env) (latest : Nat)

def step (c : Chain) (s : Collector π) : Step π → Collector π
  | .fetch answers poolAddresses block config =>
    { s with registry := (s.registry.fetchPoolsIntoRegistry answers poolAddresses block config).1 }
  | .start swapEventTx startBlock maxBlocksPerBatch =>
    let out := UnifiedPoolUpdater.new s.registry swapEventTx startBlock maxBlocksPerBatch
    ⟨out.1, some out.2⟩
  | .batch env latest =>
    match s.updater with
    | some u =>
      let out := u.batch c env latest s.registry
      ⟨out.1, out.2⟩
    | none => s

end Collector

/-! ## Coherence -/

section
variable {π : Type} [PoolInterface π] (c : Chain)

/-- Every pool has been given exactly its own logs up to the cursor. -/
def PoolRegistry.Coherent (r : PoolRegistry (Traced π)) : Prop :=
  ∀ a p, r.getPool a = some p → p.given = c.ownThrough a (PoolInterface.poolType p) r.lastProcessedBlock

/-- A pool fetched at a block includes exactly its logs up to it. -/
def Collector.Step.Faithful : Step (Traced π) → Prop
  | .fetch answers _ block _ => ∀ a t n p, answers.fetch a t n = .ok p → p.given = c.ownThrough a t block
  | _ => True

/-- A query over `fromBlock..=toBlock` for `topics` returns the log. -/
def Fetched (topics : List Topic) (fromBlock toBlock : Nat) (l : Log) : Prop :=
  (fromBlock ≤ l.block ∧ l.block ≤ toBlock) ∧ (topics = [] ∨ ∃ x ∈ topics, l.topic0 = some x)

/-- Of a pool's logs up to `toBlock` a batch repeats none that the cursor covers and leaves out none that
it does not, and it does not set the cursor back behind a log. -/
def Chain.OnlyNext (c : Chain) (a : Address) (t : PoolType) (topics : List Topic) (cursor fromBlock toBlock : Nat) :
    Prop :=
  ∀ l ∈ c.logs, l.ownedBy a t →
    (l.block ≤ toBlock ↔ l.block ≤ cursor ∨ Fetched topics fromBlock toBlock l) ∧
      ¬ (l.block ≤ cursor ∧ Fetched topics fromBlock toBlock l)

/-- A fetch that succeeds crosses no log of a pool already there, one that fails leaves no pool beyond
or behind the cursor by a log, a new updater jumps over no log of a pool, and a batch can be reported
and takes each pool on by exactly its next logs. -/
def Collector.Sound (s : Collector (Traced π)) : Step (Traced π) → Prop
  | .fetch answers poolAddresses block config =>
    match s.registry.fetchNew answers poolAddresses config with
    | (_, .ok ()) => ∀ a p, s.registry.getPool a = some p →
        c.Silent a (PoolInterface.poolType p) s.registry.lastProcessedBlock block
    | (ps, .error _) => ∀ a p, (ps.filter fun p => PoolInterface.address p = a).getLast? = some p →
        c.Silent a (PoolInterface.poolType p) s.registry.lastProcessedBlock block
  | .start _ startBlock _ => ∀ a p, s.registry.getPool a = some p →
      c.Silent a (PoolInterface.poolType p) s.registry.lastProcessedBlock
        (UnifiedPoolUpdater.startCursor s.registry.lastProcessedBlock startBlock)
  | .batch env latest => ∀ u range rest, s.updater = some u →
      u.source.planned s.registry.lastProcessedBlock latest = .ok (range :: rest) →
      Reportable env.clock u.eventProcessor (u.source.fetchBatch c env s.registry range).events s.registry ∧
        ∀ a p, s.registry.getPool a = some p →
          c.OnlyNext a (PoolInterface.poolType p) u.source.topics s.registry.lastProcessedBlock range.1 range.2.1

end

/-! ## What a fetch returns -/

namespace FetchAnswers
variable {π : Type} [PoolInterface π] {answers : FetchAnswers π} {config : PoolFetchConfig}

theorem of_attempt {a : Address} {n : Nat} {p : π} (h : (answers.attempt a n).toOption = some p) :
    ∃ t, answers.fetch a t n = .ok p := by
  unfold attempt at h
  cases hi : answers.identify a n with
  | error e =>
    rw [hi] at h
    cases h
  | ok t =>
    rw [hi, ok_bind] at h
    cases hf : answers.fetch a t n with
    | error e =>
      rw [hf] at h
      cases h
    | ok q =>
      rw [hf] at h
      cases h
      exact ⟨t, hf⟩

theorem of_retryPool {a : Address} {p : π} (h : answers.retryPool config a = some p) :
    ∃ t n, answers.fetch a t n = .ok p := by
  obtain ⟨n, -, hn⟩ := List.exists_of_findSome?_eq_some h
  obtain ⟨t, hf⟩ := of_attempt hn
  exact ⟨t, n, hf⟩

theorem of_retryAll {as : List Address} {p : π} (h : p ∈ (answers.retryAll config as).1) :
    ∃ a t n, answers.fetch a t n = .ok p := by
  induction as with
  | nil => simp [retryAll] at h
  | cons a as ih =>
    unfold retryAll at h
    split at h
    · next q hq =>
      rcases List.mem_cons.1 h with rfl | h
      · exact ⟨a, of_retryPool hq⟩
      · exact ih h
    · simp at h

theorem of_fetchChunk {chunk : List Address} {p : π} (h : p ∈ (answers.fetchChunk config chunk).1) :
    ∃ a t n, answers.fetch a t n = .ok p := by
  unfold fetchChunk at h
  split at h
  · simp at h
  · rcases List.mem_append.1 h with h | h
    · obtain ⟨e, he, hp⟩ := List.mem_filterMap.1 h
      obtain ⟨at', -, rfl⟩ := List.mem_map.1 he
      refine ⟨at'.1, at'.2, 0, ?_⟩
      dsimp only at hp
      cases hf : answers.fetch at'.1 at'.2 0 with
      | error e =>
        rw [hf] at hp
        cases hp
      | ok q =>
        rw [hf] at hp
        cases hp
        rfl
    · exact of_retryAll h

/-- Every pool a call inserts is one some fetch answered. -/
theorem of_fetchPools {chunks : List (List Address)} {p : π} (h : p ∈ (answers.fetchPools config chunks).1) :
    ∃ a t n, answers.fetch a t n = .ok p := by
  induction chunks with
  | nil => simp [fetchPools] at h
  | cons chunk chunks ih =>
    unfold fetchPools at h
    split at h
    · next ps hps =>
      rcases List.mem_append.1 h with h | h
      · exact of_fetchChunk (by rw [hps]; exact h)
      · exact ih h
    · next ps e hps => exact of_fetchChunk (by rw [hps]; exact h)

end FetchAnswers

/-! ## One step -/

section
variable {π : Type} [PoolInterface π] {c : Chain} {r : PoolRegistry (Traced π)}

namespace PoolRegistry

/-- Where every pool is silent between two blocks the cursor may move from one to the other. -/
theorem Coherent.setLastProcessedBlock (h : r.Coherent c) {block : Nat}
    (hs : ∀ a p, r.getPool a = some p → c.Silent a (PoolInterface.poolType p) r.lastProcessedBlock block) :
    (r.setLastProcessedBlock block).Coherent c := fun a p hp =>
  (h a p hp).trans (c.ownThrough_eq (hs a p hp))

/-- Pools that stand at a block, inserted among pools that stand there. -/
theorem foldl_addPool_given {ps : List (Traced π)} {block : Nat}
    (h : ∀ a p, r.getPool a = some p → p.given = c.ownThrough a (PoolInterface.poolType p) block)
    (hps : ∀ a p, (ps.filter fun p => PoolInterface.address p = a).getLast? = some p →
      p.given = c.ownThrough a (PoolInterface.poolType p) block) (a : Address) (p : Traced π)
    (hp : (ps.foldl addPool r).getPool a = some p) :
    p.given = c.ownThrough a (PoolInterface.poolType p) block := by
  rw [foldl_addPool_getPool] at hp
  cases hl : (ps.filter fun p => PoolInterface.address p = a).getLast? with
  | none =>
    rw [hl] at hp
    exact h a p hp
  | some q =>
    rw [hl] at hp
    cases hp
    exact hps a p hl

theorem Coherent.addTypes (h : r.Coherent c) (types : List PoolType) : (r.addTypes types).Coherent c := by
  intro a p hp
  rw [addTypes_lastProcessedBlock]
  unfold getPool at hp
  rw [addTypes_byAddress] at hp
  exact h a p hp

/-- A fetched pool stands at the block it was fetched at. -/
theorem given_of_fetchNew {answers : FetchAnswers (Traced π)} {poolAddresses : List Address} {block : Nat}
    {config : PoolFetchConfig} (hf : ∀ a t n p, answers.fetch a t n = .ok p → p.given = c.ownThrough a t block)
    {p : Traced π} (h : p ∈ (r.fetchNew answers poolAddresses config).1) :
    p.given = c.ownThrough (PoolInterface.address p) (PoolInterface.poolType p) block := by
  obtain ⟨a, t, n, hp⟩ := FetchAnswers.of_fetchPools h
  obtain ⟨rfl, rfl⟩ := answers.fetched a t n p hp
  exact hf _ _ n p hp

/-- A batch gives every pool its next logs. -/
theorem Coherent.replayed (h : r.Coherent c) {env : Env} {src : LatestBlockSource} {range : Nat × Nat × Bool}
    (hn : ∀ a p, r.getPool a = some p →
      c.OnlyNext a (PoolInterface.poolType p) src.topics r.lastProcessedBlock range.1 range.2.1) :
    ((r.replayed env.clock (src.fetchBatch c env r range).events).setLastProcessedBlock range.2.1).Coherent c := by
  intro a q hq
  obtain ⟨p, hp, ht, hg⟩ := getPool_replayed hq
  have ha : a ∈ r.getAllAddresses := mem_of_getPool hp
  change q.given = p.given ++ ((r.enrichIfLbPoolsPresent env.times
    (c.getLogs r.getAllAddresses src.topics range.1 range.2.1)).filter _).map Log.untimed at hg
  rw [hg, owned_enriched, c.owned_getLogs _ range.1 range.2.1 ha, h a p hp, ht]
  refine c.ownThrough_append fun l hl ho => ?_
  have hn := hn a p hp l hl ho
  unfold Fetched at hn
  change (decide (l.block ≤ range.2.1) = true ↔ _) ∧ _
  simpa using hn

end PoolRegistry

/-- A sound step keeps the registry coherent. -/
theorem Collector.Sound.coherent {s : Collector (Traced π)} {x : Step (Traced π)} (h : s.registry.Coherent c)
    (hf : x.Faithful c) (hs : s.Sound c x) : (s.step c x).registry.Coherent c := by
  cases x with
  | fetch answers poolAddresses block config =>
    unfold Sound at hs
    unfold step
    dsimp only at hs ⊢
    have hgiven : ∀ p ∈ (s.registry.fetchNew answers poolAddresses config).1,
        p.given = c.ownThrough (PoolInterface.address p) (PoolInterface.poolType p) block :=
      fun p hp => PoolRegistry.given_of_fetchNew hf hp
    rcases hout : s.registry.fetchNew answers poolAddresses config with ⟨ps, outcome⟩
    rw [hout] at hs hgiven
    have hlast : ∀ a p, (ps.filter fun p => PoolInterface.address p = a).getLast? = some p →
        p.given = c.ownThrough a (PoolInterface.poolType p) block := by
      intro a p hp
      obtain ⟨hmem, ha⟩ := List.mem_filter.1 (List.mem_of_getLast? hp)
      have ha : PoolInterface.address p = a := by simpa using ha
      rw [← ha]
      exact hgiven p hmem
    cases outcome with
    | ok u =>
      rw [PoolRegistry.fetchPoolsIntoRegistry_ok hout]
      unfold PoolRegistry.registerPoolsAndTopics
      rw [← PoolRegistry.addTypes_setLastProcessedBlock]
      refine PoolRegistry.Coherent.addTypes (r := (ps.foldl PoolRegistry.addPool s.registry).setLastProcessedBlock block)
        (fun a p hp => ?_) _
      exact PoolRegistry.foldl_addPool_given (r := s.registry)
        (fun a p hp => (h a p hp).trans (c.ownThrough_eq (hs a p hp))) hlast a p hp
    | error e =>
      rw [PoolRegistry.fetchPoolsIntoRegistry_error hout]
      intro a p hp
      rw [PoolRegistry.foldl_addPool_lastProcessedBlock]
      exact PoolRegistry.foldl_addPool_given h (fun a p hp => (hlast a p hp).trans (c.ownThrough_eq (hs a p hp)).symm) a p hp
  | start swapEventTx startBlock maxBlocksPerBatch => exact h.setLastProcessedBlock hs
  | batch env latest =>
    unfold step
    dsimp only
    cases hu : s.updater with
    | none => exact h
    | some u =>
      dsimp only
      unfold UnifiedPoolUpdater.batch
      cases hp : u.source.planned s.registry.lastProcessedBlock latest with
      | error e => exact h
      | ok ranges =>
        cases ranges with
        | nil => exact h
        | cons range rest =>
          obtain ⟨hr, hn⟩ := hs u range rest hu hp
          have hmode : (u.source.fetchBatch c env s.registry range).processingMode ≠ .Pending := by
            unfold LatestBlockSource.fetchBatch
            dsimp only
            split <;> simp
          have hproc := UnifiedPoolUpdater.process_eq hr hmode range.2.1 rfl
          dsimp only
          rw [hproc]
          exact h.replayed hn

/-! ## Runs -/

/-- **The cursor is true for every pool**: in a run from an empty registry whose steps are sound, where
they are taken, the registry is coherent all along. -/
theorem Collector.coherent_all_along (c : Chain) (steps : List (Step (Traced π)))
    (hf : ∀ x ∈ steps, x.Faithful c)
    (hs : ∀ k x, steps[k]? = some x → (runTo (step c) fresh steps k).Sound c x) (k : Nat) :
    (runTo (step c) fresh steps k).registry.Coherent c := by
  refine runTo_invariant (P := fun s : Collector (Traced π) => s.registry.Coherent c) ?_ (fun k x hx h => ?_) k
  · intro a p hp
    simp [fresh, PoolRegistry.empty, PoolRegistry.getPool] at hp
  · exact Sound.coherent h (hf x (List.mem_of_getElem? hx)) (hs k x hx)

end

/-! ## Two pairs fetched at different blocks -/

def oneSync : Chain where
  logs := [syncAt 150 0]
  mined l hl := by
    rw [List.mem_singleton.1 hl]
    exact syncAt_mined (by decide) (by decide)
  sorted := List.pairwise_singleton ..
  keys := List.pairwise_singleton ..

/-- Pairs of which nothing has happened yet. -/
def untouchedPairs : FetchAnswers (Traced Pool) where
  identify _ _ := .ok .UniswapV2
  fetch a t _ := if t = .UniswapV2 then .ok ⟨.v2 (.emptyPair a), []⟩ else .error "no answer"
  fetched := by
    intro a t n p hp
    split at hp
    · next ht =>
      cases hp
      exact ⟨rfl, ht.symm⟩
    · cases hp

/-- The same pairs at block 150 and later. -/
def syncedPairs : FetchAnswers (Traced Pool) where
  identify _ _ := .ok .UniswapV2
  fetch a t _ := if t = .UniswapV2 then
    .ok ⟨.v2 (.emptyPair a), if a = 1 then [(syncAt 150 0).untimed] else []⟩ else .error "no answer"
  fetched := by
    intro a t n p hp
    split at hp
    · next ht =>
      cases hp
      exact ⟨rfl, ht.symm⟩
    · cases hp

theorem ownThrough_oneSync {a : Address} {b : Nat} (h : a = 1 → b < 150) :
    oneSync.ownThrough a .UniswapV2 b = [] := by
  unfold Chain.ownThrough Chain.ownWhere
  rw [List.map_eq_nil_iff, List.filter_eq_nil_iff]
  intro l hl
  rw [List.mem_singleton.1 hl]
  intro hc
  obtain ⟨ho, hb⟩ := of_decide_eq_true hc
  have hb : 150 ≤ b := of_decide_eq_true hb
  have ho : 1 = a := (of_decide_eq_true ho).1
  have := h ho.symm
  omega

theorem faithful_untouchedPairs (addresses : List Address) (config : PoolFetchConfig) :
    (Collector.Step.fetch untouchedPairs addresses 100 config).Faithful oneSync := by
  intro a t n p hp
  unfold untouchedPairs at hp
  dsimp only at hp
  split at hp
  · next ht =>
    cases hp
    rw [ht, ownThrough_oneSync fun _ => by decide]
  · cases hp

theorem faithful_syncedPairs (addresses : List Address) (config : PoolFetchConfig) :
    (Collector.Step.fetch syncedPairs addresses 200 config).Faithful oneSync := by
  intro a t n p hp
  unfold syncedPairs at hp
  dsimp only at hp
  split at hp
  · next ht =>
    cases hp
    rw [ht]
    by_cases ha : a = 1
    · subst ha
      rfl
    · rw [ownThrough_oneSync fun h => absurd h ha]
      exact if_neg ha
  · cases hp

/-- Everything in order: the pair is fetched at block 100, an updater starts, and one batch takes it past
its sync. -/
theorem Collector.coherent_all_along_onePair :
    (runTo (step oneSync) fresh [.fetch untouchedPairs [1] 100 ⟨10, 0⟩, .start false 0 100,
      .batch stillEnv 150] 3).registry.Coherent oneSync := by
  apply Collector.coherent_all_along
  · intro x hx
    rcases List.mem_cons.1 hx with rfl | hx
    · exact faithful_untouchedPairs [1] ⟨10, 0⟩
    · rcases List.mem_cons.1 hx with rfl | hx
      · trivial
      · rw [List.mem_singleton.1 hx]
        trivial
  · intro k x hx
    match k with
    | 0 =>
      cases hx
      intro a p hp
      simp [fresh, PoolRegistry.empty, PoolRegistry.getPool, runTo] at hp
    | 1 =>
      cases hx
      intro a p hp l hl ho
      rw [UnifiedPoolUpdater.startCursor_zero]
    | 2 =>
      cases hx
      generalize hs : runTo (step oneSync) (fresh : Collector (Traced Pool)) _ 2 = s
      have hpools : s.registry.byAddress = (∅ : ExtTreeMap Address (Traced Pool)).insert 1 ⟨.v2 (.emptyPair 1), []⟩ := by
        rw [← hs]
        rfl
      have hpool : ∀ a p, s.registry.getPool a = some p → a = 1 ∧ p = ⟨.v2 (.emptyPair 1), []⟩ := by
        intro a p hp
        unfold PoolRegistry.getPool at hp
        rw [hpools, Ranges.lookup_insert] at hp
        split at hp
        · next ha => exact ⟨ha, (Option.some.inj hp).symm⟩
        · simp at hp
      intro u range rest hu hp
      subst hs
      cases hu
      cases hp
      refine ⟨⟨fun a p ha => ?_, fun hx => (Bool.false_ne_true hx).elim⟩, fun a p ha l hl ho => ?_⟩
      · obtain ⟨rfl, rfl⟩ := hpool a p ha
        exact ⟨rfl, trivial⟩
      · rw [List.mem_singleton.1 hl]
        unfold Fetched
        decide +kernel

/-- Pair 1 is fetched at block 100, pair 2 at block 200: the cursor is at 200, and pair 1's sync in
block 150 is missing. -/
theorem Collector.coherent_all_along_fails :
    ¬ ∀ (c : Chain) (steps : List (Step (Traced Pool))), (∀ x ∈ steps, x.Faithful c) →
      ∀ k, (runTo (step c) fresh steps k).registry.Coherent c := by
  intro h
  have hrun := h oneSync [.fetch untouchedPairs [1] 100 ⟨10, 0⟩, .fetch syncedPairs [2] 200 ⟨10, 0⟩] (by
    intro x hx
    rcases List.mem_cons.1 hx with rfl | hx
    · exact faithful_untouchedPairs [1] ⟨10, 0⟩
    · rw [List.mem_singleton.1 hx]
      exact faithful_syncedPairs [2] ⟨10, 0⟩) 2
  have h1 := hrun 1 ⟨.v2 (.emptyPair 1), []⟩ (by decide +kernel)
  revert h1
  decide +kernel

end EvmDexPool
