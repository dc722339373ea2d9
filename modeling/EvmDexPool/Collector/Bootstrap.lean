import EvmDexPool.Collector.BlockSource
import EvmDexPool.Collector.History

/-!
# What bootstrap does to the registry (`collector/block_source.rs:711-927`)

| here | there |
| --- | --- |
| `catchUpBatch`  | the loop over one batch's logs, up to the first queued position |
| `catchUp`       | the catch-up over the batches; a query that fails is made again |
| `applyBuffered` | the queued logs applied, and the cursor moved |

The logs a pool is given are told in its ledger: those before the floor and past the cursor, in chain
order, then the buffered ones as they stand.
-/

namespace EvmDexPool

open Replay

namespace WebsocketBlockSource
variable {π : Type} [PoolInterface π] (src : WebsocketBlockSource) (c : Chain)

/-- One batch's logs up to the first at or after the floor, and whether that was reached. A log without
a position is skipped (block_source.rs:801-845). -/
def catchUpBatch (clock : Log → Nat) : List Log → PoolRegistry π → PoolRegistry π × Except Fault Bool
  | [], r => (r, .ok false)
  | l :: ls, r =>
    match l.position with
    | none => catchUpBatch clock ls r
    | some p =>
      if src.fillFloor ≤ p then (r, .ok true)
      else match onPool (applyOrWarn clock l) l.address r with
        | (r, .ok ()) => catchUpBatch clock ls r
        | (r, .error e) => (r, .error e)

/-- Batch by batch until the floor is reached. -/
def catchUpBatches (env : Env) : List (Nat × Nat) → PoolRegistry π → PoolRegistry π × Except Fault Unit
  | [], r => (r, .ok ())
  | b :: rest, r =>
    let fetched := c.getLogs r.getAllAddresses src.topics b.1 b.2
    match src.catchUpBatch env.clock (r.enrichIfLbPoolsPresent env.times fetched) r with
    | (r, .ok true) => (r, .ok ())
    | (r, .ok false) => catchUpBatches env rest r
    | (r, .error e) => (r, .error e)

/-- From the cursor to the floor (block_source.rs:757-857). -/
def catchUp (env : Env) (r : PoolRegistry π) : PoolRegistry π × Except Fault Unit :=
  src.catchUpBatches c env (catchupBatches r.lastProcessedBlock src.maxBlocksPerBatch src.fillFloor.block) r

/-- The buffered logs (block_source.rs:892-920). -/
def applyBuffered (env : Env) (events : List Log) (r : PoolRegistry π) : PoolRegistry π × Except Fault Unit :=
  match catchupEvents env.clock (r.enrichIfLbPoolsPresent env.times events) r with
  | (r, .ok ()) => (r.setLastProcessedBlock (src.bootstrapBlock events), .ok ())
  | (r, .error e) => (r, .error e)

/-- A gap noted while the queue filled: fetched if the log that closes it was drained, else noted again
(block_source.rs:876-884). -/
def fillQueued (addresses : List Address) (drained : List LogPosition) (s : EventQueue × List Log × Bool) (g : Gap) :
    EventQueue × List Log × Bool :=
  if g.before ∈ drained then
    let missed := src.fetchGap c addresses g s.1
    (missed.1, s.2.1 ++ missed.2, true)
  else (s.1.noteGap g, s.2)

/-- The drained logs with those of the gaps, and whether a gap was filled. -/
def buffered (addresses : List Address) (drained : List Log) (queue : EventQueue) : EventQueue × List Log × Bool :=
  if src.fillReconnectGaps then
    queue.gaps.foldl (src.fillQueued c addresses (drained.filterMap Log.position)) (queue.takeGaps.1, drained, false)
  else (queue.takeGaps.1, drained, false)

/-- `bootstrap` (block_source.rs:711), run through: `latest` is the RPC's head and `drained` what the queue
holds at its start, `queue` the queue as it is when the catch-up is done. -/
def bootstrap (env : Env) (latest : Nat) (drained : List Log) (queue : EventQueue) (r : PoolRegistry π) :
    (WebsocketBlockSource × EventQueue × PoolRegistry π) × Except Fault Unit :=
  let src := { src with fillFloor := firstQueuedPosition latest drained }
  match src.catchUp c env r with
  | (r, .error e) => ((src, queue, r), .error e)
  | (r, .ok ()) =>
    let (queue, events, filled) := src.buffered c r.getAllAddresses drained queue
    match src.applyBuffered env (if filled then byPosition events else events) r with
    | (r, .error e) => ((src, queue, r), .error e)
    | (r, .ok ()) =>
      (({ src with settler := .new src.blockSettle (src.bootstrapBlock events) }, queue, r), .ok ())

end WebsocketBlockSource

/-! ## Application that ends well -/

section
variable {π : Type} [PoolInterface π] {clock : Log → Nat} {r r' : PoolRegistry π}

/-- Whatever comes back, the log has been applied. -/
theorem onPool_replayed (clock : Log → Nat) (l : Log) (r : PoolRegistry π) :
    (onPool (applyOrWarn clock l) l.address r).1 = r.replayed clock [l] := by
  refine (foldl_onPool (·.address) (applyOrWarn clock) [l] r).trans ?_
  have hstep : (fun (l : Log) (p : π) => (applyOrWarn clock l p).1) = stepLog clock :=
    funext fun l => funext fun p => applyOrWarn_fst l p
  rw [hstep]
  rfl

theorem onPool_ok {l : Log} (h : onPool (applyOrWarn clock l) l.address r = (r', .ok ())) :
    r' = r.replayed clock [l] := by
  rw [← onPool_replayed, h]

theorem catchupEvents_ok {events : List Log} (h : catchupEvents clock events r = (r', .ok ())) :
    r' = r.replayed clock events := by
  induction events generalizing r with
  | nil => exact (congrArg Prod.fst h).symm
  | cons l ls ih =>
    unfold catchupEvents at h
    rw [loop] at h
    split at h
    · next r1 hr1 =>
      rw [ih h, onPool_ok hr1, ← PoolRegistry.replayed_append, List.singleton_append]
    · cases h

end

namespace WebsocketBlockSource
variable {π : Type} [PoolInterface π] {src : WebsocketBlockSource} {c : Chain}

/-- A batch in chain order gives what is before the floor. -/
theorem catchUpBatch_ok {clock : Log → Nat} {ls : List Log} {r r' : PoolRegistry π} {reached : Bool}
    (hm : ∀ l ∈ ls, l.position = some l.place) (hs : ls.Pairwise fun a b => a.place < b.place)
    (h : src.catchUpBatch clock ls r = (r', .ok reached)) :
    r' = r.replayed clock (ls.filter fun l => l.place < src.fillFloor) ∧
      (reached = true ↔ ∃ l ∈ ls, src.fillFloor ≤ l.place) := by
  induction ls generalizing r with
  | nil =>
    cases h
    exact ⟨rfl, by simp⟩
  | cons l ls ih =>
    obtain ⟨hl, hs⟩ := List.pairwise_cons.1 hs
    rw [catchUpBatch, hm l List.mem_cons_self] at h
    dsimp only at h
    split at h
    · next hf =>
      -- everything from here on is at or after the floor
      cases h
      have hnil : (l :: ls).filter (fun l => l.place < src.fillFloor) = [] := by
        rw [List.filter_eq_nil_iff]
        intro x hx hlt
        have hlt : x.place < src.fillFloor := of_decide_eq_true hlt
        rcases List.mem_cons.1 hx with rfl | hx
        · exact absurd hlt (not_lt.2 hf)
        · exact absurd (hlt.trans_le hf) (not_lt.2 (hl x hx).le)
      rw [hnil]
      exact ⟨rfl, iff_of_true rfl ⟨l, List.mem_cons_self, hf⟩⟩
    · next hf =>
      split at h
      · next r1 hr1 =>
        obtain ⟨h1, h2⟩ := ih (fun x hx => hm x (List.mem_cons_of_mem _ hx)) hs h
        rw [List.filter_cons_of_pos (by simpa using not_le.1 hf), h1, onPool_ok hr1, ← PoolRegistry.replayed_append,
          List.singleton_append]
        refine ⟨rfl, h2.trans ⟨fun ⟨x, hx, hle⟩ => ⟨x, List.mem_cons_of_mem _ hx, hle⟩, fun ⟨x, hx, hle⟩ => ?_⟩⟩
        rcases List.mem_cons.1 hx with rfl | hx
        · exact absurd hle hf
        · exact ⟨x, hx, hle⟩
      · cases h

/-- The batches together give what they hold before the floor. -/
theorem catchUpBatches_ok {env : Env} {batches : List (Nat × Nat)} {r r' : PoolRegistry π}
    (hs : (c.getBatches r.getAllAddresses src.topics batches).Pairwise fun a b => a.place < b.place)
    (h : src.catchUpBatches c env batches r = (r', .ok ())) :
    r' = r.replayed env.clock (r.enrichIfLbPoolsPresent env.times
      ((c.getBatches r.getAllAddresses src.topics batches).filter fun l => l.place < src.fillFloor)) := by
  induction batches generalizing r with
  | nil => exact (congrArg Prod.fst h).symm
  | cons b rest ih =>
    have hcons : c.getBatches r.getAllAddresses src.topics (b :: rest) =
        c.getLogs r.getAllAddresses src.topics b.1 b.2 ++ c.getBatches r.getAllAddresses src.topics rest := List.flatMap_cons ..
    rw [hcons] at hs ⊢
    obtain ⟨hb, hrest, hcross⟩ := List.pairwise_append.1 hs
    have hmined : ∀ l ∈ c.getLogs r.getAllAddresses src.topics b.1 b.2, l.position = some l.place :=
      fun l hl => (c.mined l (List.mem_filter.1 hl).1).position
    unfold catchUpBatches at h
    dsimp only at h
    generalize c.getLogs r.getAllAddresses src.topics b.1 b.2 = ls at h hb hcross hmined ⊢
    have hbatch : ∀ {r1 reached}, src.catchUpBatch env.clock (r.enrichIfLbPoolsPresent env.times ls) r = (r1, .ok reached) →
        r1 = r.replayed env.clock (r.enrichIfLbPoolsPresent env.times (ls.filter fun l => l.place < src.fillFloor)) ∧
          (reached = true ↔ ∃ l ∈ ls, src.fillFloor ≤ l.place) := by
      intro r1 reached h1
      unfold PoolRegistry.enrichIfLbPoolsPresent at h1
      obtain ⟨h2, h3⟩ := catchUpBatch_ok (fun l hl => by
          obtain ⟨x, hx, rfl⟩ := List.mem_map.1 hl
          simpa using hmined x hx) (by
          rw [List.pairwise_map]
          simpa using hb) h1
      have hcomp : ((fun l : Log => decide (l.place < src.fillFloor)) ∘ fun l : Log =>
          l.fillBlockTimestamp (fun l => l.address ∈ r.getAddressesByType .TraderJoeLB) env.times) =
          fun l : Log => decide (l.place < src.fillFloor) := by
        funext l
        simp
      rw [List.filter_map, hcomp] at h2
      exact ⟨h2, by simpa using h3⟩
    split at h
    · next r1 h1 =>
      -- the floor is in this batch, so the later ones hold nothing before it
      cases h
      obtain ⟨h2, h3⟩ := hbatch h1
      obtain ⟨x, hx, hle⟩ := h3.1 rfl
      have hnil : (c.getBatches r.getAllAddresses src.topics rest).filter (fun l => l.place < src.fillFloor) = [] := by
        rw [List.filter_eq_nil_iff]
        intro y hy hlt
        exact absurd (hle.trans (hcross x hx y hy).le) (not_le.2 (of_decide_eq_true hlt))
      rw [List.filter_append, hnil, List.append_nil]
      exact h2
    · next r1 h1 =>
      obtain ⟨h2, -⟩ := hbatch h1
      subst h2
      rw [← PoolRegistry.getAllAddresses_replayed env.clock r] at hrest
      have hlater := ih hrest h
      rw [PoolRegistry.getAllAddresses_replayed, PoolRegistry.enrich_replayed, ← PoolRegistry.replayed_append] at hlater
      rw [hlater, List.filter_append]
      unfold PoolRegistry.enrichIfLbPoolsPresent
      rw [List.map_append]
    · cases h

/-- What the catch-up's queries return before the floor. -/
theorem filter_getLogs_floor (src : WebsocketBlockSource) (c : Chain) (addresses : List Address) (b : Nat) :
    (c.getLogs addresses src.topics (b + 1) src.fillFloor.block).filter (fun l => l.place < src.fillFloor) =
      (c.relevant addresses src.topics).filter fun l => b < l.block ∧ l.place < src.fillFloor := by
  unfold Chain.getLogs Chain.relevant
  rw [List.filter_filter, List.filter_filter]
  refine List.filter_congr fun l _ => Bool.eq_iff_iff.2 ?_
  simp only [Bool.and_eq_true, decide_eq_true_eq]
  constructor
  · rintro ⟨hl, ⟨hlt, -⟩, hm⟩
    exact ⟨⟨hlt, hl⟩, hm⟩
  · rintro ⟨⟨hlt, hl⟩, hm⟩
    exact ⟨hl, ⟨hlt, LogPosition.block_le hl.le⟩, hm⟩

/-- The catch-up takes the pools past every log after the cursor and before the floor. -/
theorem catchUp_eq {env : Env} {r r' : PoolRegistry π} (hf : src.fillFloor.block < 2 ^ 64)
    (h : src.catchUp c env r = (r', .ok ())) :
    r' = r.replayed env.clock (r.enrichIfLbPoolsPresent env.times
      ((c.relevant r.getAllAddresses src.topics).filter fun l =>
        r.lastProcessedBlock < l.block ∧ l.place < src.fillFloor)) := by
  unfold catchUp at h
  have hbatches := catchUpBatches_ok (by
    rw [c.getBatches_catchupBatches hf]
    exact c.sorted.sublist List.filter_sublist) h
  rwa [c.getBatches_catchupBatches hf, filter_getLogs_floor] at hbatches

theorem catchUp_ok {env : Env} {r r' : PoolRegistry (Traced π)} (hf : src.fillFloor.block < 2 ^ 64)
    (h : src.catchUp c env r = (r', .ok ())) :
    r'.lastProcessedBlock = r.lastProcessedBlock ∧
      r.Gives ((c.relevant r.getAllAddresses src.topics).filter fun l =>
        r.lastProcessedBlock < l.block ∧ l.place < src.fillFloor) r' := by
  rw [catchUp_eq hf h]
  exact ⟨rfl, (PoolRegistry.gives_replayed ..).of_enriched⟩

/-- However the RPC answers, a catch-up is a replay of some logs. -/
theorem catchUpBatch_replayed {clock : Log → Nat} {ls : List Log} {r r' : PoolRegistry π} {reached : Bool}
    (h : src.catchUpBatch clock ls r = (r', .ok reached)) : ∃ xs, r' = r.replayed clock xs := by
  induction ls generalizing r with
  | nil => exact ⟨[], (congrArg Prod.fst h).symm⟩
  | cons l ls ih =>
    unfold catchUpBatch at h
    split at h
    · exact ih h
    · split at h
      · exact ⟨[], (congrArg Prod.fst h).symm⟩
      · split at h
        · next r1 hr1 =>
          obtain ⟨xs, hxs⟩ := ih h
          exact ⟨[l] ++ xs, by rw [hxs, onPool_ok hr1, PoolRegistry.replayed_append]⟩
        · cases h

theorem catchUpBatches_replayed {env : Env} {batches : List (Nat × Nat)} {r r' : PoolRegistry π}
    (h : src.catchUpBatches c env batches r = (r', .ok ())) : ∃ xs, r' = r.replayed env.clock xs := by
  induction batches generalizing r with
  | nil => exact ⟨[], (congrArg Prod.fst h).symm⟩
  | cons b rest ih =>
    unfold catchUpBatches at h
    dsimp only at h
    split at h
    · next h1 =>
      cases h
      exact catchUpBatch_replayed h1
    · next h1 =>
      obtain ⟨xs, rfl⟩ := catchUpBatch_replayed h1
      obtain ⟨ys, hys⟩ := ih h
      exact ⟨xs ++ ys, by rw [hys, PoolRegistry.replayed_append]⟩
    · cases h

/-- Buffered logs are applied as they stand. -/
theorem applyBuffered_eq {env : Env} {events : List Log} {r r' : PoolRegistry π}
    (h : src.applyBuffered env events r = (r', .ok ())) :
    r' = (r.replayed env.clock (r.enrichIfLbPoolsPresent env.times events)).setLastProcessedBlock
      (src.bootstrapBlock events) := by
  unfold applyBuffered at h
  split at h
  · next r1 h1 =>
    cases h
    rw [catchupEvents_ok h1]
  · cases h

theorem applyBuffered_ok {env : Env} {events : List Log} {r r' : PoolRegistry (Traced π)}
    (h : src.applyBuffered env events r = (r', .ok ())) :
    r'.lastProcessedBlock = src.bootstrapBlock events ∧ r.Gives events r' := by
  have hgives := (PoolRegistry.gives_replayed env.clock r (r.enrichIfLbPoolsPresent env.times events)).of_enriched
  rw [applyBuffered_eq h]
  exact ⟨rfl, hgives.ledger, hgives.addresses, hgives.topics⟩

/-! ## The buffered logs -/

theorem foldl_fillQueued (src : WebsocketBlockSource) (c : Chain) (addresses : List Address) (drained : List LogPosition) (gaps : List Gap)
    (s : EventQueue × List Log × Bool) :
    ((gaps.foldl (src.fillQueued c addresses drained) s).2.2 = true ↔ s.2.2 = true ∨ ∃ g ∈ gaps, g.before ∈ drained) ∧
      ((¬ ∃ g ∈ gaps, g.before ∈ drained) → (gaps.foldl (src.fillQueued c addresses drained) s).2 = s.2) := by
  induction gaps generalizing s with
  | nil => simp
  | cons g gaps ih =>
    obtain ⟨h1, h2⟩ := ih (src.fillQueued c addresses drained s g)
    rw [List.foldl_cons]
    by_cases hg : g.before ∈ drained
    · have hs : (src.fillQueued c addresses drained s g).2.2 = true := by
        unfold fillQueued
        rw [if_pos hg]
      exact ⟨iff_of_true (h1.2 (.inl hs)) (.inr ⟨g, List.mem_cons_self, hg⟩),
        fun hno => absurd ⟨g, List.mem_cons_self, hg⟩ hno⟩
    · have hs : (src.fillQueued c addresses drained s g).2 = s.2 := by
        unfold fillQueued
        rw [if_neg hg]
      rw [hs] at h1 h2
      refine ⟨h1.trans (or_congr_right ?_), fun hno => h2 fun ⟨x, hx, hd⟩ => hno ⟨x, List.mem_cons_of_mem _ hx, hd⟩⟩
      simp [hg]

/-- A gap is filled: there is one websocket URL, and a gap's closing log was drained. -/
def Fills (src : WebsocketBlockSource) (drained : List Log) (queue : EventQueue) : Prop :=
  src.fillReconnectGaps = true ∧ ∃ g ∈ queue.gaps, g.before ∈ drained.filterMap Log.position

theorem buffered_filled (src : WebsocketBlockSource) (c : Chain) (addresses : List Address) (drained : List Log) (queue : EventQueue) :
    ((src.buffered c addresses drained queue).2.2 = true ↔ src.Fills drained queue) ∧
      (¬ src.Fills drained queue → (src.buffered c addresses drained queue).2 = (drained, false)) := by
  obtain ⟨h1, h2⟩ := foldl_fillQueued src c addresses (drained.filterMap Log.position) queue.gaps
    (queue.takeGaps.1, drained, false)
  unfold buffered Fills
  by_cases hf : src.fillReconnectGaps = true
  · rw [if_pos hf]
    refine ⟨h1.trans (by simp [hf]), fun hno => h2 fun he => hno ⟨hf, he⟩⟩
  · rw [if_neg hf]
    exact ⟨iff_of_false Bool.false_ne_true fun h => hf h.1, fun _ => rfl⟩

/-- What a bootstrap that ends well leaves: the catch-up, and the buffered logs over it, put in order if a
gap was filled. -/
theorem bootstrap_ok {env : Env} {latest : Nat} {drained : List Log} {queue queue' : EventQueue}
    {src' : WebsocketBlockSource} {r r' : PoolRegistry π}
    (h : src.bootstrap c env latest drained queue r = ((src', queue', r'), .ok ())) :
    let floored := { src with fillFloor := firstQueuedPosition latest drained }
    ∃ r1, floored.catchUp c env r = (r1, .ok ()) ∧
      let buffered := floored.buffered c r1.getAllAddresses drained queue
      let out := buffered.2
      r' = (r1.replayed env.clock (r1.enrichIfLbPoolsPresent env.times
        (if out.2 then byPosition out.1 else out.1))).setLastProcessedBlock (floored.bootstrapBlock out.1) ∧
      queue' = buffered.1 ∧ src'.fillFloor = floored.fillFloor ∧ src'.fillReconnectGaps = src.fillReconnectGaps := by
  unfold bootstrap at h
  dsimp only at h ⊢
  split at h
  · cases h
  · next r1 h1 =>
    refine ⟨r1, h1, ?_⟩
    generalize WebsocketBlockSource.buffered _ c r1.getAllAddresses drained queue = out at h ⊢
    obtain ⟨q, events, filled⟩ := out
    dsimp only at h ⊢
    split at h
    · cases h
    · next h2 =>
      cases h
      have hperm : (if filled then byPosition events else events).Perm events := by
        split
        · exact List.perm_insertionSort ..
        · exact .refl _
      rw [applyBuffered_eq h2, bootstrapBlock_perm hperm]
      exact ⟨rfl, rfl, rfl, rfl⟩

end WebsocketBlockSource

end EvmDexPool
