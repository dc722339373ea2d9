import Mathlib.Data.List.Pairwise
import EvmDexPool.Collector.BlockSettler
import EvmDexPool.Collector.EventQueue
import EvmDexPool.Collector.Updater

/-!
# The websocket source (`WebsocketBlockSource`, `collector/block_source.rs`)

| here | there |
| --- | --- |
| `catchupBatches` | `catchup_batches` |
| `fetchGap`       | `fetch_gap`: the RPC head has passed the gap, so the queries are whole |
| `fillGap`        | `fill_gap` |
| `intake`         | the drain at the top of `next_batch` |
| `modeOf`         | how a settled block is processed |

`addresses` are the registry's at the time of the query.
-/

namespace EvmDexPool

open Replay

/-- `u64::saturating_add`. -/
def satAdd (a b : Nat) : Nat := min (a + b) (2 ^ 64 - 1)

/-- The loop of `catchup_batches`. -/
def catchupLoop (span first : Nat) : Nat → Nat → List (Nat × Nat)
  | 0, _ => []
  | fuel + 1, start =>
    if start ≤ first then
      let stop := min (satAdd start (span - 1)) first
      (start, stop) :: if stop ≥ first then [] else catchupLoop span first fuel (stop + 1)
    else []

/-- `catchup_batches` (block_source.rs:83). Every turn of the loop advances, so there are at most
`first + 1` of them. -/
def catchupBatches (lastProcessed maxBlocks first : Nat) : List (Nat × Nat) :=
  catchupLoop (max maxBlocks 1) first (first + 1) (satAdd lastProcessed 1)

/-- The logs one range after the other. -/
def Chain.getBatches (c : Chain) (addresses : List Address) (topics : List Topic) (batches : List (Nat × Nat)) :
    List Log :=
  batches.flatMap fun b => c.getLogs addresses topics b.1 b.2

/-- The logs of the pools and topics asked for. -/
def Chain.relevant (c : Chain) (addresses : List Address) (topics : List Topic) : List Log :=
  c.logs.filter (matchesFilter addresses topics)

/-- A log without a position comes last. -/
def Log.sortKey (l : Log) : LogPosition := l.position.getD (.mk (2 ^ 64 - 1) (2 ^ 64 - 1) (2 ^ 64 - 1))

structure WebsocketBlockSource where
  topics : List Topic
  maxBlocksPerBatch : Nat
  blockSettle : Nat
  settler : BlockSettler
  fillReconnectGaps : Bool
  fillFloor : LogPosition
  applyOnlyThrough : Nat

namespace WebsocketBlockSource

/-- `WebsocketBlockSource::new` (block_source.rs:581). -/
def new (topics : List Topic) (maxBlocksPerBatch blockSettle : Nat) (fillReconnectGaps : Bool) :
    WebsocketBlockSource :=
  ⟨topics, maxBlocksPerBatch, blockSettle, .new blockSettle 0, fillReconnectGaps, .mk 0 0 0, 0⟩

variable (src : WebsocketBlockSource) (c : Chain) (addresses : List Address)

/-- The log is missing from the gap, and bootstrap has not applied it. -/
def wants (g : Gap) (l : Log) : Bool :=
  !l.removed && l.position.any fun p => g.Holds p ∧ src.fillFloor ≤ p

/-- One fetched log of a gap: claimed, so that a copy the feed still sends is skipped. -/
def claimMissed (g : Gap) (s : EventQueue × List Log) (l : Log) : EventQueue × List Log :=
  if src.wants g l then
    match s.1.claim l with
    | (q, .ok true) => (q, s.2 ++ [l])
    | (q, _) => (q, s.2)
  else s

/-- `fetch_gap` (block_source.rs:610). -/
def fetchGap (g : Gap) (q : EventQueue) : EventQueue × List Log :=
  if g.before ≤ src.fillFloor ∨ g.after.any (g.before ≤ ·) then (q, [])
  else
    let fromBlock := max (g.after.elim src.fillFloor.block LogPosition.block) src.fillFloor.block
    (c.getBatches addresses src.topics (catchupBatches (fromBlock - 1) src.maxBlocksPerBatch g.before.block)).foldl
      (src.claimMissed g) (q, [])

/-- `fill_gap` (block_source.rs:698). -/
def fillGap (g : Gap) (now : Nat) (q : EventQueue) : WebsocketBlockSource × EventQueue :=
  let missed := src.fetchGap c addresses g q
  ({ src with
      settler := src.settler.add missed.2 now
      applyOnlyThrough := max src.applyOnlyThrough g.before.block }, missed.1)

/-- A drained log goes on unless bootstrap's catch-up has applied it. -/
def keeps (l : Log) : Bool := l.position.all (src.fillFloor ≤ ·)

/-- The drain of `next_batch` (block_source.rs:931-939). -/
def intake (now : Nat) (q : EventQueue) : WebsocketBlockSource × EventQueue :=
  ({ src with settler := src.settler.add (q.queue.filter src.keeps) now }, q.getAllAvailableEvents.1)

/-- How a settled block goes on (block_source.rs:988-994). -/
def modeOf (r : Settled) : ProcessingMode :=
  if r.block < r.processedThrough ∨ r.block ≤ src.applyOnlyThrough then .ApplyOnly else .ConfirmedWithSwaps

/-- The queued log bootstrap's catch-up stops before (block_source.rs:733). -/
def firstQueuedPosition (latest : Nat) (events : List Log) : LogPosition :=
  (events.filterMap Log.position).min?.getD (.mk latest 0 0)

/-- The order bootstrap puts filled events in (block_source.rs:887). -/
def byPosition (events : List Log) : List Log := events.insertionSort fun a b => a.sortKey ≤ b.sortKey

/-- The cursor bootstrap leaves (block_source.rs:917): the last block among its events. -/
def bootstrapBlock (events : List Log) : Nat := (events.filterMap (·.blockNumber)).max?.getD src.fillFloor.block

end WebsocketBlockSource

/-! ## The ranges tile the blocks asked for -/

namespace Chain
variable (c : Chain) {addresses : List Address} {topics : List Topic}

theorem getLogs_append {a b d : Nat} (hb : a ≤ b + 1) (hd : b ≤ d) :
    c.getLogs addresses topics a b ++ c.getLogs addresses topics (b + 1) d = c.getLogs addresses topics a d := by
  unfold getLogs
  refine filter_append_filter (c.block_sorted.imp fun {x y} hxy hx hy => ?_) (fun l hl => ?_) fun l hl => ?_
  · simp only [decide_eq_true_eq] at hx hy
    omega
  · simp only [decide_eq_true_eq]
    constructor
    · rintro ⟨h, hm⟩
      rcases Nat.lt_or_ge b l.block with hlt | hle
      · exact .inr ⟨⟨hlt, h.2⟩, hm⟩
      · exact .inl ⟨⟨h.1, hle⟩, hm⟩
    · rintro (⟨h, hm⟩ | ⟨h, hm⟩)
      · exact ⟨⟨h.1, h.2.trans hd⟩, hm⟩
      · exact ⟨⟨by omega, h.2⟩, hm⟩
  · simp only [decide_eq_true_eq]
    omega

theorem getLogs_eq_nil {a b : Nat} (h : b < a) : c.getLogs addresses topics a b = [] := by
  unfold getLogs
  rw [List.filter_eq_nil_iff]
  intro l hl
  simp only [decide_eq_true_eq]
  omega

theorem getBatches_catchupLoop {span first : Nat} (hf : first < 2 ^ 64) :
    ∀ fuel start, first < start + fuel →
      c.getBatches addresses topics (catchupLoop span first fuel start) = c.getLogs addresses topics start first := by
  intro fuel
  induction fuel with
  | zero =>
    intro start h
    rw [c.getLogs_eq_nil (by omega)]
    rfl
  | succ fuel ih =>
    intro start h
    unfold catchupLoop
    by_cases hs : start ≤ first
    · rw [if_pos hs]
      generalize hstop : min (satAdd start (span - 1)) first = stop
      unfold satAdd at hstop
      have hle : start ≤ stop := by omega
      have hlast : stop ≤ first := by omega
      dsimp only
      unfold getBatches at ih ⊢
      rw [List.flatMap_cons]
      by_cases he : stop ≥ first
      · rw [if_pos he, show stop = first by omega]
        simp
      · rw [if_neg he, ih (stop + 1) (by omega)]
        exact c.getLogs_append (by omega) hlast
    · rw [if_neg hs, c.getLogs_eq_nil (by omega)]
      rfl

/-- **The catch-up ranges cover the blocks after the cursor, up to `first`, once each.** -/
theorem getBatches_catchupBatches {last maxBlocks first : Nat} (hf : first < 2 ^ 64) :
    c.getBatches addresses topics (catchupBatches last maxBlocks first) =
      c.getLogs addresses topics (last + 1) first := by
  unfold catchupBatches
  rw [c.getBatches_catchupLoop hf _ _ (by omega)]
  unfold getLogs satAdd
  refine List.filter_congr fun l hl => ?_
  have := (c.mined l hl).bounded
  simp only [decide_eq_decide]
  refine and_congr_left fun _ => and_congr_left fun _ => ?_
  omega

end Chain

/-! ## The relevant logs -/

namespace Chain
variable {c : Chain} {addresses : List Address} {topics : List Topic}

theorem relevant_mined {l : Log} (h : l ∈ c.relevant addresses topics) : l.Mined := c.mined l (List.mem_filter.1 h).1

theorem relevant_sorted (c : Chain) (addresses : List Address) (topics : List Topic) :
    (c.relevant addresses topics).Pairwise fun l m => l.place < m.place :=
  c.sorted.sublist List.filter_sublist

theorem relevant_nodup (c : Chain) (addresses : List Address) (topics : List Topic) :
    (c.relevant addresses topics).Nodup :=
  (c.relevant_sorted addresses topics).imp fun h he => by simp [he] at h

/-- No two mined logs share their key. -/
theorem eq_of_key {l m : Log} (hl : l ∈ c.logs) (hm : m ∈ c.logs) (h : l.key? = m.key?) : l = m := by
  have : Std.Symm fun a b : Log => a.key? ≠ b.key? := ⟨fun _ _ h => h.symm⟩
  by_contra hne
  exact c.keys.forall hl hm hne h

end Chain

/-! ## What a gap fetch takes -/

namespace WebsocketBlockSource

/-- The floor is not after any queued log. -/
theorem firstQueuedPosition_le {latest : Nat} {events : List Log} {l : Log} {p : LogPosition} (hl : l ∈ events)
    (hp : l.position = some p) : firstQueuedPosition latest events ≤ p := by
  unfold firstQueuedPosition
  have hmem : p ∈ events.filterMap Log.position := List.mem_filterMap.2 ⟨l, hl, hp⟩
  cases hm : (events.filterMap Log.position).min? with
  | none =>
    rw [List.min?_eq_none_iff.1 hm] at hmem
    cases hmem
  | some q => exact (List.min?_eq_some_iff.1 hm).2 p hmem

theorem firstQueuedPosition_block {latest : Nat} {events : List Log} (hlatest : latest < 2 ^ 64)
    (hm : ∀ l ∈ events, l.Mined) : (firstQueuedPosition latest events).block < 2 ^ 64 := by
  unfold firstQueuedPosition
  cases hmin : (events.filterMap Log.position).min? with
  | none => exact hlatest
  | some p =>
    obtain ⟨l, hl, hp⟩ := List.mem_filterMap.1 (List.min?_eq_some_iff.1 hmin).1
    rw [(hm l hl).position] at hp
    have := (hm l hl).bounded
    rw [← Option.some.inj hp]
    exact Nat.lt_of_succ_lt this

variable {src : WebsocketBlockSource} {c : Chain} {addresses : List Address} {g : Gap}

/-- The mined logs of the gap that bootstrap has not applied. -/
def gapLogs (src : WebsocketBlockSource) (c : Chain) (addresses : List Address) (g : Gap) : List Log :=
  (c.relevant addresses src.topics).filter fun l => g.Holds l.place ∧ src.fillFloor ≤ l.place

theorem bootstrapBlock_perm {xs ys : List Log} (h : xs.Perm ys) : src.bootstrapBlock xs = src.bootstrapBlock ys := by
  unfold bootstrapBlock
  have hp : (xs.filterMap (·.blockNumber)).Perm (ys.filterMap (·.blockNumber)) := h.filterMap _
  congr 1
  cases hx : (xs.filterMap (·.blockNumber)).max? with
  | none =>
    rw [List.max?_eq_none_iff] at hx
    rw [hx] at hp
    rw [hp.symm.eq_nil]
    rfl
  | some b =>
    obtain ⟨hb, hle⟩ := List.max?_eq_some_iff.1 hx
    exact (List.max?_eq_some_iff.2 ⟨hp.mem_iff.1 hb, fun x hx => hle x (hp.mem_iff.2 hx)⟩).symm

theorem le_bootstrapBlock {events : List Log} {l : Log} (hl : l ∈ events) (hb : l.blockNumber = some l.block) :
    l.block ≤ src.bootstrapBlock events := by
  have hmem : l.block ∈ events.filterMap (·.blockNumber) := List.mem_filterMap.2 ⟨l, hl, hb⟩
  unfold bootstrapBlock
  cases hx : (events.filterMap (·.blockNumber)).max? with
  | none =>
    rw [List.max?_eq_none_iff] at hx
    rw [hx] at hmem
    cases hmem
  | some b => exact (List.max?_eq_some_iff.1 hx).2 _ hmem

/-- Bootstrap's cursor is not before its floor. -/
theorem fillFloor_le_bootstrapBlock {events : List Log}
    (h : ∀ l ∈ events, l.blockNumber = some l.block ∧ src.fillFloor ≤ l.place) :
    src.fillFloor.block ≤ src.bootstrapBlock events := by
  cases events with
  | nil => exact le_rfl
  | cons l ls =>
    obtain ⟨hb, hf⟩ := h l List.mem_cons_self
    exact (LogPosition.block_le hf).trans (le_bootstrapBlock List.mem_cons_self hb)

theorem wants_mined {l : Log} (hl : l.Mined) : src.wants g l = decide (g.Holds l.place ∧ src.fillFloor ≤ l.place) := by
  unfold wants
  rw [hl.kept, hl.position]
  simp

/-- Claiming logs whose keys are new and pairwise different takes all that are wanted. -/
theorem foldl_claimMissed {ls : List Log} {s : EventQueue × List Log} (hm : ∀ l ∈ ls, l.Mined)
    (hk : ls.Pairwise fun a b => a.key? ≠ b.key?)
    (hf : ∀ l ∈ ls, src.wants g l → ∀ k, l.key? = some k → k ∉ s.1.recent) :
    (ls.foldl (src.claimMissed g) s).2 = s.2 ++ ls.filter (src.wants g) ∧
    (ls.foldl (src.claimMissed g) s).1.queue = s.1.queue ∧ (ls.foldl (src.claimMissed g) s).1.gaps = s.1.gaps ∧
    ∀ k ∈ (ls.foldl (src.claimMissed g) s).1.recent, k ∈ s.1.recent ∨ ∃ l ∈ ls.filter (src.wants g), l.key? = some k := by
  induction ls generalizing s with
  | nil => simp
  | cons l ls ih =>
    obtain ⟨hkl, hk⟩ := List.pairwise_cons.1 hk
    have hm' : ∀ l ∈ ls, l.Mined := fun l hl => hm l (List.mem_cons_of_mem _ hl)
    rw [List.foldl_cons]
    by_cases hw : src.wants g l
    · obtain ⟨k, hlk⟩ := Option.isSome_iff_exists.1 (hm l List.mem_cons_self).key
      obtain ⟨kept, hkept, hrec⟩ := EventQueue.record_fresh hlk (hf l List.mem_cons_self hw k hlk)
      have hstep : src.claimMissed g s l = ({ s.1 with recent := kept ++ [k] }, s.2 ++ [l]) := by
        unfold claimMissed EventQueue.claim
        rw [if_pos hw, hrec]
      rw [hstep]
      obtain ⟨h1, h2, h3, h4⟩ := ih (s := ({ s.1 with recent := kept ++ [k] }, s.2 ++ [l])) hm' hk (by
        intro l' hl' hw' k' hk' hmem
        rcases List.mem_append.1 hmem with hmem | hmem
        · exact hf l' (List.mem_cons_of_mem _ hl') hw' k' hk' (hkept k' hmem)
        · rw [List.mem_singleton.1 hmem] at hk'
          exact hkl l' hl' (hlk.trans hk'.symm))
      refine ⟨by rw [h1, List.filter_cons_of_pos hw, List.append_assoc]; rfl, h2, h3, fun x hx => ?_⟩
      rw [List.filter_cons_of_pos hw]
      rcases h4 x hx with hx | ⟨l', hl', hx⟩
      · rcases List.mem_append.1 hx with hx | hx
        · exact .inl (hkept x hx)
        · rw [List.mem_singleton.1 hx]
          exact .inr ⟨l, List.mem_cons_self, hlk⟩
      · exact .inr ⟨l', List.mem_cons_of_mem _ hl', hx⟩
    · have hstep : src.claimMissed g s l = s := if_neg hw
      rw [hstep, List.filter_cons_of_neg hw]
      exact ih hm' hk fun l' hl' => hf l' (List.mem_cons_of_mem _ hl')

/-- The blocks queried hold every log the gap wants. -/
theorem filter_wants_getBatches (src : WebsocketBlockSource) (c : Chain) (addresses : List Address)
    (hb : g.before.block < 2 ^ 64) :
    (c.getBatches addresses src.topics (catchupBatches
      (max (g.after.elim src.fillFloor.block LogPosition.block) src.fillFloor.block - 1) src.maxBlocksPerBatch
      g.before.block)).filter (src.wants g) = src.gapLogs c addresses g := by
  rw [c.getBatches_catchupBatches hb]
  unfold Chain.getLogs gapLogs Chain.relevant
  rw [List.filter_filter, List.filter_filter]
  refine List.filter_congr fun l hl => ?_
  have hl := c.mined l hl
  rw [wants_mined hl]
  by_cases hin : g.Holds l.place ∧ src.fillFloor ≤ l.place
  · have h1 : src.fillFloor.block ≤ l.block := LogPosition.block_le hin.2
    have h2 : l.block ≤ g.before.block := LogPosition.block_le hin.1.2.le
    have h3 : g.after.elim src.fillFloor.block LogPosition.block ≤ l.block := by
      cases ha : g.after with
      | none => exact h1
      | some a => exact LogPosition.block_le (hin.1.1 a ha).le
    have h4 := hl.genesis
    simp only [hin, and_self, decide_true, Bool.true_and, Bool.decide_and, h2, Bool.and_true]
    rw [decide_eq_true (by omega), Bool.true_and]
    simp
  · simp [hin]

/-- A gap that the fetch skips holds nothing. -/
theorem gapLogs_eq_nil (hskip : g.before ≤ src.fillFloor ∨ g.after.any (g.before ≤ ·)) : src.gapLogs c addresses g = [] := by
  unfold gapLogs
  rw [List.filter_eq_nil_iff]
  intro l hl hin
  obtain ⟨⟨ha, hlt⟩, hfl⟩ := of_decide_eq_true hin
  rcases hskip with h | h
  · exact absurd (h.trans hfl) (not_le.2 hlt)
  · obtain ⟨a, hga, hle⟩ := (Option.any_eq_true ..).1 h
    exact absurd (lt_of_lt_of_le ((ha a hga).trans hlt) (of_decide_eq_true hle)) (lt_irrefl _)

/-- **A gap fetch takes the gap's logs**, as long as none of their keys is among the recent ones. -/
theorem fetchGap_spec {q : EventQueue} (hb : g.before.block < 2 ^ 64)
    (hf : ∀ l ∈ src.gapLogs c addresses g, ∀ k, l.key? = some k → k ∉ q.recent) :
    (src.fetchGap c addresses g q).2 = src.gapLogs c addresses g ∧
    (src.fetchGap c addresses g q).1.queue = q.queue ∧ (src.fetchGap c addresses g q).1.gaps = q.gaps ∧
    ∀ k ∈ (src.fetchGap c addresses g q).1.recent, k ∈ q.recent ∨ ∃ l ∈ src.gapLogs c addresses g, l.key? = some k := by
  unfold fetchGap
  by_cases hskip : g.before ≤ src.fillFloor ∨ g.after.any (g.before ≤ ·)
  · have hnil : src.gapLogs c addresses g = [] := gapLogs_eq_nil hskip
    rw [if_pos hskip, hnil]
    exact ⟨rfl, rfl, rfl, fun k hk => .inl hk⟩
  · rw [if_neg hskip]
    dsimp only
    have hfilter := filter_wants_getBatches src c addresses hb
    have hwant := fun (l : Log) hl (hw : src.wants g l) => hf l (by
      rw [← hfilter]
      exact List.mem_filter.2 ⟨hl, hw⟩)
    obtain ⟨h1, h2, h3, h4⟩ := foldl_claimMissed (s := (q, [])) (by
        rw [c.getBatches_catchupBatches hb]
        exact fun l hl => c.mined l (List.mem_filter.1 hl).1) (by
        rw [c.getBatches_catchupBatches hb]
        exact c.keys.sublist List.filter_sublist) hwant
    rw [hfilter] at h1 h4
    exact ⟨by rw [h1]; rfl, h2, h3, h4⟩

end WebsocketBlockSource

end EvmDexPool
