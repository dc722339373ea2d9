import Mathlib.Data.List.TakeWhile
import Std.Data.ExtTreeSet
import EvmDexPool.Collector.Polling

/-!
# Block times (`collector/event_queue.rs`, `collector/utils.rs`, `collector/block_source.rs`)

| here | there |
| --- | --- |
| `recordBlockTime`         | `EventSender::record_block_time` (event_queue.rs:177) |
| `recordPolled`            | what a poll does with the header it gets (block_source.rs:418-420) |
| `blocksNeedingTimestamps` | `blocks_needing_timestamps` (utils.rs:50) |
| `fetchBlockTimestamps`    | `fetch_block_timestamps` (utils.rs:123) |
| `enrichLogTimestampsWhere`| `enrich_log_timestamps_where` (utils.rs:99) |
| `enrichLbLogs`            | `enrich_if_lb_pools_present` (block_source.rs:24) |

A Liquidity Book log takes its time from a header: from one that a feed or the poll has seen, or else from one
that is fetched for it. Each request is listed with its number among the requests for its block; the RPC's
answers are a parameter.
-/

namespace EvmDexPool

open Std

/-- Times by block number. -/
abbrev BlockTimes := ExtTreeMap Nat Nat

/-- `BLOCK_TIMES_KEPT` (event_queue.rs:13). -/
def BLOCK_TIMES_KEPT : Nat := 64

/-- `HEADER_FETCH_ATTEMPTS` (utils.rs:12). -/
def HEADER_FETCH_ATTEMPTS : Nat := 3

namespace BlockTimes

/-- The oldest is popped as long as it is not to be kept (event_queue.rs:184-189). -/
def popOlder (oldestKept : Nat) : Nat → BlockTimes → BlockTimes
  | 0, times => times
  | fuel + 1, times =>
    match times.minKey? with
    | some n => if n < oldestKept then popOlder oldestKept fuel (times.erase n) else times
    | none => times

def recordBlockTime (times : BlockTimes) (number timestamp : Nat) : Except Fault BlockTimes :=
  let times : BlockTimes := times.insert number timestamp
  match times.maxKey? with
  | some newest =>
    if newest + 1 < 2 ^ 64 then .ok (popOlder (newest + 1 - BLOCK_TIMES_KEPT) times.size times) else .error .overflow
  | none => .error .panic

/-- The newest is the header polled last, whatever was polled before. -/
def recordPolled (times : BlockTimes) (latest time : Nat) : Except Fault BlockTimes :=
  let times : BlockTimes := times.insert latest time
  if times.keys.all (· + KNOWN_BLOCK_TIMES_KEPT < 2 ^ 64) then
    .ok (times.filter fun n _ => n + KNOWN_BLOCK_TIMES_KEPT > latest)
  else .error .overflow

/-- Headers as they come in, each a block's number and its time. -/
def recordAll (record : BlockTimes → Nat → Nat → Except Fault BlockTimes) (headers : List (Nat × Nat)) : Except Fault BlockTimes :=
  headers.foldlM (fun times h => record times h.1 h.2) ∅

end BlockTimes

/-! ## Enrichment -/

/-- In the order of a `BTreeSet`. -/
def blocksNeedingTimestamps (wanted : Log → Bool) (known : BlockTimes) (logs : List Log) : List Nat :=
  (ExtTreeSet.ofList (((logs.filter fun l => wanted l && l.lacksBlockTimestamp).filterMap (·.blockNumber)).filter
    fun n => !known.contains n)).toList

/-- What one request for a block's header is answered: the header's time, or no block, or an error. -/
abbrev HeaderAnswer := Except String (Option Nat)

/-- One block's header, asked for again until it comes (utils.rs:132-157): the requests made and what came. -/
def fetchHeader (header : Nat → HeaderAnswer) : Nat → Nat → String → List Nat × Except String Nat
  | 0, _, lastReason => ([], .error lastReason)
  | left + 1, attempt, _ =>
    match header attempt with
    | .ok (some time) => ([attempt], .ok time)
    | .ok none =>
      let rest := fetchHeader header left (attempt + 1) "no block returned"
      (attempt :: rest.1, rest.2)
    | .error e =>
      let rest := fetchHeader header left (attempt + 1) e
      (attempt :: rest.1, rest.2)

/-- The requests, and the times of the blocks whose header came. -/
def fetchBlockTimestamps (header : Nat → Nat → HeaderAnswer) (blocks : List Nat) : List (Nat × Nat) × BlockTimes :=
  let results := blocks.map fun n => (n, fetchHeader (header n) HEADER_FETCH_ATTEMPTS 1 "")
  (results.flatMap fun e => e.2.1.map fun attempt => (e.1, attempt),
    results.foldl (fun fetched e =>
      match e.2.2 with
      | .ok time => fetched.insert e.1 time
      | .error _ => fetched) ∅)

def enrichLogTimestampsWhere (header : Nat → Nat → HeaderAnswer) (wanted : Log → Bool) (known : BlockTimes) (logs : List Log) :
    List (Nat × Nat) × List Log :=
  match blocksNeedingTimestamps wanted known logs with
  | [] => ([], logs.map (·.fillBlockTimestamp wanted fun n => known[n]?))
  | toFetch =>
    let fetched := fetchBlockTimestamps header toFetch
    let times : BlockTimes := known ∪ fetched.2
    (fetched.1, logs.map (·.fillBlockTimestamp wanted fun n => times[n]?))

/-- The requests, and the logs with the times of the Liquidity Book ones. -/
def PoolRegistry.enrichLbLogs {π : Type} [PoolInterface π] (r : PoolRegistry π) (header : Nat → Nat → HeaderAnswer)
    (known : BlockTimes) (events : List Log) : List (Nat × Nat) × List Log :=
  let lb := r.getAddressesByType .TraderJoeLB
  if lb = [] then ([], events) else enrichLogTimestampsWhere header (fun l => l.address ∈ lb) known events

/-! ## What is kept -/

namespace BlockTimes

variable {times : BlockTimes} {hs : List (Nat × Nat)}

theorem popOlder_lookup {oldestKept fuel : Nat} (h : times.size ≤ fuel) (n : Nat) :
    (popOlder oldestKept fuel times)[n]? = if n < oldestKept then none else times[n]? := by
  induction fuel generalizing times with
  | zero =>
    have hnone : times = ∅ := ExtTreeMap.eq_empty_iff_size_eq_zero.2 (Nat.le_zero.1 h)
    simp [popOlder, hnone]
  | succ fuel ih =>
    unfold popOlder
    cases hmin : times.minKey? with
    | none =>
      have hnone : times = ∅ := by simpa using hmin
      simp [hnone]
    | some oldest =>
      obtain ⟨hmem, hle⟩ := ExtTreeMap.minKey?_eq_some_iff_mem_and_forall.1 hmin
      dsimp only
      split
      · next hlt =>
        rw [ih (by rw [ExtTreeMap.size_erase, if_pos (ExtTreeMap.mem_iff_contains.1 hmem)]; omega), Ranges.lookup_erase]
        split
        · rfl
        · rw [if_neg (by omega)]
      · next hlt =>
        split
        · next hn =>
          apply ExtTreeMap.getElem?_eq_none
          intro hk
          have := Nat.isLE_compare.1 (hle n hk)
          omega
        · rfl

/-- A header read after some others. -/
theorem recordAll_concat (record : BlockTimes → Nat → Nat → Except Fault BlockTimes) (hs : List (Nat × Nat)) (h : Nat × Nat) :
    recordAll record (hs ++ [h]) = recordAll record hs >>= fun times => record times h.1 h.2 := by
  simp [recordAll, List.foldlM_append]

theorem lookup_cons (h : Nat × Nat) (l : List (Nat × Nat)) (n : Nat) :
    (h :: l).lookup n = if n = h.1 then some h.2 else l.lookup n := by
  obtain ⟨k, time⟩ := h
  by_cases hn : n = k
  · simp [hn]
  · simp [hn, List.lookup_cons, beq_false_of_ne hn]

/-- The time in the header that came last, of those of the block. -/
def lastTime (hs : List (Nat × Nat)) (n : Nat) : Option Nat := hs.reverse.lookup n

/-- It, unless a block 64 or more above has been announced. -/
def announced (hs : List (Nat × Nat)) (n : Nat) : Option Nat :=
  if ∀ h ∈ hs, h.1 < n + BLOCK_TIMES_KEPT then lastTime hs n else none

theorem mem_of_lastTime {n time : Nat} (h : lastTime hs n = some time) : (n, time) ∈ hs := by
  rw [lastTime, List.lookup_eq_some_iff] at h
  obtain ⟨l₁, l₂, heq, -⟩ := h
  rw [← List.mem_reverse, heq]
  simp

theorem recordBlockTime_eq {number timestamp newest : Nat} (hmem : number = newest ∨ newest ∈ times) (hnumber : number ≤ newest)
    (hle : ∀ k ∈ times, k ≤ newest) (hfit : newest + 1 < 2 ^ 64) :
    ∃ times', recordBlockTime times number timestamp = .ok times' ∧
      ∀ n, times'[n]? = if newest < n + BLOCK_TIMES_KEPT then (if n = number then some timestamp else times[n]?) else none := by
  have hmax : (times.insert number timestamp).maxKey? = some newest := by
    rw [ExtTreeMap.maxKey?_eq_some_iff_mem_and_forall]
    simp only [ExtTreeMap.mem_insert, Std.compare_eq_iff_eq, Nat.isLE_compare]
    refine ⟨hmem, ?_⟩
    rintro k (rfl | hk)
    · exact hnumber
    · exact hle k hk
  unfold recordBlockTime
  dsimp only
  rw [hmax]
  dsimp only
  rw [if_pos hfit]
  refine ⟨_, rfl, fun n => ?_⟩
  rw [popOlder_lookup le_rfl, Ranges.lookup_insert]
  by_cases hn : newest < n + BLOCK_TIMES_KEPT
  · rw [if_pos hn, if_neg (by unfold BLOCK_TIMES_KEPT at *; omega)]
  · rw [if_neg hn, if_pos (by unfold BLOCK_TIMES_KEPT at *; omega)]

/-- **The queue keeps a window of the newest blocks**, whatever the order of the headers. -/
theorem recordAll_announced (hfit : ∀ h ∈ hs, h.1 + 1 < 2 ^ 64) :
    ∃ known, recordAll recordBlockTime hs = .ok known ∧ ∀ n, known[n]? = announced hs n := by
  induction hs using List.reverseRecOn with
  | nil => exact ⟨∅, rfl, fun n => by simp [announced, lastTime]⟩
  | append_singleton hs h ih =>
    obtain ⟨known, hknown, hlookup⟩ := ih fun g hg => hfit g (List.mem_append_left _ hg)
    obtain ⟨newest, hnewest⟩ : ∃ newest, ((hs ++ [h]).map (·.1)).max? = some newest :=
      Option.isSome_iff_exists.1 (by simp [List.isSome_max?_iff])
    rw [List.max?_eq_some_iff] at hnewest
    obtain ⟨hmem, hle⟩ := hnewest
    obtain ⟨g, hg, rfl⟩ := List.mem_map.1 hmem
    have hle : ∀ f ∈ hs ++ [h], f.1 ≤ g.1 := fun f hf => hle _ (List.mem_map_of_mem hf)
    have hin : ∀ k ∈ known, k ≤ g.1 := by
      intro k hk
      obtain ⟨time, htime⟩ := Option.isSome_iff_exists.1 (ExtTreeMap.mem_iff_isSome_getElem?.1 hk)
      rw [hlookup, announced] at htime
      split at htime
      · exact hle _ (List.mem_append_left _ (mem_of_lastTime htime))
      · cases htime
    have hcases : h.1 = g.1 ∨ g.1 ∈ known := by
      rcases List.mem_append.1 hg with hg | hg
      · right
        rw [ExtTreeMap.mem_iff_isSome_getElem?, hlookup, announced, if_pos, lastTime, List.lookup_isSome_iff]
        · exact ⟨g, List.mem_reverse.2 hg, beq_self_eq_true _⟩
        · intro f hf
          have := hle f (List.mem_append_left _ hf)
          unfold BLOCK_TIMES_KEPT
          omega
      · exact .inl (congrArg Prod.fst (List.mem_singleton.1 hg)).symm
    obtain ⟨times, hrecord, htimes⟩ := @recordBlockTime_eq _ _ h.2 _ hcases (hle h (by simp)) hin (hfit g hg)
    refine ⟨times, by rw [recordAll_concat, hknown]; exact hrecord, fun n => ?_⟩
    rw [htimes, hlookup, announced, announced, lastTime, lastTime, List.reverse_concat, lookup_cons]
    by_cases hlt : g.1 < n + BLOCK_TIMES_KEPT
    · have hall : ∀ f ∈ hs ++ [h], f.1 < n + BLOCK_TIMES_KEPT := fun f hf => (hle f hf).trans_lt hlt
      rw [if_pos hlt, if_pos fun f hf => hall f (List.mem_append_left _ hf), if_pos hall]
    · rw [if_neg hlt, if_neg fun hall => hlt (hall g hg)]

/-- The newest header for the block, unless a poll since then has had one 64 or more above it. -/
def polled (hs : List (Nat × Nat)) (n : Nat) : Option Nat :=
  (hs.reverse.takeWhile fun h => h.1 < n + KNOWN_BLOCK_TIMES_KEPT).lookup n

theorem recordPolled_eq {latest time : Nat} (hlatest : latest + KNOWN_BLOCK_TIMES_KEPT < 2 ^ 64)
    (hfit : ∀ n ∈ times, n + KNOWN_BLOCK_TIMES_KEPT < 2 ^ 64) :
    ∃ times', recordPolled times latest time = .ok times' ∧
      ∀ n, times'[n]? = if latest < n + KNOWN_BLOCK_TIMES_KEPT then (if n = latest then some time else times[n]?) else none := by
  have hall : (times.insert latest time).keys.all (· + KNOWN_BLOCK_TIMES_KEPT < 2 ^ 64) := by
    simp only [List.all_eq_true, ExtTreeMap.mem_keys, ExtTreeMap.mem_insert, Std.compare_eq_iff_eq, decide_eq_true_eq]
    rintro n (rfl | hn)
    · exact hlatest
    · exact hfit n hn
  unfold recordPolled
  dsimp only
  rw [if_pos hall]
  refine ⟨_, rfl, fun n => ?_⟩
  rw [ExtTreeMap.getElem?_filter', Ranges.lookup_insert]
  by_cases hn : latest < n + KNOWN_BLOCK_TIMES_KEPT <;> cases (if n = latest then some time else times[n]?) <;> simp [hn]

/-- **The poll keeps a window that follows the header polled last.** -/
theorem recordAll_polled (hfit : ∀ h ∈ hs, h.1 + KNOWN_BLOCK_TIMES_KEPT < 2 ^ 64) :
    ∃ known, recordAll recordPolled hs = .ok known ∧ ∀ n, known[n]? = polled hs n := by
  induction hs using List.reverseRecOn with
  | nil => exact ⟨∅, rfl, fun n => by simp [polled]⟩
  | append_singleton hs h ih =>
    obtain ⟨known, hknown, hlookup⟩ := ih fun g hg => hfit g (List.mem_append_left _ hg)
    have hin : ∀ n ∈ known, n + KNOWN_BLOCK_TIMES_KEPT < 2 ^ 64 := by
      intro n hn
      obtain ⟨time, htime⟩ := Option.isSome_iff_exists.1 (ExtTreeMap.mem_iff_isSome_getElem?.1 hn)
      rw [hlookup, polled, List.lookup_eq_some_iff] at htime
      obtain ⟨l₁, l₂, heq, -⟩ := htime
      have hmem : (n, time) ∈ hs.reverse := (List.takeWhile_sublist _).subset (by rw [heq]; simp)
      exact hfit (n, time) (List.mem_append_left _ (List.mem_reverse.1 hmem))
    obtain ⟨times, hrecord, htimes⟩ := @recordPolled_eq _ _ h.2 (hfit h (by simp)) hin
    refine ⟨times, by rw [recordAll_concat, hknown]; exact hrecord, fun n => ?_⟩
    rw [htimes, hlookup, polled, polled, List.reverse_concat, List.takeWhile_cons]
    by_cases hlt : h.1 < n + KNOWN_BLOCK_TIMES_KEPT
    · rw [if_pos hlt, decide_eq_true hlt, if_pos rfl, lookup_cons]
    · simp [hlt]

end BlockTimes

/-! ## What is fetched -/

/-- The time an answer has. -/
def HeaderAnswer.time : HeaderAnswer → Option Nat
  | .ok time => time
  | .error _ => none

/-- The header that comes first, of those asked for. -/
def answered (header : Nat → HeaderAnswer) : Option Nat :=
  (List.range' 1 HEADER_FETCH_ATTEMPTS).findSome? fun attempt => (header attempt).time

/-- Every request goes out because none before it was answered. -/
theorem mem_fetchHeader {header : Nat → HeaderAnswer} {left attempt k : Nat} {reason : String} :
    k ∈ (fetchHeader header left attempt reason).1 ↔
      attempt ≤ k ∧ k < attempt + left ∧ ∀ j, attempt ≤ j → j < k → (header j).time = none := by
  induction left generalizing attempt reason with
  | zero =>
    simp only [fetchHeader, List.not_mem_nil, false_iff]
    omega
  | succ left ih =>
    have hrest : ∀ reason', (header attempt).time = none →
        (k ∈ attempt :: (fetchHeader header left (attempt + 1) reason').1 ↔
          attempt ≤ k ∧ k < attempt + (left + 1) ∧ ∀ j, attempt ≤ j → j < k → (header j).time = none) := by
      intro reason' hnone
      rw [List.mem_cons, ih]
      constructor
      · rintro (rfl | ⟨hle, hlt, hbefore⟩)
        · exact ⟨le_rfl, by omega, fun j hj hj' => by omega⟩
        · refine ⟨by omega, by omega, fun j hj hj' => ?_⟩
          rcases Nat.eq_or_lt_of_le hj with rfl | hj
          · exact hnone
          · exact hbefore j hj hj'
      · rintro ⟨hle, hlt, hbefore⟩
        rcases Nat.eq_or_lt_of_le hle with rfl | hle
        · exact .inl rfl
        · exact .inr ⟨hle, by omega, fun j hj hj' => hbefore j (by omega) hj'⟩
    unfold fetchHeader
    cases hh : header attempt with
    | error e => exact hrest e (by rw [hh]; rfl)
    | ok time =>
      cases time with
      | none => exact hrest _ (by rw [hh]; rfl)
      | some time =>
        dsimp only
        rw [List.mem_singleton]
        constructor
        · rintro rfl
          exact ⟨le_rfl, by omega, fun j hj hj' => by omega⟩
        · rintro ⟨hle, -, hbefore⟩
          by_contra hne
          have := hbefore attempt le_rfl (by omega)
          rw [hh] at this
          cases this

theorem fetchHeader_sorted (header : Nat → HeaderAnswer) (left attempt : Nat) (reason : String) :
    (fetchHeader header left attempt reason).1.Pairwise (· < ·) := by
  induction left generalizing attempt reason with
  | zero => exact List.Pairwise.nil
  | succ left ih =>
    have hrest : ∀ reason', (attempt :: (fetchHeader header left (attempt + 1) reason').1).Pairwise (· < ·) :=
      fun reason' => List.pairwise_cons.2 ⟨fun k hk => (mem_fetchHeader.1 hk).1, ih ..⟩
    unfold fetchHeader
    split
    · exact List.pairwise_singleton ..
    · exact hrest _
    · exact hrest _

theorem fetchHeader_time (header : Nat → HeaderAnswer) (left attempt : Nat) (reason : String) :
    (fetchHeader header left attempt reason).2.toOption = (List.range' attempt left).findSome? fun k => (header k).time := by
  induction left generalizing attempt reason with
  | zero => rfl
  | succ left ih =>
    unfold fetchHeader
    rw [List.range'_succ, List.findSome?_cons]
    cases hh : header attempt with
    | error e => exact ih ..
    | ok time =>
      cases time with
      | none => exact ih ..
      | some time => rfl

/-- Blocks whose header never came have no time. -/
theorem fetchBlockTimestamps_lookup (header : Nat → Nat → HeaderAnswer) (blocks : List Nat) (n : Nat) :
    (fetchBlockTimestamps header blocks).2[n]? = if n ∈ blocks then answered (header n) else none := by
  unfold fetchBlockTimestamps
  dsimp only
  rw [List.foldl_map]
  induction blocks using List.reverseRecOn with
  | nil => rw [List.foldl_nil, ExtTreeMap.getElem?_empty, if_neg List.not_mem_nil]
  | append_singleton blocks m ih =>
    have htime : (fetchHeader (header m) HEADER_FETCH_ATTEMPTS 1 "").2.toOption = answered (header m) := fetchHeader_time ..
    rw [List.foldl_append, List.foldl_cons, List.foldl_nil]
    dsimp only at ih ⊢
    cases hm : (fetchHeader (header m) HEADER_FETCH_ATTEMPTS 1 "").2 with
    | ok time =>
      rw [hm] at htime
      dsimp only
      rw [Ranges.lookup_insert, ih]
      by_cases hn : n = m
      · simp [hn, ← htime, Except.toOption]
      · simp [hn]
    | error reason =>
      rw [hm] at htime
      dsimp only
      rw [ih]
      by_cases hn : n = m
      · simp [hn, ← htime, Except.toOption]
      · simp [hn]

theorem mem_blocksNeedingTimestamps {wanted : Log → Bool} {known : BlockTimes} {logs : List Log} {n : Nat} :
    n ∈ blocksNeedingTimestamps wanted known logs ↔
      (∃ l ∈ logs, wanted l ∧ l.lacksBlockTimestamp ∧ l.blockNumber = some n) ∧ known[n]? = none := by
  unfold blocksNeedingTimestamps
  rw [ExtTreeSet.mem_toList, ExtTreeSet.mem_ofList]
  simp only [List.contains_iff_mem, List.mem_filter, List.mem_filterMap, Bool.and_eq_true, Bool.not_eq_true',
    ExtTreeMap.contains_eq_isSome_getElem?, Option.isSome_eq_false_iff, Option.isNone_iff_eq_none, and_assoc]

theorem blocksNeedingTimestamps_nodup (wanted : Log → Bool) (known : BlockTimes) (logs : List Log) :
    (blocksNeedingTimestamps wanted known logs).Nodup :=
  ExtTreeSet.distinct_toList.imp fun h he => h (Std.compare_eq_iff_eq.2 he)

/-- A log takes its time from its own block's only. -/
theorem Log.fillBlockTimestamp_congr {wanted : Log → Bool} {times times' : Nat → Option Nat} {l : Log}
    (h : wanted l → l.lacksBlockTimestamp → ∀ n, l.blockNumber = some n → times n = times' n) :
    l.fillBlockTimestamp wanted times = l.fillBlockTimestamp wanted times' := by
  unfold fillBlockTimestamp
  split
  · next hw =>
    cases hn : l.blockNumber with
    | none => rfl
    | some n => simp only [Option.bind_some, h hw.1 hw.2 n hn]
  · rfl

/-- The logs are filled from the times known, and those of the headers that came. -/
theorem enrichLogTimestampsWhere_logs (header : Nat → Nat → HeaderAnswer) (wanted : Log → Bool) (known : BlockTimes) (logs : List Log) :
    (enrichLogTimestampsWhere header wanted known logs).2 =
      logs.map (·.fillBlockTimestamp wanted fun n => known[n]?.or (answered (header n))) := by
  have hmem : ∀ n, _ := fun n => @mem_blocksNeedingTimestamps wanted known logs n
  unfold enrichLogTimestampsWhere
  split
  · next hnil =>
    refine List.map_congr_left fun l hl => Log.fillBlockTimestamp_congr fun hw hlacks n hn => ?_
    rw [hnil] at hmem
    cases hk : known[n]? with
    | some time => rfl
    | none => exact absurd ((hmem n).2 ⟨⟨l, hl, hw, hlacks, hn⟩, hk⟩) List.not_mem_nil
  · refine List.map_congr_left fun l hl => Log.fillBlockTimestamp_congr fun hw hlacks n hn => ?_
    rw [ExtTreeMap.getElem?_union, fetchBlockTimestamps_lookup]
    cases hk : known[n]? with
    | some time =>
      rw [if_neg fun h => by simpa [hk] using ((hmem n).1 h).2]
      rfl
    | none =>
      rw [if_pos ((hmem n).2 ⟨⟨l, hl, hw, hlacks, hn⟩, hk⟩), Option.or_none]
      rfl

/-- A header is asked for when a log wants it, its time is not known, and no request for it has been answered. -/
theorem mem_enrichLogTimestampsWhere {header : Nat → Nat → HeaderAnswer} {wanted : Log → Bool} {known : BlockTimes}
    {logs : List Log} {n k : Nat} :
    (n, k) ∈ (enrichLogTimestampsWhere header wanted known logs).1 ↔
      ((∃ l ∈ logs, wanted l ∧ l.lacksBlockTimestamp ∧ l.blockNumber = some n) ∧ known[n]? = none) ∧
        1 ≤ k ∧ k ≤ HEADER_FETCH_ATTEMPTS ∧ ∀ j, 1 ≤ j → j < k → (header n j).time = none := by
  have hrequests := @mem_fetchHeader (header n) HEADER_FETCH_ATTEMPTS 1 k ""
  rw [Nat.add_comm, Nat.lt_succ_iff] at hrequests
  rw [← mem_blocksNeedingTimestamps, ← hrequests]
  unfold enrichLogTimestampsWhere
  split
  · next hnil => simp [hnil]
  · simp [fetchBlockTimestamps]

theorem enrichLogTimestampsWhere_nodup (header : Nat → Nat → HeaderAnswer) (wanted : Log → Bool) (known : BlockTimes)
    (logs : List Log) : (enrichLogTimestampsWhere header wanted known logs).1.Nodup := by
  have hnodup := blocksNeedingTimestamps_nodup wanted known logs
  unfold enrichLogTimestampsWhere
  split
  · exact List.nodup_nil
  · unfold fetchBlockTimestamps
    dsimp only
    rw [List.flatMap_map, List.nodup_flatMap]
    constructor
    · intro n _
      exact List.Nodup.map (fun j k h => by simpa using h) ((fetchHeader_sorted ..).imp Nat.ne_of_lt)
    · refine hnodup.imp fun {m n} hne => ?_
      simp only [Function.onFun, List.disjoint_left, List.mem_map]
      rintro ⟨_, _⟩ ⟨j, -, hj⟩ ⟨k, -, hk⟩
      simp only [Prod.mk.injEq] at hj hk
      exact hne (hj.1.trans hk.1.symm)

/-! ## The times the logs get -/

/-- One of the requests for the block is answered with its header. -/
def Answers (header : Nat → Nat → HeaderAnswer) (n : Nat) : Prop :=
  ∃ k time, 1 ≤ k ∧ k ≤ HEADER_FETCH_ATTEMPTS ∧ header n k = .ok (some time)

/-- What becomes of a log when the blocks' times are `T`: nothing but its time changes, and that only where it is
missing on one of the pools' logs, to its block's. -/
structure Log.Dated (lb : List Address) (T : Nat → Nat) (timed : Nat → Prop) (l l' : Log) : Prop where
  untimed : l'.untimed = l.untimed
  dated : l.address ∈ lb → l.lacksBlockTimestamp → ∀ n, l.blockNumber = some n → timed n → l'.blockTimestamp = some (T n)
  kept : (l.address ∈ lb → l.lacksBlockTimestamp → ∀ n, l.blockNumber = some n → ¬timed n) → l' = l

section
variable {T : Nat → Nat} {header : Nat → Nat → HeaderAnswer} {known : BlockTimes}

theorem HeaderAnswer.time_eq_some {a : HeaderAnswer} {time : Nat} : a.time = some time ↔ a = .ok (some time) := by
  cases a <;> simp [HeaderAnswer.time]

theorem answered_eq (hheader : ∀ n k time, header n k = .ok (some time) → time = T n) (n : Nat) :
    (Answers header n ∧ answered (header n) = some (T n)) ∨ (¬Answers header n ∧ answered (header n) = none) := by
  cases h : answered (header n) with
  | none =>
    refine .inr ⟨?_, rfl⟩
    rintro ⟨k, time, hk, hk', htime⟩
    have := List.findSome?_eq_none_iff.1 h k (List.mem_range'_1.2 ⟨hk, by omega⟩)
    rw [HeaderAnswer.time_eq_some.2 htime] at this
    cases this
  | some time =>
    obtain ⟨k, hk, htime⟩ := List.exists_of_findSome?_eq_some h
    rw [HeaderAnswer.time_eq_some] at htime
    rw [List.mem_range'_1] at hk
    exact .inl ⟨⟨k, time, hk.1, by omega, htime⟩, congrArg some (hheader n k time htime)⟩

theorem timed_eq (hknown : ∀ n, known[n]? = none ∨ known[n]? = some (T n))
    (hheader : ∀ n k time, header n k = .ok (some time) → time = T n) (n : Nat) :
    ((known[n]?.isSome ∨ Answers header n) ∧ known[n]?.or (answered (header n)) = some (T n)) ∨
      (¬(known[n]?.isSome ∨ Answers header n) ∧ known[n]?.or (answered (header n)) = none) := by
  rcases hknown n with hn | hn <;> rw [hn]
  · rcases answered_eq hheader n with ⟨ha, heq⟩ | ⟨ha, heq⟩
    · exact .inl ⟨.inr ha, heq⟩
    · exact .inr ⟨by simpa using ha, heq⟩
  · exact .inl ⟨.inl rfl, rfl⟩

theorem Log.dated_fillBlockTimestamp {lb : List Address} {timed : Nat → Prop} {times : Nat → Option Nat}
    (h : ∀ n, (timed n ∧ times n = some (T n)) ∨ (¬timed n ∧ times n = none)) (l : Log) :
    l.Dated lb T timed (l.fillBlockTimestamp (fun l => l.address ∈ lb) times) := by
  refine ⟨untimed_fillBlockTimestamp .., ?_, ?_⟩
  · intro hlb hlacks n hn htimed
    have htime := ((h n).resolve_right fun hno => hno.1 htimed).2
    simp [fillBlockTimestamp, hlb, hlacks, hn, htime]
  · intro hno
    unfold fillBlockTimestamp
    split
    · next hw =>
      cases hn : l.blockNumber with
      | none => rfl
      | some n =>
        have htime := ((h n).resolve_left fun hyes => hno (of_decide_eq_true hw.1) hw.2 n hn hyes.1).2
        rw [Option.bind_some, htime]
    · rfl

/-- **What the pools' logs are given is their block's time**, and headers are asked for those blocks only that are not known. -/
theorem PoolRegistry.enrichLbLogs_dated {π : Type} [PoolInterface π] (r : PoolRegistry π) (events : List Log)
    (hknown : ∀ n, known[n]? = none ∨ known[n]? = some (T n))
    (hheader : ∀ n k time, header n k = .ok (some time) → time = T n) :
    (r.enrichLbLogs header known events).2 = r.enrichIfLbPoolsPresent (fun n => known[n]?.or (answered (header n))) events ∧
    List.Forall₂ (Log.Dated (r.getAddressesByType .TraderJoeLB) T fun n => known[n]?.isSome ∨ Answers header n) events
      (r.enrichLbLogs header known events).2 ∧
    (r.enrichLbLogs header known events).1.Nodup ∧
    ∀ n k, (n, k) ∈ (r.enrichLbLogs header known events).1 ↔
      ((∃ l ∈ events, l.address ∈ r.getAddressesByType .TraderJoeLB ∧ l.lacksBlockTimestamp ∧ l.blockNumber = some n) ∧
        known[n]? = none) ∧ 1 ≤ k ∧ k ≤ HEADER_FETCH_ATTEMPTS ∧ ∀ j, 1 ≤ j → j < k → (header n j).time = none := by
  have hlogs : (r.enrichLbLogs header known events).2 =
      r.enrichIfLbPoolsPresent (fun n => known[n]?.or (answered (header n))) events := by
    unfold enrichLbLogs enrichIfLbPoolsPresent
    dsimp only
    split
    · next hnone => simp [hnone, Log.fillBlockTimestamp]
    · exact enrichLogTimestampsWhere_logs ..
  refine ⟨hlogs, ?_, ?_, ?_⟩
  · rw [hlogs, enrichIfLbPoolsPresent, List.forall₂_map_right_iff, List.forall₂_same]
    exact fun l _ => Log.dated_fillBlockTimestamp (timed_eq hknown hheader) l
  · unfold enrichLbLogs
    dsimp only
    split
    · exact List.nodup_nil
    · exact enrichLogTimestampsWhere_nodup ..
  · intro n k
    unfold enrichLbLogs
    dsimp only
    split
    · next hnone => simp [hnone]
    · rw [mem_enrichLogTimestampsWhere]
      simp only [decide_eq_true_eq]

end

namespace BlockTimes

variable {hs : List (Nat × Nat)} {n : Nat}

/-- A header of the block has come in, and none of a block 64 or more above it. -/
def Announced (hs : List (Nat × Nat)) (n : Nat) : Prop :=
  (∃ h ∈ hs, h.1 = n) ∧ ∀ h ∈ hs, h.1 < n + BLOCK_TIMES_KEPT

/-- A poll has got the block's header, and none since then one 64 or more above it. -/
def Polled (hs : List (Nat × Nat)) (n : Nat) : Prop :=
  ∃ time before after, hs = before ++ (n, time) :: after ∧ ∀ h ∈ after, h.1 < n + KNOWN_BLOCK_TIMES_KEPT

theorem isSome_announced : (announced hs n).isSome ↔ Announced hs n := by
  unfold announced Announced
  split
  · next hall =>
    rw [lastTime, List.lookup_isSome_iff]
    simp only [List.mem_reverse, beq_iff_eq, eq_comm (a := n)]
    exact ⟨fun h => ⟨h, hall⟩, fun h => h.1⟩
  · next hall => simp only [Option.isSome_none, Bool.false_eq_true, hall, and_false]

theorem announced_lastTime {time : Nat} (h : announced hs n = some time) : lastTime hs n = some time := by
  unfold announced at h
  split at h
  · exact h
  · cases h

theorem isSome_polled : (polled hs n).isSome ↔ Polled hs n := by
  unfold polled
  rw [List.lookup_isSome_iff]
  constructor
  · rintro ⟨⟨m, time⟩, hmem, hn⟩
    obtain rfl := beq_iff_eq.1 hn
    obtain ⟨l₁, l₂, heq⟩ := List.append_of_mem hmem
    refine ⟨time, (l₂ ++ hs.reverse.dropWhile fun h => h.1 < n + KNOWN_BLOCK_TIMES_KEPT).reverse, l₁.reverse, ?_, ?_⟩
    · apply List.reverse_injective
      conv_lhs => rw [← List.takeWhile_append_dropWhile (l := hs.reverse) (p := fun h => h.1 < n + KNOWN_BLOCK_TIMES_KEPT), heq]
      simp
    · intro h hh
      have htake : h ∈ hs.reverse.takeWhile fun h => h.1 < n + KNOWN_BLOCK_TIMES_KEPT := by
        rw [heq]
        exact List.mem_append_left _ (List.mem_reverse.1 hh)
      simpa using List.mem_takeWhile_imp htake
  · rintro ⟨time, before, after, rfl, hafter⟩
    refine ⟨(n, time), ?_, beq_self_eq_true n⟩
    have hn : n < n + KNOWN_BLOCK_TIMES_KEPT := Nat.lt_add_of_pos_right (by decide)
    rw [List.reverse_append, List.reverse_cons, List.append_assoc, List.takeWhile_append_of_pos]
    · simp [hn]
    · intro h hh
      exact decide_eq_true (hafter h (List.mem_reverse.1 hh))

theorem polled_lastTime {time : Nat} (h : polled hs n = some time) : lastTime hs n = some time := by
  unfold polled at h
  unfold lastTime
  obtain ⟨l₁, l₂, heq, hbefore⟩ := List.lookup_eq_some_iff.1 h
  refine List.lookup_eq_some_iff.2 ⟨l₁, l₂ ++ hs.reverse.dropWhile fun h => h.1 < n + KNOWN_BLOCK_TIMES_KEPT, ?_, hbefore⟩
  conv_lhs => rw [← List.takeWhile_append_dropWhile (l := hs.reverse) (p := fun h => h.1 < n + KNOWN_BLOCK_TIMES_KEPT), heq]
  simp

end BlockTimes

section
variable {π : Type} [PoolInterface π] {T : Nat → Nat} {hs : List (Nat × Nat)} {header : Nat → Nat → HeaderAnswer}

/-- **A feed's headers date the pools' logs.** Whatever headers the listeners announce, in any order, the last one of a
number being its block's: a log of a pool that carries no time gets its block's when the header is among those of the 64 newest
blocks or one of three requests for it is answered, and keeps what it has otherwise. No other header is asked for, and none
again once it has come. -/
theorem feedTimes_dated (r : PoolRegistry π) (hfit : ∀ h ∈ hs, h.1 + 1 < 2 ^ 64)
    (hheads : ∀ n time, BlockTimes.lastTime hs n = some time → time = T n)
    (hheader : ∀ n k time, header n k = .ok (some time) → time = T n) (events : List Log) :
    ∃ known, BlockTimes.recordAll BlockTimes.recordBlockTime hs = .ok known ∧
      List.Forall₂ (Log.Dated (r.getAddressesByType .TraderJoeLB) T fun n => BlockTimes.Announced hs n ∨ Answers header n) events
        (r.enrichLbLogs header known events).2 ∧
      (r.enrichLbLogs header known events).1.Nodup ∧
      ∀ n k, (n, k) ∈ (r.enrichLbLogs header known events).1 ↔
        ((∃ l ∈ events, l.address ∈ r.getAddressesByType .TraderJoeLB ∧ l.lacksBlockTimestamp ∧ l.blockNumber = some n) ∧
          ¬BlockTimes.Announced hs n) ∧ 1 ≤ k ∧ k ≤ HEADER_FETCH_ATTEMPTS ∧ ∀ j, 1 ≤ j → j < k → (header n j).time = none := by
  obtain ⟨known, hknown, hlookup⟩ := BlockTimes.recordAll_announced hfit
  have hisSome : ∀ n, known[n]?.isSome ↔ BlockTimes.Announced hs n := fun n => by rw [hlookup, BlockTimes.isSome_announced]
  have htrue : ∀ n, known[n]? = none ∨ known[n]? = some (T n) := by
    intro n
    cases hn : known[n]? with
    | none => exact .inl rfl
    | some time =>
      rw [hlookup] at hn
      exact .inr (congrArg some (hheads n time (BlockTimes.announced_lastTime hn)))
  obtain ⟨-, hdated, hnodup, hasked⟩ := r.enrichLbLogs_dated events htrue hheader
  refine ⟨known, hknown, ?_, hnodup, fun n k => ?_⟩
  · simpa only [hisSome] using hdated
  · rw [hasked, ← hisSome, Option.not_isSome_iff_eq_none]

/-- **The poll's headers do.** The times kept are those of the headers polled since one 64 or more above; and the block that
has just been polled needs no request, so that a batch of that block alone makes none. -/
theorem pollTimes_dated (r : PoolRegistry π) {latest : Nat} (hfit : ∀ h ∈ hs, h.1 + KNOWN_BLOCK_TIMES_KEPT < 2 ^ 64)
    (hlatest : latest + KNOWN_BLOCK_TIMES_KEPT < 2 ^ 64)
    (hheads : ∀ n time, BlockTimes.lastTime (hs ++ [(latest, T latest)]) n = some time → time = T n)
    (hheader : ∀ n k time, header n k = .ok (some time) → time = T n) (events : List Log) :
    ∃ known, BlockTimes.recordAll BlockTimes.recordPolled (hs ++ [(latest, T latest)]) = .ok known ∧
      List.Forall₂ (Log.Dated (r.getAddressesByType .TraderJoeLB) T fun n =>
        BlockTimes.Polled (hs ++ [(latest, T latest)]) n ∨ Answers header n) events (r.enrichLbLogs header known events).2 ∧
      (∀ n k, (n, k) ∈ (r.enrichLbLogs header known events).1 →
        n ≠ latest ∧ ¬BlockTimes.Polled (hs ++ [(latest, T latest)]) n ∧ k ≤ HEADER_FETCH_ATTEMPTS ∧
        ∃ l ∈ events, l.address ∈ r.getAddressesByType .TraderJoeLB ∧ l.lacksBlockTimestamp ∧ l.blockNumber = some n) ∧
      ((∀ l ∈ events, l.blockNumber = some latest) → (r.enrichLbLogs header known events).1 = []) := by
  have hfit' : ∀ h ∈ hs ++ [(latest, T latest)], h.1 + KNOWN_BLOCK_TIMES_KEPT < 2 ^ 64 := by
    intro h hh
    rcases List.mem_append.1 hh with hh | hh
    · exact hfit h hh
    · rw [List.mem_singleton.1 hh]
      exact hlatest
  obtain ⟨known, hknown, hlookup⟩ := BlockTimes.recordAll_polled hfit'
  have hisSome : ∀ n, known[n]?.isSome ↔ BlockTimes.Polled (hs ++ [(latest, T latest)]) n := fun n => by
    rw [hlookup, BlockTimes.isSome_polled]
  have htrue : ∀ n, known[n]? = none ∨ known[n]? = some (T n) := by
    intro n
    cases hn : known[n]? with
    | none => exact .inl rfl
    | some time =>
      rw [hlookup] at hn
      exact .inr (congrArg some (hheads n time (BlockTimes.polled_lastTime hn)))
  have hlast : BlockTimes.Polled (hs ++ [(latest, T latest)]) latest := ⟨T latest, hs, [], rfl, by simp⟩
  obtain ⟨-, hdated, -, hasked⟩ := r.enrichLbLogs_dated events htrue hheader
  have hfor : ∀ n k, (n, k) ∈ (r.enrichLbLogs header known events).1 →
      n ≠ latest ∧ ¬BlockTimes.Polled (hs ++ [(latest, T latest)]) n ∧ k ≤ HEADER_FETCH_ATTEMPTS ∧
        ∃ l ∈ events, l.address ∈ r.getAddressesByType .TraderJoeLB ∧ l.lacksBlockTimestamp ∧ l.blockNumber = some n := by
    intro n k hnk
    obtain ⟨⟨hl, hnone⟩, -, hk, -⟩ := (hasked n k).1 hnk
    have hnot : ¬BlockTimes.Polled (hs ++ [(latest, T latest)]) n := by
      rw [← hisSome, hnone]
      exact Bool.false_ne_true
    exact ⟨fun h => hnot (h ▸ hlast), hnot, hk, hl⟩
  refine ⟨known, hknown, ?_, hfor, fun hall => ?_⟩
  · simpa only [hisSome] using hdated
  · apply List.eq_nil_iff_forall_not_mem.2
    rintro ⟨n, k⟩ hnk
    obtain ⟨hne, -, -, l, hl, -, -, hn⟩ := hfor n k hnk
    exact hne (Option.some_injective _ (hn.symm.trans (hall l hl)))

end

/-- A registry with one Liquidity Book pair. -/
def lbRegistry : PoolRegistry Pool := PoolRegistry.empty.addPool (.lb (LB.LBPool.oneBinPool 5))

/-- A log of the pair, with the time that an endpoint sends that knows none. -/
def lbLogAt (block : Nat) : Log :=
  ⟨0, .event (.lb (.depositedToBinV20 8386608 5 7)), some block, some 0, some 0, some block, some 0, false⟩

/-- What headers say: block 101 is only there at the second request. -/
def lateHeader (n k : Nat) : HeaderAnswer := if k = 1 then .ok none else .ok (some (1790000000 + n))

theorem lateHeader_true (n k time : Nat) (h : lateHeader n k = .ok (some time)) : time = 1790000000 + n := by
  unfold lateHeader at h
  split at h <;> simp_all

theorem mem_lbRegistry : (0 : Address) ∈ lbRegistry.getAddressesByType .TraderJoeLB := by decide +kernel

/-- The announced block's header is not asked for; the next one's is asked for twice. -/
theorem feedTimes_dated_late : ∃ known, BlockTimes.recordAll BlockTimes.recordBlockTime [(100, 1790000100)] = .ok known ∧
    ∀ k, (100, k) ∉ (lbRegistry.enrichLbLogs lateHeader known [lbLogAt 100, lbLogAt 101]).1 ∧
      ((101, k) ∈ (lbRegistry.enrichLbLogs lateHeader known [lbLogAt 100, lbLogAt 101]).1 ↔ k = 1 ∨ k = 2) := by
  have hlast : ∀ n time, BlockTimes.lastTime [(100, 1790000100)] n = some time → time = 1790000000 + n := by
    intro n time h
    have := BlockTimes.mem_of_lastTime h
    simp at this
    omega
  obtain ⟨known, hknown, -, -, hasked⟩ :=
    feedTimes_dated lbRegistry (by decide) hlast lateHeader_true [lbLogAt 100, lbLogAt 101]
  refine ⟨known, hknown, fun k => ⟨?_, ?_⟩⟩
  · rw [hasked]
    rintro ⟨⟨-, hnot⟩, -⟩
    exact hnot ⟨⟨_, List.mem_singleton_self _, rfl⟩, by decide⟩
  · rw [hasked]
    constructor
    · rintro ⟨-, hk, hk', hbefore⟩
      by_contra hne
      have := hbefore 2 (by decide) (by omega)
      cases this
    · intro hk
      refine ⟨⟨⟨lbLogAt 101, by simp, mem_lbRegistry, by decide, rfl⟩, ?_⟩, by omega, by unfold HEADER_FETCH_ATTEMPTS; omega, ?_⟩
      · rintro ⟨⟨h, hh, hn⟩, -⟩
        rw [List.mem_singleton.1 hh] at hn
        cases hn
      · intro j hj hj'
        obtain rfl : j = 1 := by omega
        rfl

/-- A poll that lags behind the one before, and a batch of its block. -/
theorem pollTimes_dated_lagging : ∃ known,
    BlockTimes.recordAll BlockTimes.recordPolled ([(101, 1790000101)] ++ [(100, 1790000100)]) = .ok known ∧
      (lbRegistry.enrichLbLogs lateHeader known [lbLogAt 100]).1 = [] := by
  have hlast : ∀ n time, BlockTimes.lastTime ([(101, 1790000101)] ++ [(100, 1790000100)]) n = some time → time = 1790000000 + n := by
    intro n time h
    have := BlockTimes.mem_of_lastTime h
    simp at this
    omega
  obtain ⟨known, hknown, -, -, hnone⟩ := @pollTimes_dated _ _ (fun n => 1790000000 + n) [(101, 1790000101)] lateHeader
    lbRegistry 100 (by decide) (by decide) hlast lateHeader_true [lbLogAt 100]
  exact ⟨known, hknown, hnone (by simp [lbLogAt])⟩

end EvmDexPool
