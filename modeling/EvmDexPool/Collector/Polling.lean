import EvmDexPool.Collector.BlockSource

/-!
# What a poll plans (`LatestBlockSource`, `PendingBlockSource`, `collector/block_source.rs`)

| here | there |
| --- | --- |
| `LatestBlockSource.nextRange`   | a turn of `LatestBlockSource::next_batch`, up to the fetch of its range |
| `PendingBlockSource.nextBatch`  | a turn of `PendingBlockSource::next_batch`, up to the fetch |
| `LatestBlockSource.fetchBatch`  | the batch of a range |

A turn that sleeps and goes round again yields nothing. Both sources add the batch size to a block
number and then take one off, and a batch size of zero stops the blocks from advancing;
`catchup_batches`, which plans the same blocks, raises the size to one and saturates.
-/

namespace EvmDexPool

/-- `KNOWN_BLOCK_TIMES_KEPT` (block_source.rs:1082). -/
def KNOWN_BLOCK_TIMES_KEPT : Nat := 64

namespace LatestBlockSource

/-- The range `next_batch` fetches next, of those planned or of those the polled header `latest` gives
(block_source.rs:349-453). A header's number is added to natively when the block times are trimmed. -/
def nextRange (src : LatestBlockSource) (cursor latest : Nat) :
    Except Fault (LatestBlockSource × Option (Nat × Nat × Bool)) :=
  match src.batches with
  | range :: rest => .ok ({ src with batches := rest }, some range)
  | [] =>
    if latest + KNOWN_BLOCK_TIMES_KEPT < 2 ^ 64 then do
      match ← src.planned cursor latest with
      | range :: rest => .ok ({ src with batches := rest }, some range)
      | [] => .ok (src, none)
    else .error .overflow

/-- The ranges of one poll, the updater moving the cursor to the end of each. -/
def pollRun (latest : Nat) : Nat → LatestBlockSource → Nat → Except Fault (List (Nat × Nat × Bool))
  | 0, _, _ => .error .diverges
  | fuel + 1, src, cursor => do
    match ← src.nextRange cursor latest with
    | (_, none) => .ok []
    | (src, some range) =>
      if src.batches = [] then .ok [range]
      else do
        let rest ← pollRun latest fuel src range.2.1
        .ok (range :: rest)

end LatestBlockSource

/-- `PendingPhase` (block_source.rs:143). -/
inductive PendingPhase
  | PollBlockNumber
  | ConfirmedBatches (currentBlock latestBlock : Nat)
  | FetchPending
deriving DecidableEq, Repr

structure PendingBlockSource where
  topics : List Topic
  maxBlocksPerBatch : Nat
  phase : PendingPhase

namespace PendingBlockSource

/-- What a turn fetches: a confirmed range, or the pending block. -/
inductive Fetch
  | confirmed (fromBlock toBlock : Nat)
  | pending
deriving DecidableEq, Repr

variable (src : PendingBlockSource)

/-- A turn of `next_batch` (block_source.rs:186-308). -/
def nextBatch (cursor latest : Nat) (addresses : List Address) : Except Fault (PendingBlockSource × Option Fetch) :=
  match src.phase with
  | .PollBlockNumber =>
    if cursor + 1 < 2 ^ 64 then
      if cursor + 1 > latest then .ok (src, none)
      else .ok ({ src with phase := .ConfirmedBatches (cursor + 1) latest }, none)
    else .error .overflow
  | .ConfirmedBatches currentBlock latestBlock =>
    if currentBlock + src.maxBlocksPerBatch < 2 ^ 64 ∧ 0 < currentBlock + src.maxBlocksPerBatch then
      let batchEnd := min (currentBlock + src.maxBlocksPerBatch - 1) latestBlock
      if batchEnd + 1 < 2 ^ 64 then
        let phase := if batchEnd + 1 > latestBlock then .FetchPending else .ConfirmedBatches (batchEnd + 1) latestBlock
        .ok ({ src with phase := phase }, some (.confirmed currentBlock batchEnd))
      else .error .overflow
    else .error .overflow
  | .FetchPending =>
    if addresses = [] then .ok ({ src with phase := .PollBlockNumber }, none)
    else .ok ({ src with phase := .PollBlockNumber }, some .pending)

/-- The confirmed ranges of one poll, the updater moving the cursor to the end of each. -/
def pollRun (latest : Nat) (addresses : List Address) : Nat → PendingBlockSource → Nat → Except Fault (List (Nat × Nat))
  | 0, _, _ => .error .diverges
  | fuel + 1, src, cursor =>
    if src.phase = .FetchPending then .ok []
    else do
      match ← src.nextBatch cursor latest addresses with
      | (src, some (.confirmed fromBlock toBlock)) =>
        let rest ← pollRun latest addresses fuel src toBlock
        .ok ((fromBlock, toBlock) :: rest)
      | (src, _) => pollRun latest addresses fuel src cursor

end PendingBlockSource

/-! ## Tiles -/

/-- The ranges follow each other from the block after `last` up to `latest`. -/
def Tiles : Nat → Nat → List (Nat × Nat) → Prop
  | last, latest, [] => last = latest
  | last, latest, (start, stop) :: rest => start = last + 1 ∧ start ≤ stop ∧ Tiles stop latest rest

theorem Tiles.le {last latest : Nat} {ranges : List (Nat × Nat)} (h : Tiles last latest ranges) : last ≤ latest := by
  induction ranges generalizing last with
  | nil => exact Nat.le_of_eq h
  | cons range rest ih =>
    obtain ⟨hstart, hle, hrest⟩ := h
    have := ih hrest
    omega

/-- Only the last range reaches the latest block. -/
theorem Tiles.before_last {last latest : Nat} {ranges : List (Nat × Nat)} (h : Tiles last latest ranges) :
    ∀ range ∈ ranges.dropLast, range.2 < latest := by
  induction ranges generalizing last with
  | nil => simp
  | cons range rest ih =>
    obtain ⟨hstart, hle, hrest⟩ := h
    cases rest with
    | nil => simp
    | cons next rest =>
      obtain ⟨hstart', hle', hrest'⟩ := id hrest
      have hend := Tiles.le hrest'
      intro r hr
      rw [List.dropLast_cons_of_ne_nil (List.cons_ne_nil _ _)] at hr
      rcases List.mem_cons.1 hr with rfl | hr
      · omega
      · exact ih hrest r hr

/-- Every block after `last` up to `latest` is in exactly one of the ranges. -/
theorem Tiles.covers {last latest : Nat} {ranges : List (Nat × Nat)} (h : Tiles last latest ranges) (block : Nat) :
    ranges.countP (fun range => range.1 ≤ block ∧ block ≤ range.2) = if last < block ∧ block ≤ latest then 1 else 0 := by
  induction ranges generalizing last with
  | nil =>
    have h : last = latest := h
    rw [if_neg (by omega)]
    rfl
  | cons range rest ih =>
    obtain ⟨hstart, hle, hrest⟩ := h
    have hend := hrest.le
    rw [List.countP_cons, ih hrest]
    simp only [decide_eq_true_eq]
    split <;> split <;> split <;> omega

/-! ## What is planned -/

/-- The first block past the last full-sized batch is a `u64`, and there is a batch size. -/
def PlanFits (maxBlocks latest current : Nat) : Prop :=
  1 ≤ maxBlocks ∧ current + ((latest - current) / maxBlocks + 1) * maxBlocks < 2 ^ 64

instance (maxBlocks latest current : Nat) : Decidable (PlanFits maxBlocks latest current) :=
  inferInstanceAs (Decidable (_ ∧ _))

section Plan
variable {maxBlocks latest current : Nat}

/-- The last batch is the rest of the blocks. -/
theorem planFits_last (h : latest < current + maxBlocks) (hle : current ≤ latest) :
    PlanFits maxBlocks latest current ↔ current + maxBlocks < 2 ^ 64 := by
  unfold PlanFits
  rw [Nat.div_eq_of_lt (by omega)]
  omega

/-- One batch before the last takes the plan on by its size. -/
theorem planFits_next (hpos : 1 ≤ maxBlocks) (h : current + maxBlocks ≤ latest) :
    PlanFits maxBlocks latest current ↔ PlanFits maxBlocks latest (current + maxBlocks) := by
  have hquot : (latest - current) / maxBlocks = (latest - (current + maxBlocks)) / maxBlocks + 1 := by
    rw [show latest - current = latest - (current + maxBlocks) + maxBlocks by omega, Nat.add_div_right _ hpos]
  unfold PlanFits
  rw [hquot]
  generalize (latest - (current + maxBlocks)) / maxBlocks = q
  rw [Nat.add_mul (q + 1), Nat.one_mul, Nat.add_comm ((q + 1) * maxBlocks), ← Nat.add_assoc]

theorem PlanFits.first (h : PlanFits maxBlocks latest current) : current + maxBlocks < 2 ^ 64 := by
  obtain ⟨-, hlt⟩ := h
  refine lt_of_le_of_lt ?_ hlt
  exact Nat.add_le_add_left (Nat.le_mul_of_pos_left _ (Nat.succ_pos _)) _

/-- How the loop marks the range of a batch. -/
def marked (latest : Nat) (range : Nat × Nat) : Nat × Nat × Bool :=
  (range.1, range.2, range.2 = latest ∧ range.1 = range.2)

/-- A turn of the loop that plans a batch. -/
theorem planBatches_cons {fuel : Nat} (hle : current ≤ latest) (hfits : current + maxBlocks < 2 ^ 64)
    (hend : min (current + maxBlocks - 1) latest + 1 < 2 ^ 64) :
    planBatches maxBlocks latest (fuel + 1) current = (do
      let rest ← planBatches maxBlocks latest fuel (min (current + maxBlocks - 1) latest + 1)
      .ok (marked latest (current, min (current + maxBlocks - 1) latest) :: rest)) := by
  rw [planBatches, if_pos hle, if_pos hfits]
  dsimp only
  rw [if_pos hend]
  rfl

/-- A turn of `catchup_batches`, where its saturating end is the exact one. -/
theorem catchupLoop_cons {fuel : Nat} (hpos : 1 ≤ maxBlocks) (hle : current ≤ latest) (hlatest : latest < 2 ^ 64) :
    catchupLoop maxBlocks latest (fuel + 1) current =
      (current, min (current + maxBlocks - 1) latest) ::
        if latest < current + maxBlocks then [] else catchupLoop maxBlocks latest fuel (current + maxBlocks) := by
  have hstop : min (satAdd current (maxBlocks - 1)) latest = min (current + maxBlocks - 1) latest := by
    unfold satAdd
    omega
  rw [catchupLoop, if_pos hle]
  dsimp only
  rw [hstop]
  by_cases hlast : latest < current + maxBlocks
  · rw [if_pos hlast, if_pos (by omega)]
  · rw [if_neg hlast, if_neg (by omega), show min (current + maxBlocks - 1) latest + 1 = current + maxBlocks by omega]

/-- `catchup_batches` tiles the blocks whatever the batch size. -/
theorem catchupLoop_tiles (hpos : 1 ≤ maxBlocks) (hlatest : latest < 2 ^ 64) :
    ∀ fuel last, last < latest → latest ≤ last + fuel →
      Tiles last latest (catchupLoop maxBlocks latest fuel (last + 1)) := by
  intro fuel
  induction fuel with
  | zero => omega
  | succ fuel ih =>
    intro last hlt hfuel
    rw [catchupLoop_cons hpos (by omega) hlatest]
    by_cases hlast : latest < last + 1 + maxBlocks
    · rw [if_pos hlast]
      exact ⟨rfl, by omega, by change min _ _ = _; omega⟩
    · rw [if_neg hlast]
      refine ⟨rfl, by omega, ?_⟩
      rw [show min (last + 1 + maxBlocks - 1) latest = last + maxBlocks by omega,
        show last + 1 + maxBlocks = last + maxBlocks + 1 by omega]
      exact ih _ (by omega) (by omega)

/-- Where the numbers fit, the loop plans the ranges of `catchup_batches`. -/
theorem planBatches_eq (hlatest : latest < 2 ^ 64) :
    ∀ fuel rounds, current ≤ latest → PlanFits maxBlocks latest current → latest < current + fuel →
      latest < current + rounds →
      planBatches maxBlocks latest (fuel + 1) current =
        .ok ((catchupLoop maxBlocks latest rounds current).map (marked latest)) := by
  intro fuel
  induction fuel generalizing current with
  | zero => omega
  | succ fuel ih =>
    intro rounds hle hfits hfuel hrounds
    obtain ⟨rounds, rfl⟩ : ∃ n, rounds = n + 1 := ⟨rounds - 1, by omega⟩
    have hfirst := hfits.first
    have hpos := hfits.1
    rw [planBatches_cons hle hfirst (by omega), catchupLoop_cons hpos hle hlatest, List.map_cons]
    by_cases hlast : latest < current + maxBlocks
    · rw [if_pos hlast, show min (current + maxBlocks - 1) latest = latest by omega, planBatches, if_neg (by omega),
        ok_bind]
      rfl
    · rw [if_neg hlast, show min (current + maxBlocks - 1) latest + 1 = current + maxBlocks by omega,
        ih rounds (by omega) ((planFits_next hpos (by omega)).1 hfits) (by omega) (by omega), ok_bind]

/-- A plan that is made fits. -/
theorem planFits_of_plan {fuel : Nat} {plan : List (Nat × Nat × Bool)} (hcurrent : 0 < current) (hle : current ≤ latest)
    (h : planBatches maxBlocks latest fuel current = .ok plan) : PlanFits maxBlocks latest current := by
  induction fuel generalizing current plan with
  | zero => cases h
  | succ fuel ih =>
    rw [planBatches, if_pos hle] at h
    split at h
    · rename_i hfirst
      dsimp only at h
      split at h
      · obtain ⟨rest, hrest, -⟩ := bind_eq_ok.1 h
        by_cases hlast : latest < current + maxBlocks
        · exact (planFits_last hlast hle).2 hfirst
        · rw [show min (current + maxBlocks - 1) latest + 1 = current + maxBlocks by omega] at hrest
          have hnext := ih (by omega) (by omega) hrest
          exact (planFits_next hnext.1 (by omega)).2 hnext
      · cases h
    · cases h

end Plan

/-! ## What bootstrap and the gap fill plan -/

/-- The loop of `catchup_batches` with its native addition checked (block_source.rs:92-101). -/
def catchupTurns (span first : Nat) : Nat → Nat → Except Fault (List (Nat × Nat))
  | 0, _ => .error .diverges
  | fuel + 1, start =>
    if start ≤ first then
      let stop := min (satAdd start (span - 1)) first
      if stop ≥ first then .ok [(start, stop)]
      else if stop + 1 < 2 ^ 64 then do
        let rest ← catchupTurns span first fuel (stop + 1)
        .ok ((start, stop) :: rest)
      else .error .overflow
    else .ok []

/-- The ranges are of at least one block and at most a batch, each starts right after the one before it,
and together they hold exactly the blocks after `last` up to `first`. -/
structure CatchesUp (last maxBlocks first : Nat) (ranges : List (Nat × Nat)) : Prop where
  nonempty : ∀ range ∈ ranges, range.1 ≤ range.2
  short : ∀ range ∈ ranges, range.2 - range.1 + 1 ≤ max 1 maxBlocks
  adjacent : ranges.IsChain fun range next => range.2 + 1 = next.1
  ascending : ranges.Pairwise fun range later => range.2 < later.1
  union : ∀ block, (∃ range ∈ ranges, range.1 ≤ block ∧ block ≤ range.2) ↔ last < block ∧ block ≤ first

namespace Tiles
variable {last latest : Nat} {ranges : List (Nat × Nat)}

theorem nonempty (h : Tiles last latest ranges) : ∀ range ∈ ranges, last < range.1 ∧ range.1 ≤ range.2 := by
  induction ranges generalizing last with
  | nil => simp
  | cons range rest ih =>
    obtain ⟨hstart, hle, hrest⟩ := h
    intro r hr
    rcases List.mem_cons.1 hr with rfl | hr
    · omega
    · have := ih hrest r hr
      omega

theorem adjacent (h : Tiles last latest ranges) : ranges.IsChain fun range next => range.2 + 1 = next.1 := by
  induction ranges generalizing last with
  | nil => exact .nil
  | cons range rest ih =>
    obtain ⟨-, -, hrest⟩ := h
    cases rest with
    | nil => exact .singleton _
    | cons next rest => exact .cons_cons hrest.1.symm (ih hrest)

theorem ascending (h : Tiles last latest ranges) : ranges.Pairwise fun range later => range.2 < later.1 := by
  induction ranges generalizing last with
  | nil => exact .nil
  | cons range rest ih =>
    obtain ⟨-, -, hrest⟩ := h
    exact .cons (fun r hr => (hrest.nonempty r hr).1) (ih hrest)

theorem union (h : Tiles last latest ranges) (block : Nat) :
    (∃ range ∈ ranges, range.1 ≤ block ∧ block ≤ range.2) ↔ last < block ∧ block ≤ latest := by
  have hcount := h.covers block
  have hpos : 0 < ranges.countP (fun range => range.1 ≤ block ∧ block ≤ range.2) ↔
      ∃ range ∈ ranges, range.1 ≤ block ∧ block ≤ range.2 := by
    rw [List.countP_pos_iff]
    simp
  rw [← hpos, hcount]
  split <;> simp_all

end Tiles

section Catchup
variable {maxBlocks first : Nat}

/-- No batch is longer than the batch size. -/
theorem catchupLoop_short (hpos : 1 ≤ maxBlocks) (fuel start : Nat) :
    ∀ range ∈ catchupLoop maxBlocks first fuel start, range.2 - range.1 + 1 ≤ maxBlocks := by
  induction fuel generalizing start with
  | zero => simp [catchupLoop]
  | succ fuel ih =>
    intro range hrange
    unfold catchupLoop at hrange
    split at hrange
    · rcases List.mem_cons.1 hrange with rfl | hrange
      · dsimp only
        unfold satAdd
        omega
      · split at hrange
        · simp at hrange
        · exact ih _ range hrange
    · simp at hrange

/-- Enough turns end the loop, and its addition never overflows. -/
theorem catchupTurns_eq (hfirst : first < 2 ^ 64) :
    ∀ fuel start, 0 < start → first < start + fuel →
      catchupTurns maxBlocks first (fuel + 1) start = .ok (catchupLoop maxBlocks first fuel start) := by
  intro fuel
  induction fuel with
  | zero =>
    intro start _ hlt
    rw [catchupTurns, if_neg (by omega)]
    rfl
  | succ fuel ih =>
    intro start hstart hlt
    rw [catchupTurns, catchupLoop]
    by_cases hle : start ≤ first
    · rw [if_pos hle, if_pos hle]
      dsimp only
      have hstop : start ≤ min (satAdd start (maxBlocks - 1)) first := by
        unfold satAdd
        omega
      generalize min (satAdd start (maxBlocks - 1)) first = stop at *
      by_cases hlast : stop ≥ first
      · rw [if_pos hlast, if_pos hlast]
      · rw [if_neg hlast, if_neg hlast, if_pos (by omega), ih (stop + 1) (by omega) (by omega), ok_bind]
    · rw [if_neg hle, if_neg hle]

/-- **`catchup_batches` tiles its range**: for every cursor below the last block number, whatever the batch
size and the block it has to reach, it ends without overflow, and its ranges are the blocks in between, once
each and in order. -/
theorem catchupBatches_tiles (last maxBlocks first : Nat) (hlast : last < 2 ^ 64 - 1) (hfirst : first < 2 ^ 64) :
    (∃ fuel, catchupTurns (max maxBlocks 1) first fuel (satAdd last 1) = .ok (catchupBatches last maxBlocks first)) ∧
      CatchesUp last maxBlocks first (catchupBatches last maxBlocks first) := by
  have hpos : 1 ≤ max maxBlocks 1 := le_max_right ..
  have hstart : satAdd last 1 = last + 1 := by
    unfold satAdd
    omega
  have hshort : ∀ range ∈ catchupBatches last maxBlocks first, range.2 - range.1 + 1 ≤ max 1 maxBlocks := by
    rw [max_comm]
    exact catchupLoop_short hpos _ _
  refine ⟨⟨first + 1 + 1, catchupTurns_eq hfirst (first + 1) _ (by omega) (by omega)⟩, ?_⟩
  by_cases hlt : last < first
  · have htiles : Tiles last first (catchupBatches last maxBlocks first) := by
      unfold catchupBatches
      rw [hstart]
      exact catchupLoop_tiles hpos hfirst _ _ hlt (by omega)
    exact ⟨fun range hrange => (htiles.nonempty range hrange).2, hshort, htiles.adjacent, htiles.ascending, htiles.union⟩
  · have hnil : catchupBatches last maxBlocks first = [] := by
      unfold catchupBatches
      rw [hstart, catchupLoop, if_neg (by omega)]
    rw [hnil]
    exact ⟨by simp, by simp, .nil, .nil, fun block => by simp; omega⟩

/-- A batch size of zero, up to the last block there can be. -/
theorem catchupBatches_tiles_top :
    (∃ fuel, catchupTurns (max 0 1) (2 ^ 64 - 1) fuel (satAdd (2 ^ 64 - 4) 1) =
        .ok (catchupBatches (2 ^ 64 - 4) 0 (2 ^ 64 - 1))) ∧
      CatchesUp (2 ^ 64 - 4) 0 (2 ^ 64 - 1) (catchupBatches (2 ^ 64 - 4) 0 (2 ^ 64 - 1)) :=
  catchupBatches_tiles _ _ _ (by decide) (by decide)

end Catchup

/-! ## What is yielded -/

namespace LatestBlockSource
variable {topics : List Topic} {maxBlocks latest : Nat}

/-- Ranges that are planned are yielded one after the other. -/
theorem pollRun_planned (range : Nat × Nat × Bool) (rest : List (Nat × Nat × Bool)) :
    ∀ fuel cursor, pollRun latest fuel ⟨topics, maxBlocks, range :: rest⟩ cursor =
      if rest.length < fuel then .ok (range :: rest) else .error .diverges := by
  induction rest generalizing range with
  | nil =>
    intro fuel cursor
    cases fuel <;> rfl
  | cons next rest ih =>
    intro fuel cursor
    cases fuel with
    | zero => rfl
    | succ fuel =>
      change (do
        let rest' ← pollRun latest fuel ⟨topics, maxBlocks, next :: rest⟩ range.2.1
        .ok (range :: rest')) = _
      rw [ih next fuel range.2.1, List.length_cons]
      by_cases hfuel : rest.length < fuel
      · rw [if_pos hfuel, if_pos (by omega), ok_bind]
      · rw [if_neg hfuel, if_neg (by omega), error_bind]

/-- A poll yields its plan, and yields nothing else. -/
theorem pollRun_iff (topics : List Topic) {cursor : Nat} {ranges : List (Nat × Nat × Bool)} (hcursor : cursor < latest)
    (hlatest : latest < 2 ^ 64) :
    (∃ fuel, pollRun latest fuel ⟨topics, maxBlocks, []⟩ cursor = .ok ranges) ↔
      latest + KNOWN_BLOCK_TIMES_KEPT < 2 ^ 64 ∧ planBatches maxBlocks latest (latest + 2) (cursor + 1) = .ok ranges := by
  have hplanned : (⟨topics, maxBlocks, []⟩ : LatestBlockSource).planned cursor latest =
      planBatches maxBlocks latest (latest + 2) (cursor + 1) := if_pos (by omega)
  have hturn : (⟨topics, maxBlocks, []⟩ : LatestBlockSource).nextRange cursor latest =
      if latest + KNOWN_BLOCK_TIMES_KEPT < 2 ^ 64 then do
        match ← planBatches maxBlocks latest (latest + 2) (cursor + 1) with
        | range :: rest => .ok (⟨topics, maxBlocks, rest⟩, some range)
        | [] => .ok (⟨topics, maxBlocks, []⟩, none)
      else .error .overflow := by
    rw [← hplanned]
    rfl
  by_cases htimes : latest + KNOWN_BLOCK_TIMES_KEPT < 2 ^ 64
  · rw [if_pos htimes] at hturn
    cases hplan : planBatches maxBlocks latest (latest + 2) (cursor + 1) with
    | error e =>
      rw [hplan, error_bind] at hturn
      refine ⟨fun ⟨fuel, h⟩ => ?_, fun h => by cases h.2⟩
      cases fuel with
      | zero => cases h
      | succ fuel =>
        rw [pollRun, hturn, error_bind] at h
        cases h
    | ok plan =>
      rw [hplan, ok_bind] at hturn
      -- the turn that plans yields the first range itself
      have hrun : ∀ fuel, pollRun latest (fuel + 1) ⟨topics, maxBlocks, []⟩ cursor =
          if plan.length ≤ fuel + 1 then .ok plan else .error .diverges := by
        intro fuel
        cases plan with
        | nil =>
          rw [pollRun, hturn, ok_bind]
          rfl
        | cons range rest =>
          have hplanned : pollRun latest (fuel + 1) ⟨topics, maxBlocks, range :: rest⟩ cursor = _ :=
            pollRun_planned range rest (fuel + 1) cursor
          rw [List.length_cons]
          rw [pollRun] at hplanned ⊢
          rw [hturn]
          exact hplanned
      constructor
      · rintro ⟨fuel, h⟩
        cases fuel with
        | zero => cases h
        | succ fuel =>
          rw [hrun] at h
          split at h
          · exact ⟨htimes, h⟩
          · cases h
      · rintro ⟨-, h⟩
        exact ⟨plan.length + 1, by rw [hrun, if_pos (Nat.le_succ _), h]⟩
  · rw [if_neg htimes] at hturn
    refine ⟨fun ⟨fuel, h⟩ => ?_, fun h => absurd h.1 htimes⟩
    cases fuel with
    | zero => cases h
    | succ fuel =>
      rw [pollRun, hturn, error_bind] at h
      cases h

end LatestBlockSource

namespace PendingBlockSource
variable {topics : List Topic} {maxBlocks latest current : Nat} {addresses : List Address}

/-- A turn over a confirmed range that the source gets through. -/
theorem pollRun_confirmed {fuel cursor : Nat} (hfits : current + maxBlocks < 2 ^ 64) (hpos : 0 < current + maxBlocks)
    (hend : min (current + maxBlocks - 1) latest + 1 < 2 ^ 64) :
    pollRun latest addresses (fuel + 1) ⟨topics, maxBlocks, .ConfirmedBatches current latest⟩ cursor = (do
      let rest ← pollRun latest addresses fuel ⟨topics, maxBlocks,
          if min (current + maxBlocks - 1) latest + 1 > latest then .FetchPending
          else .ConfirmedBatches (min (current + maxBlocks - 1) latest + 1) latest⟩ (min (current + maxBlocks - 1) latest)
      .ok ((current, min (current + maxBlocks - 1) latest) :: rest)) := by
  rw [pollRun, if_neg (show ¬PendingPhase.ConfirmedBatches current latest = .FetchPending from nofun)]
  unfold nextBatch
  dsimp only
  rw [if_pos ⟨hfits, hpos⟩, if_pos hend, ok_bind]

theorem pollRun_pending (fuel cursor : Nat) :
    pollRun latest addresses (fuel + 1) ⟨topics, maxBlocks, .FetchPending⟩ cursor = .ok [] := rfl

/-- Where the numbers fit, the confirmed ranges are those of `catchup_batches`. -/
theorem pollRun_eq (topics : List Topic) (addresses : List Address) (hlatest : latest < 2 ^ 64) :
    ∀ fuel rounds cursor, current ≤ latest → PlanFits maxBlocks latest current → latest < current + fuel →
      latest < current + rounds →
      pollRun latest addresses (fuel + 1) ⟨topics, maxBlocks, .ConfirmedBatches current latest⟩ cursor =
        .ok (catchupLoop maxBlocks latest rounds current) := by
  intro fuel
  induction fuel generalizing current with
  | zero => omega
  | succ fuel ih =>
    intro rounds cursor hle hfits hfuel hrounds
    obtain ⟨rounds, rfl⟩ : ∃ n, rounds = n + 1 := ⟨rounds - 1, by omega⟩
    have hfirst := hfits.first
    have hpos := hfits.1
    rw [pollRun_confirmed hfirst (by omega) (by omega), catchupLoop_cons hpos hle hlatest]
    by_cases hlast : latest < current + maxBlocks
    · rw [if_pos hlast, if_pos (by omega), pollRun_pending, ok_bind]
    · rw [if_neg hlast, if_neg (by omega),
        show min (current + maxBlocks - 1) latest + 1 = current + maxBlocks by omega,
        ih rounds _ (by omega) ((planFits_next hpos (by omega)).1 hfits) (by omega) (by omega), ok_bind]

/-- A poll whose confirmed ranges end fits. -/
theorem planFits_of_pollRun {fuel cursor : Nat} {ranges : List (Nat × Nat)} (hcurrent : 0 < current) (hle : current ≤ latest)
    (h : pollRun latest addresses fuel ⟨topics, maxBlocks, .ConfirmedBatches current latest⟩ cursor = .ok ranges) :
    PlanFits maxBlocks latest current := by
  induction fuel generalizing current cursor ranges with
  | zero => cases h
  | succ fuel ih =>
    by_cases hfirst : current + maxBlocks < 2 ^ 64
    · by_cases hend : min (current + maxBlocks - 1) latest + 1 < 2 ^ 64
      · rw [pollRun_confirmed hfirst (by omega) hend] at h
        obtain ⟨rest, hrest, -⟩ := bind_eq_ok.1 h
        by_cases hlast : latest < current + maxBlocks
        · exact (planFits_last hlast hle).2 hfirst
        · rw [if_neg (by omega), show min (current + maxBlocks - 1) latest + 1 = current + maxBlocks by omega] at hrest
          have hnext := ih (by omega) (by omega) hrest
          exact (planFits_next hnext.1 (by omega)).2 hnext
      · rw [pollRun, if_neg (show ¬PendingPhase.ConfirmedBatches current latest = .FetchPending from nofun)] at h
        unfold nextBatch at h
        dsimp only at h
        rw [if_pos ⟨hfirst, by omega⟩, if_neg hend, error_bind] at h
        cases h
    · rw [pollRun, if_neg (show ¬PendingPhase.ConfirmedBatches current latest = .FetchPending from nofun)] at h
      unfold nextBatch at h
      dsimp only at h
      rw [if_neg (fun hboth => hfirst hboth.1), error_bind] at h
      cases h

/-- The turn that polls starts at the block after the cursor. -/
theorem pollRun_poll {fuel cursor : Nat} (hcursor : cursor < latest) (hlatest : latest < 2 ^ 64) :
    pollRun latest addresses (fuel + 1) ⟨topics, maxBlocks, .PollBlockNumber⟩ cursor =
      pollRun latest addresses fuel ⟨topics, maxBlocks, .ConfirmedBatches (cursor + 1) latest⟩ cursor := by
  rw [pollRun, if_neg (show ¬PendingPhase.PollBlockNumber = .FetchPending from nofun)]
  unfold nextBatch
  dsimp only
  rw [if_pos (by omega), if_neg (by omega), ok_bind]

end PendingBlockSource

/-! ## Every block once -/

/-- The ranges of a poll are those `catchup_batches` would make, one after the other, and hold every block
after the cursor once. -/
structure PlannedOnce (maxBlocks last latest : Nat) (ranges : List (Nat × Nat)) : Prop where
  same : ranges = catchupBatches last maxBlocks latest
  tiles : Tiles last latest ranges
  once : ∀ block, ranges.countP (fun range => range.1 ≤ block ∧ block ≤ range.2) =
    if last < block ∧ block ≤ latest then 1 else 0

/-- Only the last range is priced, and only if it is the single block `latest`. -/
def PricedLast (latest : Nat) (ranges : List (Nat × Nat × Bool)) : Prop :=
  (∀ range ∈ ranges, range.2.2 = true → range.1 = latest ∧ range.2.1 = latest) ∧
    ∀ range ∈ ranges.dropLast, range.2.2 = false

/-- A poll of `LatestBlockSource` ends, plans every block once and prices the last at most. -/
def LatestBlockSource.PollsOnce (topics : List Topic) (maxBlocks last latest : Nat) : Prop :=
  ∃ fuel ranges, pollRun latest fuel ⟨topics, maxBlocks, []⟩ last = .ok ranges ∧
    PlannedOnce maxBlocks last latest (ranges.map fun range => (range.1, range.2.1)) ∧ PricedLast latest ranges

/-- The confirmed ranges of a poll of `PendingBlockSource` end and plan every block once. -/
def PendingBlockSource.PollsOnce (topics : List Topic) (addresses : List Address) (maxBlocks last latest : Nat) : Prop :=
  ∃ fuel ranges, pollRun latest addresses fuel ⟨topics, maxBlocks, .PollBlockNumber⟩ last = .ok ranges ∧
    PlannedOnce maxBlocks last latest ranges

section PlannedOnce
variable {maxBlocks last latest : Nat}

theorem catchupBatches_eq (hpos : 1 ≤ maxBlocks) (hlast : last < latest) (hlatest : latest < 2 ^ 64) :
    catchupBatches last maxBlocks latest = catchupLoop maxBlocks latest (latest + 1) (last + 1) := by
  unfold catchupBatches
  rw [max_eq_left hpos, show satAdd last 1 = last + 1 by unfold satAdd; omega]

theorem plannedOnce_catchupLoop (hpos : 1 ≤ maxBlocks) (hlast : last < latest) (hlatest : latest < 2 ^ 64) :
    PlannedOnce maxBlocks last latest (catchupLoop maxBlocks latest (latest + 1) (last + 1)) :=
  have htiles := catchupLoop_tiles hpos hlatest _ _ hlast (by omega)
  ⟨(catchupBatches_eq hpos hlast hlatest).symm, htiles, htiles.covers⟩

/-- A range is marked when it is the latest block alone. -/
theorem pricedLast_marked {ranges : List (Nat × Nat)} (h : Tiles last latest ranges) :
    PricedLast latest (ranges.map (marked latest)) := by
  constructor
  · intro range hrange hmark
    obtain ⟨r, -, rfl⟩ := List.mem_map.1 hrange
    obtain ⟨hend, hsame⟩ := of_decide_eq_true hmark
    exact ⟨hsame.trans hend, hend⟩
  · intro range hrange
    rw [← List.map_dropLast] at hrange
    obtain ⟨r, hr, rfl⟩ := List.mem_map.1 hrange
    exact decide_eq_false fun hmark => absurd hmark.1 (h.before_last r hr).ne

end PlannedOnce

/-- **Both polling sources plan every block once**, exactly where no block number overflows on the way
and there is a batch size; `LatestBlockSource` also adds to the header's number. -/
theorem polls_once (topics : List Topic) (addresses : List Address) (maxBlocks last latest : Nat) (hlast : last < latest)
    (hlatest : latest < 2 ^ 64) :
    (LatestBlockSource.PollsOnce topics maxBlocks last latest ↔
      PlanFits maxBlocks latest (last + 1) ∧ latest + KNOWN_BLOCK_TIMES_KEPT < 2 ^ 64) ∧
    (PendingBlockSource.PollsOnce topics addresses maxBlocks last latest ↔ PlanFits maxBlocks latest (last + 1)) := by
  refine ⟨⟨?_, ?_⟩, ?_, ?_⟩
  · rintro ⟨fuel, ranges, hrun, -, -⟩
    obtain ⟨htimes, hplan⟩ := (LatestBlockSource.pollRun_iff topics hlast hlatest).1 ⟨fuel, hrun⟩
    exact ⟨planFits_of_plan (Nat.succ_pos _) hlast hplan, htimes⟩
  · rintro ⟨hfits, htimes⟩
    have hplan := planBatches_eq hlatest (latest + 1) (latest + 1) hlast hfits (by omega) (by omega)
    obtain ⟨fuel, hrun⟩ := (LatestBlockSource.pollRun_iff topics hlast hlatest).2 ⟨htimes, hplan⟩
    have honce := plannedOnce_catchupLoop hfits.1 hlast hlatest
    refine ⟨fuel, _, hrun, ?_, pricedLast_marked honce.tiles⟩
    rw [List.map_map]
    change PlannedOnce _ _ _ (List.map id _)
    rwa [List.map_id]
  · rintro ⟨fuel, ranges, hrun, -⟩
    cases fuel with
    | zero => cases hrun
    | succ fuel =>
      rw [PendingBlockSource.pollRun_poll hlast hlatest] at hrun
      exact PendingBlockSource.planFits_of_pollRun (Nat.succ_pos _) hlast hrun
  · intro hfits
    have hrun := PendingBlockSource.pollRun_eq topics addresses hlatest (latest + 1) (latest + 1) last hlast hfits (by omega) (by omega)
    exact ⟨_, _, (PendingBlockSource.pollRun_poll hlast hlatest).trans hrun, plannedOnce_catchupLoop hfits.1 hlast hlatest⟩

/-- Ten blocks in batches of four. -/
theorem polls_once_ten :
    (LatestBlockSource.PollsOnce [] 4 100 110 ↔ PlanFits 4 110 (100 + 1) ∧ 110 + KNOWN_BLOCK_TIMES_KEPT < 2 ^ 64) ∧
      (PendingBlockSource.PollsOnce [] [7] 4 100 110 ↔ PlanFits 4 110 (100 + 1)) :=
  polls_once [] [7] 4 100 110 (by decide) (by decide)

/-- A batch size of zero never ends a poll, and the largest one overflows it. -/
theorem polls_fail :
    ¬LatestBlockSource.PollsOnce [] 0 5 7 ∧ ¬PendingBlockSource.PollsOnce [] [7] 0 5 7 ∧
      ¬LatestBlockSource.PollsOnce [] (2 ^ 64 - 1) 5 7 ∧ ¬PendingBlockSource.PollsOnce [] [7] (2 ^ 64 - 1) 5 7 := by
  have hlatest : ∀ maxBlocks, ¬PlanFits maxBlocks 7 6 → ¬LatestBlockSource.PollsOnce [] maxBlocks 5 7 := by
    rintro maxBlocks hnot ⟨fuel, ranges, hrun, -, -⟩
    exact hnot (planFits_of_plan (by decide) (by decide)
      ((LatestBlockSource.pollRun_iff [] (by decide) (by decide)).1 ⟨fuel, hrun⟩).2)
  have hpending : ∀ maxBlocks, ¬PlanFits maxBlocks 7 6 → ¬PendingBlockSource.PollsOnce [] [7] maxBlocks 5 7 := by
    rintro maxBlocks hnot ⟨fuel, ranges, hrun, -⟩
    cases fuel with
    | zero => cases hrun
    | succ fuel =>
      rw [PendingBlockSource.pollRun_poll (by decide) (by decide)] at hrun
      exact hnot (PendingBlockSource.planFits_of_pollRun (by decide) (by decide) hrun)
  have hzero : ¬PlanFits 0 7 6 := by decide
  have hlargest : ¬PlanFits (2 ^ 64 - 1) 7 6 := by decide
  exact ⟨hlatest 0 hzero, hpending 0 hzero, hlatest _ hlargest, hpending _ hlargest⟩

end EvmDexPool
