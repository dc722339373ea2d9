import EvmDexPool.Collector.PolledRuns
import EvmDexPool.LB.PairHistory

/-!
# Polled Liquidity Book pools

A Liquidity Book pool stands for its pair as long as the logs it gets have their blocks' times. Over the turns of an updater that
polls it is, at each cursor, the pool that a fetch of the pair as it then is would come back with (`polled_refetched`).
-/

namespace EvmDexPool

open Std

namespace LB

/-- What the pair at `a` is after each block, the chain having what it does in the next block as its logs. A log that has a
block time has its block's. -/
structure OnChain (c : Chain) (a : Address) where
  time : Nat → Nat
  after : Nat → LBPair
  started : ∀ n, time n ≠ 0
  stamped : ∀ l ∈ c.logs, l.ownedBy a .TraderJoeLB → l.lacksBlockTimestamp ∨ l.blockTimestamp = some (time l.block)
  does : ∀ n, LBPair.History (time (n + 1)) (after n)
    ((c.ownBetween a .TraderJoeLB n (n + 1)).map fun l => { l with blockTimestamp := some (time (n + 1)) }) (after (n + 1))

/-- Block times that have those of the logs that come without. -/
def OnChain.Dates {c : Chain} {a : Address} (w : OnChain c a) (times : Nat → Option Nat) : Prop :=
  ∀ l ∈ c.logs, l.ownedBy a .TraderJoeLB → l.lacksBlockTimestamp → times l.block = some (w.time l.block)

/-- With these a log gets its block's time. -/
theorem OnChain.received {c : Chain} {a : Address} (w : OnChain c a) {times : Nat → Option Nat} (hdates : w.Dates times) (n : Nat) :
    (c.ownBetween a .TraderJoeLB n (n + 1)).map (PoolType.TraderJoeLB.received times) =
      (c.ownBetween a .TraderJoeLB n (n + 1)).map fun l => { l with blockTimestamp := some (w.time (n + 1)) } := by
  refine List.map_congr_left fun l hl => ?_
  obtain ⟨hmem, hown⟩ := List.mem_filter.1 hl
  obtain ⟨hown, hlt, hle⟩ := of_decide_eq_true hown
  obtain hblock : l.block = n + 1 := by omega
  have hnumber : l.blockNumber = some (n + 1) := hblock ▸ (c.mined l hmem).blockNumber
  unfold PoolType.received Log.fillBlockTimestamp
  by_cases hlacks : l.lacksBlockTimestamp
  · have htime := hdates l hmem hown hlacks
    rw [hblock] at htime
    simp [hlacks, hnumber, htime]
  · have hstamp := (w.stamped l hmem hown).resolve_left hlacks
    rw [hblock] at hstamp
    simp [hlacks, ← hstamp]

namespace LBPool

theorem event_topic_mem (e : LBEvent) : e.topic ∈ topics := by
  unfold topics LBEvent.topic
  cases e <;> simp

theorem applyLog_other {p : LBPool} {l : Log} (now : Nat) (h : ¬PoolType.TraderJoeLB.concerns l) : (p.applyLog now l).1 = p := by
  have hother : ∀ t, l.topic0 = some t → t ∉ topics := fun _ => PoolType.not_mem_of_not_concerns h
  unfold applyLog
  cases hpayload : l.payload with
  | event e =>
    cases e with
    | lb e =>
      have htopic : l.topic0 = some e.topic := by
        unfold Log.topic0
        rw [hpayload]
        rfl
      exact absurd (event_topic_mem e) (hother _ htopic)
    | v2 | v3 | erc4626 => rfl
  | raw t err =>
    dsimp only
    split <;> rfl
  | anonymous => rfl

theorem foldl_stepPool (clock : Log → Nat) (ls : List Log) (q : LBPool) :
    ls.foldl (fun p l => stepLog clock l p) (Pool.lb q) = .lb (q.replay (ls.map fun l => (clock l, l))) := by
  induction ls generalizing q with
  | nil => rfl
  | cons l ls ih => exact ih (q.applyLog (clock l) l).1

end LBPool

/-- A Liquidity Book pool stands for its pair. -/
def OnChain.mirroring {c : Chain} {a : Address} (w : OnChain c a) : Mirroring Pool c a .TraderJoeLB where
  Shows n p := ∃ q, p = .lb q ∧ Follows a q (w.after n) ∧ (w.after n).Sane
  Dates := w.Dates
  ofType := by
    rintro n p ⟨q, rfl, -⟩
    rfl
  next := by
    rintro n p clock times hdates ⟨q, rfl, hfollows, hsane⟩
    rw [w.received hdates, LBPool.foldl_stepPool]
    have hcalls : ∀ ls : List Log, (ls.map fun l => (clock l, l)).map Prod.snd = ls := by
      intro ls
      rw [List.map_map]
      exact List.map_id ls
    obtain ⟨hnext, hsane'⟩ := Follows.history (w.does n) (w.started (n + 1)) hsane hfollows (hcalls _)
    exact ⟨_, rfl, hnext, hsane'⟩
  passes := by
    intro p l now htype hother
    cases p with
    | lb q => exact congrArg Pool.lb (LBPool.applyLog_other now hother)
    | v2 | v3 | verioIP => cases htype

/-- The bins of a pool that follows its pair are those the pair has. -/
theorem Follows.bins {a : Address} {p : LBPool} {pair : LBPair} (h : Follows a p pair) (id : Nat) :
    p.bins[id]? = if id ∈ pair.bins then some (pair.reserves id) else none := by
  rw [h.stored.getElem?, h.reserves]
  have hheld : (pair.held (id, .x) = 0 ∧ pair.held (id, .y) = 0) ↔ id ∉ pair.bins := by
    rw [pair.empty, Prod.ext_iff]
    rfl
  by_cases hid : id ∈ pair.bins
  · rw [if_pos hid, if_neg (mt hheld.1 (not_not.2 hid))]
    rfl
  · rw [if_neg hid, if_pos (hheld.2 hid)]

/-- **A fetch comes back with the pool that has followed**, its dates apart, where the bins it finds are all of them. -/
theorem Follows.refetched {a : Address} {p : LBPool} {pair : LBPair} (h : Follows a p pair) {reads : PairReads} {may : Prop}
    {keccak256 : Nat → Nat} (hreads : reads.TrueOf may keccak256 pair)
    (hslots : ∀ base, treeBaseSlot pair.version = some base → DistinctSlots keccak256 base)
    (hfound : reads.walks keccak256 pair.version → ∀ id ∈ pair.bins, id = pair.activeId ∨ (id ≠ 0 ∧ id ≠ 2 ^ 24 - 1))
    {getOrFetchToken : Address → Except Fault (Address × Nat)} (htoken : ∀ a, Yields may (getOrFetchToken a) (·.1 = a)) (now : Nat) :
    Yields may (reads.fetchLbPool keccak256 getOrFetchToken now a) fun q =>
      q = { p with lastUpdated := now, createdAt := now } := by
  refine (hreads.fetches hslots htoken now a).imp fun q hq => ?_
  obtain ⟨hpool, ids, hids, hbins⟩ := hq
  have hsame : q.bins = p.bins := by
    refine ExtTreeMap.ext_getElem? fun id => ?_
    rw [hbins, hids.kept, h.bins]
    refine if_congr ⟨fun hid => hid.1, fun hid => ⟨hid, fun hwalks => hfound hwalks id hid⟩⟩ rfl rfl
  rw [hpool, hsame, h.eq_pool]

end LB

/-- **Following the logs is fetching again.** Over any turns of a new updater that polls, as long as it runs and the pair's logs
come with block times or get them: a Liquidity Book pool that was what its pair was at the block the updater starts at is, at the
cursor, what a fetch of the pair as it then is comes back with, in all but its own dates. -/
theorem Collector.polled_refetched (c : Chain) (r : PoolRegistry Pool) (swapEventTx : Bool) (startBlock maxBlocksPerBatch : Nat)
    (turns : List (Env × Nat)) {r' : PoolRegistry Pool} {u' : UnifiedPoolUpdater}
    (hrun : polledFrom c r swapEventTx startBlock maxBlocksPerBatch turns = ⟨r', some u'⟩) {a : Address} (w : LB.OnChain c a)
    {q : LB.LBPool} (hq : r.getPool a = some (.lb q)) (htopics : ∀ x ∈ PoolType.TraderJoeLB.topics, x ∈ r.topics)
    (hfollows : LB.Follows a q (w.after (UnifiedPoolUpdater.startCursor r.lastProcessedBlock startBlock)))
    (hsane : (w.after (UnifiedPoolUpdater.startCursor r.lastProcessedBlock startBlock)).Sane)
    (hdates : ∀ turn ∈ turns, w.Dates turn.1.times) :
    ∃ q', r'.getPool a = some (.lb q') ∧ ∀ {reads : LB.PairReads} {may : Prop} {keccak256 : Nat → Nat}
      {getOrFetchToken : Address → Except Fault (Address × Nat)} (now : Nat),
      reads.TrueOf may keccak256 (w.after r'.lastProcessedBlock) →
      (∀ base, LB.treeBaseSlot (w.after r'.lastProcessedBlock).version = some base → LB.DistinctSlots keccak256 base) →
      (reads.walks keccak256 (w.after r'.lastProcessedBlock).version → ∀ id ∈ (w.after r'.lastProcessedBlock).bins,
        id = (w.after r'.lastProcessedBlock).activeId ∨ (id ≠ 0 ∧ id ≠ 2 ^ 24 - 1)) →
      (∀ a, Yields may (getOrFetchToken a) (·.1 = a)) →
      Yields may (reads.fetchLbPool keccak256 getOrFetchToken now a) fun p => p = { q' with lastUpdated := now, createdAt := now } := by
  have hcourse := OnCourse.new w.mirroring hq ⟨q, rfl, hfollows, hsane⟩ htopics swapEventTx maxBlocksPerBatch
  obtain ⟨_, hx, q', rfl, hfollows', -⟩ := (polled_shows w.mirroring hcourse hdates hrun).shows
  exact ⟨q', hx, fun now hreads hslots hfound htoken => hfollows'.refetched hreads hslots hfound htoken now⟩

namespace LB

/-- `parityPair` with less in its bin. -/
def thinPair : LBPair :=
  { parityPair with
    reserves := fun id => if id = 2 ^ 23 then (2, 3) else (0, 0)
    words := by
      intro id
      split <;> decide
    empty := by
      intro id
      change id ∉ ({2 ^ 23} : Finset Nat) ↔ _
      simp }

/-- A deposit in block 120 that comes without a block time. -/
def depositLog : Log :=
  ⟨9, .event (.lb (.depositedToBins [2 ^ 23] [3 + 4 * 2 ^ 128])), some 120, some 0, some 0, some 120, none, false⟩

def oneDeposit : Chain where
  logs := [depositLog]
  mined := by
    intro l hl
    rw [List.mem_singleton.1 hl]
    exact ⟨rfl, by decide, by decide, rfl, rfl, rfl⟩
  sorted := List.pairwise_singleton ..
  keys := List.pairwise_singleton ..

theorem thinPair_does (t : Nat) : thinPair.Does t (.mint false [⟨2 ^ 23, 3, 4, by decide⟩]) parityPair where
  covered := by decide +kernel
  held := by
    funext ⟨id, side⟩
    by_cases hid : id = 2 ^ 23
    · subst hid
      cases side <;> rfl
    · have hkey : ∀ side', (id, side) ≠ (2 ^ 23, side') := fun _ he => hid (congrArg Prod.fst he)
      change _ = Ledger.post (Ledger.post thinPair.held ⟨(2 ^ 23, .x), 3, 0⟩) ⟨(2 ^ 23, .y), 4, 0⟩ (id, side)
      rw [Ledger.post_of_ne (hkey .y), Ledger.post_of_ne (hkey .x)]
      have hafter : parityPair.reserves id = (0, 0) := if_neg hid
      have hbefore : thinPair.reserves id = (0, 0) := if_neg hid
      unfold LBPair.held
      rw [hafter, hbefore]
  clock := rfl
  staticFee := rfl
  sane := ⟨by decide, by decide⟩
  version := rfl
  tokenX := rfl
  tokenY := rfl
  binStep := rfl
  hooks := rfl

theorem ownBetween_oneDeposit (n : Nat) : oneDeposit.ownBetween 9 .TraderJoeLB n (n + 1) = if n = 119 then [depositLog] else [] := by
  by_cases hn : n = 119
  · subst hn
    rfl
  · rw [if_neg hn]
    unfold Chain.ownBetween
    rw [List.filter_eq_nil_iff]
    intro l hl hin
    rw [List.mem_singleton.1 hl] at hin
    have hblock : n < 120 ∧ 120 ≤ n + 1 := (of_decide_eq_true hin).2
    omega

def pairAfter (n : Nat) : LBPair := if n < 120 then thinPair else parityPair

theorem pairAfter_history (t n : Nat) : LBPair.History t (pairAfter n)
    ((oneDeposit.ownBetween 9 .TraderJoeLB n (n + 1)).map fun l => { l with blockTimestamp := some t }) (pairAfter (n + 1)) := by
  rw [ownBetween_oneDeposit]
  by_cases hn : n = 119
  · subst hn
    have hpacks : Packs [⟨2 ^ 23, 3, 4, by decide⟩] [2 ^ 23] [3 + 4 * 2 ^ 128] := by
      unfold Packs
      decide +kernel
    exact .cons (thinPair_does t) (.mint ⟨rfl, rfl⟩ (by decide) hpacks) (.nil _)
  · have hsame : pairAfter (n + 1) = pairAfter n := by
      unfold pairAfter
      exact if_congr (by omega) rfl rfl
    rw [if_neg hn, hsame]
    exact .nil _

theorem oneDeposit_lacks : ∀ l ∈ oneDeposit.logs, l.lacksBlockTimestamp := by
  intro l hl
  rw [List.mem_singleton.1 hl]
  rfl

def thinOnChain : OnChain oneDeposit 9 where
  time n := 1790000000 + n
  after := pairAfter
  started n := (Nat.add_pos_left (by decide) n).ne'
  stamped l hl _ := .inl (oneDeposit_lacks l hl)
  does n := pairAfter_history _ n

/-- The pool of `thinPair`. -/
def thinPool : LBPool := thinPair.pool 0 9 ((∅ : ExtTreeMap Nat (Nat × Nat)).insert (2 ^ 23) (2, 3))

theorem thinPool_bins (id : Nat) : thinPool.bins[id]? = if id = 2 ^ 23 then some (2, 3) else none := by
  change ((∅ : ExtTreeMap Nat (Nat × Nat)).insert (2 ^ 23) (2, 3))[id]? = _
  rw [Ranges.lookup_insert, ExtTreeMap.getElem?_empty]

theorem thinPool_follows : Follows 9 thinPool thinPair where
  address := rfl
  stored := by
    intro id hid
    rw [thinPool_bins] at hid
    split at hid <;> simp at hid
  reserves := by
    funext ⟨id, side⟩
    unfold LBPool.reserves LBPool.bin LBPair.held thinPair
    dsimp only
    rw [thinPool_bins]
    by_cases hid : id = 2 ^ 23
    · cases side <;> simp only [if_pos hid, Option.getD_some]
    · cases side <;> simp only [if_neg hid, Option.getD_none]
  clock := rfl
  staticFee := rfl
  version := rfl
  tokenX := rfl
  tokenY := rfl
  binStep := rfl
  hooks := rfl

/-- The pool at block 100. -/
def thinRegistry : PoolRegistry Pool :=
  { (PoolRegistry.empty : PoolRegistry Pool) with
    byAddress := (∅ : ExtTreeMap Address Pool).insert 9 (.lb thinPool)
    lastProcessedBlock := 100
    topics := PoolType.TraderJoeLB.topics }

end LB

/-- Headers that are all there. -/
def datedEnv : Env := { stillEnv with times := fun n => some (1790000000 + n) }

/-- Two batches on, the pool is the one that a fetch comes back with. -/
theorem Collector.polled_refetched_deposit : ∃ r' u' q', polledFrom LB.oneDeposit LB.thinRegistry false 0 40
    [(datedEnv, 150), (datedEnv, 150)] = ⟨r', some u'⟩ ∧ r'.getPool 9 = some (.lb q') ∧
    LB.parityReads.fetchLbPool LB.sampleKeccak (fun a => .ok (a, 18)) 0 9 = .ok { q' with lastUpdated := 0, createdAt := 0 } := by
  have hruns : (polledFrom LB.oneDeposit LB.thinRegistry false 0 40 [(datedEnv, 150), (datedEnv, 150)]).updater.isSome := by
    decide +kernel
  have hcursor : (polledFrom LB.oneDeposit LB.thinRegistry false 0 40
      [(datedEnv, 150), (datedEnv, 150)]).registry.lastProcessedBlock = 150 := by
    decide +kernel
  rcases hend : polledFrom LB.oneDeposit LB.thinRegistry false 0 40 [(datedEnv, 150), (datedEnv, 150)] with ⟨r', updater⟩
  rw [hend] at hruns hcursor
  obtain ⟨u', rfl⟩ := Option.isSome_iff_exists.1 hruns
  have hdates : ∀ turn ∈ [(datedEnv, 150), (datedEnv, 150)], LB.thinOnChain.Dates turn.1.times := by
    intro turn hturn l _ _ _
    obtain rfl : turn = (datedEnv, 150) := by simpa using hturn
    rfl
  obtain ⟨q', hq', hfetch⟩ := polled_refetched LB.oneDeposit LB.thinRegistry false 0 40 [(datedEnv, 150), (datedEnv, 150)] hend
    LB.thinOnChain (q := LB.thinPool) (by decide +kernel) (fun _ h => h) LB.thinPool_follows ⟨by decide, by decide⟩ hdates
  refine ⟨r', u', q', rfl, hq', ?_⟩
  dsimp only at hcursor
  have hafter : LB.thinOnChain.after r'.lastProcessedBlock = LB.parityPair := by
    rw [hcursor]
    rfl
  rw [hafter] at hfetch
  have hslots : ∀ base, LB.treeBaseSlot LB.parityPair.version = some base → LB.DistinctSlots LB.sampleKeccak base := by
    intro base hbase
    obtain rfl : 7 = base := Option.some_injective _ hbase
    exact LB.sampleKeccak_distinct
  rcases hfetch 0 LB.parityReads_true hslots (fun _ => by decide) (fun a => .inl ⟨(a, 18), rfl, rfl⟩) with ⟨p, rfl, hp⟩ | ⟨hno, -⟩
  · exact hp
  · exact hno.elim

end EvmDexPool
