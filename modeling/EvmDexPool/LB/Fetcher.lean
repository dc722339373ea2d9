import Mathlib.Data.List.Destutter
import EvmDexPool.Reads
import EvmDexPool.LB.BinTree

/-!
# Fetching a Liquidity Book pair (`lb/fetcher.rs`, `lb/version.rs`)

| here | there |
| --- | --- |
| `PairReads`             | the calls on the pair, at one block |
| `detectLbVersion`       | `detect_lb_version` (version.rs:87) |
| `nextNonEmptyBin`       | `next_non_empty_bin` (fetcher.rs:147) |
| `discoverBinsByWalking` | `discover_bins_by_walking` (fetcher.rs:191) |
| `fetchV20State`, `fetchV21State` | `fetch_v20_state`, `fetch_v21_state` (fetcher.rs:265, 327) |
| `discoverBins`          | batch 2 of `fetch_lb_pool` (fetcher.rs:434-530) |
| `fetchLbPool`           | `fetch_lb_pool` (fetcher.rs:377) |

The answers of a multicall come in the order of its calls; one that has to answer every call fails with the first that fails.
-/

namespace EvmDexPool.LB

open Std

/-- `LB_TREE_BASE_SLOT_V22` (fetcher.rs:19). -/
def LB_TREE_BASE_SLOT_V22 : Nat := 7

/-- `LB_TREE_BASE_SLOT_V21` (fetcher.rs:26). -/
def LB_TREE_BASE_SLOT_V21 : Nat := 8

/-- `TREE_MATH_ERROR_DEPTH_SEARCH` (fetcher.rs:138). -/
def TREE_MATH_ERROR_DEPTH_SEARCH : List Nat := [0x10, 0xd6, 0x48, 0x61]

/-- How a call fails: it reverts with some data, or is not answered. -/
inductive CallError
  | reverted (data : List Nat)
  | other (msg : String)
deriving DecidableEq

def CallError.fault : CallError → Fault
  | .reverted _ => .error "execution reverted"
  | .other msg => .error msg

structure StaticFeeParameters where
  baseFactor : Nat
  filterPeriod : Nat
  decayPeriod : Nat
  reductionFactor : Nat
  variableFeeControl : Nat
  protocolShare : Nat
  maxVolatilityAccumulator : Nat
deriving DecidableEq

structure VariableFeeParameters where
  volatilityAccumulator : Nat
  volatilityReference : Nat
  idReference : Nat
  timeOfLastUpdate : Nat
deriving DecidableEq

/-- What the calls of `fetch_lb_pool` answer. A multicall that takes failed calls can fail as a whole. -/
structure PairReads where
  detectCall : Except Fault Unit
  stateCall : Except Fault Unit
  -- v2.1 and v2.2
  getLBHooksParameters : Except Fault B256
  getFactory : Except Fault Address
  getTokenX : Except Fault Address
  getTokenY : Except Fault Address
  getBinStep : Except Fault Nat
  getActiveId : Except Fault Nat
  getStaticFeeParameters : Except Fault StaticFeeParameters
  getVariableFeeParameters : Except Fault VariableFeeParameters
  getNextNonEmptyBin : Bool → Nat → Except CallError Nat
  getBin : Nat → Except Fault (Nat × Nat)
  getStorageAt : Nat → Except Fault Nat
  -- v2.0
  factory : Except Fault Address
  tokenX : Except Fault Address
  tokenY : Except Fault Address
  /-- The active id, after both reserves. -/
  getReservesAndId : Except Fault (Nat × Nat × Nat)
  /-- The bin step, and the fee parameters of both kinds. -/
  feeParameters : Except Fault (Nat × StaticFeeParameters × VariableFeeParameters)
  findFirstNonEmptyBinId : Nat → Bool → Except CallError Nat
  getBinV20 : Nat → Except Fault (Nat × Nat)

/-- `LBState` (fetcher.rs:245). -/
structure LBState where
  tokenXRaw : Address
  tokenYRaw : Address
  binStep : Nat
  activeId : Nat
  staticFee : StaticFeeParameters
  variableFee : VariableFeeParameters
deriving DecidableEq

namespace PairReads
variable (reads : PairReads)

/-- Each version is known by what only it answers. -/
def detectLbVersion : Except Fault (Option LBVersion) := do
  reads.detectCall
  if reads.getLBHooksParameters.isOk then .ok (some .V2_2)
  else if reads.getFactory.isOk then .ok (some .V2_1)
  else if reads.factory.isOk && reads.feeParameters.isOk then .ok (some .V2_0)
  else .ok none

def fetchV20State : Except Fault LBState := do
  reads.stateCall
  let tokenXRaw ← reads.tokenX
  let tokenYRaw ← reads.tokenY
  let reserves ← reads.getReservesAndId
  let (binStep, staticFee, variableFee) ← reads.feeParameters
  .ok ⟨tokenXRaw, tokenYRaw, binStep, reserves.2.2, staticFee, variableFee⟩

def fetchV21State : Except Fault LBState := do
  reads.stateCall
  let tokenXRaw ← reads.getTokenX
  let tokenYRaw ← reads.getTokenY
  let binStep ← reads.getBinStep
  let activeId ← reads.getActiveId
  let staticFee ← reads.getStaticFeeParameters
  let variableFee ← reads.getVariableFeeParameters
  .ok ⟨tokenXRaw, tokenYRaw, binStep, activeId, staticFee, variableFee⟩

def fetchState (version : LBVersion) : Except Fault LBState :=
  match version with
  | .V2_0 => reads.fetchV20State
  | .V2_1 | .V2_2 => reads.fetchV21State

/-- Read again on a v2.2 pair, where a failure is one of the fetch (fetcher.rs:405-426). -/
def hooksParameters (version : LBVersion) : Except Fault (Option B256) :=
  match version with
  | .V2_2 => do
    let h ← reads.getLBHooksParameters
    .ok (if h = 0 then none else some h)
  | .V2_0 | .V2_1 => .ok none

/-- `id` goes into a `U24`. Only v2.0's own revert says that there is no further bin. -/
def nextNonEmptyBin (version : LBVersion) (swapForY : Bool) (id : Nat) : Except Fault (Option Nat) :=
  if id < 2 ^ 24 then
    match version with
    | .V2_0 =>
      match reads.findFirstNonEmptyBinId id swapForY with
      | .ok next => .ok (some next)
      | .error (.reverted data) =>
        if data = TREE_MATH_ERROR_DEPTH_SEARCH then .ok none else .error (CallError.reverted data).fault
      | .error e => .error e.fault
    | .V2_1 | .V2_2 =>
      match reads.getNextNonEmptyBin swapForY id with
      | .ok next => .ok (some next)
      | .error e => .error e.fault
  else .error .panic

end PairReads

/-- One direction of the walk, until there is no further bin or the answer `ends` it (fetcher.rs:202-222). -/
def walk (next : Nat → Except Fault (Option Nat)) (ends : Nat → Nat → Bool) : Nat → Nat → Except Fault (List Nat)
  | 0, _ => .error .diverges
  | fuel + 1, id => do
    match ← next id with
    | none => .ok []
    | some n =>
      if ends n id then .ok []
      else do
        let rest ← walk next ends fuel n
        .ok (n :: rest)

def endsDown (next id : Nat) : Bool := next = 0 ∨ next ≥ id

def endsUp (next id : Nat) : Bool := next = 0x00FFFFFF ∨ next ≤ id

/-- Each direction takes as many rounds as there are ids at most. -/
def discoverBinsByWalking (next : Bool → Nat → Except Fault (Option Nat)) (activeId : Nat) : Except Fault (List Nat) := do
  let down ← walk (next true) endsDown (2 ^ 24) activeId
  let up ← walk (next false) endsUp (2 ^ 24) activeId
  .ok (((activeId :: down ++ up).mergeSort (· ≤ ·)).destutter (· ≠ ·))

/-- `tree_base_slot` (fetcher.rs:234). -/
def treeBaseSlot : LBVersion → Option Nat
  | .V2_2 => some LB_TREE_BASE_SLOT_V22
  | .V2_1 => some LB_TREE_BASE_SLOT_V21
  | .V2_0 => none

/-- The version as it is written out. -/
def LBVersion.debug : LBVersion → String
  | .V2_0 => "V2_0"
  | .V2_1 => "V2_1"
  | .V2_2 => "V2_2"

/-- A tree that cannot be read is walked around; one that contradicts itself is an error. -/
def PairReads.discoverBins (reads : PairReads) (keccak256 : Nat → Nat) (poolAddress : Address) (version : LBVersion)
    (activeId : Nat) : Except Fault (List Nat) :=
  match treeBaseSlot version with
  | some base =>
    match discoverBinsFromTree keccak256 reads.getStorageAt base with
    | .ok (some ids) =>
      if ids = [] then
        .error (.error (s!"LB bin tree at slot {base} for {poolAddress} ({version.debug}): root bitmap is non-zero " ++
          "but no leaf bin was reachable under it — storage layout may have changed"))
      else .ok ids
    | .ok none => .ok []
    | .error (.error e) =>
      match discoverBinsByWalking (reads.nextNonEmptyBin version) activeId with
      | .ok ids => .ok ids
      | .error (.error walkErr) =>
        .error (.error (s!"LB bin discovery failed for {poolAddress} ({version.debug}): tree read at slot {base} " ++
          s!"failed ({e}), and the walk fallback also failed ({walkErr})"))
      | .error fault => .error fault
    | .error fault => .error fault
  | none => discoverBinsByWalking (reads.nextNonEmptyBin version) activeId

/-- One bin's reserves (fetcher.rs:536-572); v2.0 answers 256 bits, of which `u128` takes none that do not fit. -/
def PairReads.binReserves (reads : PairReads) (version : LBVersion) (id : Nat) : Except Fault (Nat × Nat) :=
  if id < 2 ^ 24 then
    match version with
    | .V2_0 => do
      let r ← reads.getBinV20 id
      .ok ((Fixed.narrow 128 r.1).getD 0, (Fixed.narrow 128 r.2).getD 0)
    | .V2_1 | .V2_2 => reads.getBin id
  else .error .panic

/-- The token addresses come back from `token_info`. -/
def PairReads.fetchLbPool (reads : PairReads) (keccak256 : Nat → Nat) (getOrFetchToken : Address → Except Fault (Address × Nat))
    (now : Nat) (poolAddress : Address) : Except Fault LBPool := do
  match ← reads.detectLbVersion with
  | none => .error (.error s!"{poolAddress} is not a Trader Joe LB pair")
  | some version =>
    let state ← reads.fetchState version
    let hooksParameters ← reads.hooksParameters version
    let tokenX ← getOrFetchToken state.tokenXRaw
    let tokenY ← getOrFetchToken state.tokenYRaw
    let binIds ← reads.discoverBins keccak256 poolAddress version state.activeId
    let results ← binIds.mapM (reads.binReserves version)
    let bins := (binIds.zip results).foldl
      (fun bins e => if e.2.1 > 0 ∨ e.2.2 > 0 then bins.insert e.1 e.2 else bins) (∅ : ExtTreeMap Nat (Nat × Nat))
    .ok {
      address := poolAddress
      tokenX := tokenX.1
      tokenY := tokenY.1
      binStep := state.binStep
      activeId := state.activeId
      bins := bins
      baseFactor := state.staticFee.baseFactor
      filterPeriod := state.staticFee.filterPeriod
      decayPeriod := state.staticFee.decayPeriod
      reductionFactor := state.staticFee.reductionFactor
      variableFeeControl := state.staticFee.variableFeeControl
      protocolShare := state.staticFee.protocolShare
      maxVolatilityAccumulator := state.staticFee.maxVolatilityAccumulator
      volatilityAccumulator := state.variableFee.volatilityAccumulator
      volatilityReference := state.variableFee.volatilityReference
      idReference := state.variableFee.idReference
      timeOfLastUpdate := state.variableFee.timeOfLastUpdate
      lastUpdated := now
      createdAt := now
      version := version
      hooksParameters := hooksParameters }

/-! ## The walk -/

section Walk
variable {S : Finset Nat} {down : Bool} {id n s : Nat}

/-- On the side of `id` that the walk goes to. -/
def Beyond (down : Bool) (id s : Nat) : Prop := if down then s < id else id < s

/-- The end of the ids on that side, which the walk takes for the end of the bins. -/
def mark (down : Bool) : Nat := if down then 0 else 2 ^ 24 - 1

/-- What the pair answers when it is asked for the next bin and answers: the nearest, or when there is none that there is
none or one of the two ids at the ends. -/
def NextOf (S : Finset Nat) (down : Bool) (id : Nat) : Option Nat → Prop
  | none => ∀ s ∈ S, ¬Beyond down id s
  | some n => n < 2 ^ 24 ∧
      ((n ∈ S ∧ Beyond down id n ∧ ∀ s ∈ S, Beyond down id s → s = n ∨ Beyond down n s) ∨
        ((∀ s ∈ S, ¬Beyond down id s) ∧ (n = 0 ∨ n = 2 ^ 24 - 1)))

def ends (down : Bool) : Nat → Nat → Bool := if down then endsDown else endsUp

theorem ends_iff : ends down n id = true ↔ n = mark down ∨ ¬Beyond down id n := by
  cases down <;> simp [ends, endsDown, endsUp, mark, Beyond]

/-- Nothing is beyond the mark. -/
theorem not_beyond_mark (hs : s < 2 ^ 24) : ¬Beyond down (mark down) s := by
  cases down <;> simp [mark, Beyond]
  omega

theorem Beyond.trans (h : Beyond down id n) (h' : Beyond down n s) : Beyond down id s := by
  cases down <;> simp only [Beyond, if_true, Bool.false_eq_true, if_false] at * <;> omega

/-- How many ids are on that side. -/
def ahead (down : Bool) (id : Nat) : Nat := if down then id else 2 ^ 24 - 1 - id

theorem Beyond.ahead_lt (h : Beyond down id n) (hn : n < 2 ^ 24) : ahead down n < ahead down id := by
  cases down <;> simp only [Beyond, ahead, if_true, Bool.false_eq_true, if_false] at * <;> omega

/-- **One direction of the walk finds every bin on its side but the one at the mark.** -/
theorem walk_yields {may : Prop} {next : Nat → Except Fault (Option Nat)} {fuel : Nat} (hS : ∀ s ∈ S, s < 2 ^ 24)
    (hnext : ∀ id < 2 ^ 24, Yields may (next id) (NextOf S down id)) (hid : id < 2 ^ 24) (hfuel : ahead down id < fuel) :
    Yields may (walk next (ends down) fuel id) fun l => ∀ s, s ∈ l ↔ s ∈ S ∧ Beyond down id s ∧ s ≠ mark down := by
  induction fuel generalizing id with
  | zero => omega
  | succ fuel ih =>
    unfold walk
    refine (hnext id hid).bind fun r hof => ?_
    cases r with
    | none => exact .inl ⟨[], fun s => by simpa using fun hs hb => absurd hb (hof s hs), rfl⟩
    | some n =>
      obtain ⟨hn, hof⟩ := hof
      dsimp only
      split
      · next hends =>
        refine .inl ⟨[], fun s => ⟨fun hs => absurd hs List.not_mem_nil, ?_⟩, rfl⟩
        rintro ⟨hs, hb, hne⟩
        rcases hof with ⟨-, hbn, hnear⟩ | ⟨hnone, -⟩
        · -- the nearest is at the mark, and nothing is beyond it
          obtain rfl := (ends_iff.1 hends).resolve_right (not_not.2 hbn)
          exact absurd (hnear s hs hb) (not_or.2 ⟨hne, not_beyond_mark (hS s hs)⟩)
        · exact absurd hb (hnone s hs)
      · next hends =>
        rw [ends_iff, not_or, not_not] at hends
        refine (ih hn (by have := hends.2.ahead_lt hn; omega)).bind fun rest hmem => .inl ⟨_, fun s => ?_, rfl⟩
        rcases hof with ⟨hnS, hbn, hnear⟩ | ⟨-, hend⟩
        · rw [List.mem_cons, hmem]
          constructor
          · rintro (rfl | ⟨hs, hb, hne⟩)
            · exact ⟨hnS, hbn, hends.1⟩
            · exact ⟨hs, hbn.trans hb, hne⟩
          · rintro ⟨hs, hb, hne⟩
            rcases hnear s hs hb with rfl | hb'
            · exact .inl rfl
            · exact .inr ⟨hs, hb', hne⟩
        · -- an id at an end always ends the walk
          exfalso
          obtain ⟨hne, hb⟩ := hends
          cases down <;> simp only [mark, Beyond, if_true, Bool.false_eq_true, if_false] at hne hb <;> omega

end Walk

theorem sort_dedup (l : List Nat) :
    ((l.mergeSort (· ≤ ·)).destutter (· ≠ ·)).Pairwise (· < ·) ∧ ∀ s, s ∈ (l.mergeSort (· ≤ ·)).destutter (· ≠ ·) ↔ s ∈ l := by
  have hsorted : (l.mergeSort (· ≤ ·)).Pairwise (· ≤ ·) := List.pairwise_mergeSort' (· ≤ ·) l
  rw [hsorted.destutter_eq_dedup]
  constructor
  · have hle := hsorted.sublist (List.dedup_sublist _)
    exact hle.imp₂ (fun _ _ hle hne => Nat.lt_of_le_of_ne hle hne) (List.nodup_dedup _)
  · intro s
    rw [List.mem_dedup, (List.mergeSort_perm l _).mem_iff]

/-- **The walk finds the active bin, and every other but those at the two ends of the ids.** -/
theorem discoverBinsByWalking_yields {may : Prop} {S : Finset Nat} {next : Bool → Nat → Except Fault (Option Nat)} {activeId : Nat}
    (hS : ∀ s ∈ S, s < 2 ^ 24) (hactive : activeId < 2 ^ 24)
    (hnext : ∀ down, ∀ id < 2 ^ 24, Yields may (next down id) (NextOf S down id)) :
    Yields may (discoverBinsByWalking next activeId) fun ids => ids.Pairwise (· < ·) ∧
      ∀ s, s ∈ ids ↔ s = activeId ∨ (s ∈ S ∧ s ≠ 0 ∧ s ≠ 2 ^ 24 - 1) := by
  unfold discoverBinsByWalking
  refine (@walk_yields S true _ _ _ (2 ^ 24) hS (hnext true) hactive (by simpa [ahead] using hactive)).bind fun down hdown => ?_
  refine (@walk_yields S false _ _ _ (2 ^ 24) hS (hnext false) hactive (by simp [ahead]; omega)).bind fun up hup => ?_
  obtain ⟨hsorted, hmem⟩ := sort_dedup (activeId :: down ++ up)
  refine .inl ⟨_, ⟨hsorted, fun s => ?_⟩, rfl⟩
  rw [hmem, List.mem_append, List.mem_cons, hdown, hup]
  simp only [Beyond, mark, if_true, Bool.false_eq_true, if_false]
  constructor
  · rintro ((rfl | ⟨hs, hlt, hne⟩) | ⟨hs, hlt, hne⟩)
    · exact .inl rfl
    · exact .inr ⟨hs, hne, by omega⟩
    · exact .inr ⟨hs, by omega, hne⟩
  · rintro (rfl | ⟨hs, hzero, hmax⟩)
    · exact .inl (.inl rfl)
    · rcases Nat.lt_trichotomy s activeId with hlt | rfl | hlt
      · exact .inl (.inr ⟨hs, hlt, hzero⟩)
      · exact .inl (.inl rfl)
      · exact .inr ⟨hs, hlt, hmax⟩

/-! ## The pair -/

/-- A tree that is read in part gives what the whole of it does, or no answer. -/
theorem discoverBinsFromTree_gives {may : Prop} {keccak256 : Nat → Nat} {base : Nat} {read : Nat → Except Fault Nat} {stored : Nat → Nat}
    (h : ∀ slot, Tells may (read slot) (stored slot)) :
    ∃ found, discoverBinsFromTree keccak256 (fun slot => .ok (stored slot)) base = .ok found ∧
      Tells may (discoverBinsFromTree keccak256 read base) found := by
  unfold discoverBinsFromTree
  by_cases hroot : stored base = 0
  · refine ⟨none, by rw [ok_bind, if_pos hroot], (h base).bind ?_⟩
    rw [if_pos hroot]
    exact .ok none
  · simp only [ok_bind, if_neg hroot, mapM_ok (ε := Fault) fun _ _ => rfl]
    refine ⟨_, rfl, (h base).bind ?_⟩
    rw [if_neg hroot]
    exact (Tells.mapM fun k _ => h _).bind ((Tells.mapM fun k _ => h _).bind (.ok _))

/-- A pair at one block: the bins with reserves, within the ids and the words that there are. -/
structure LBPair where
  version : LBVersion
  tokenX : Address
  tokenY : Address
  binStep : Nat
  activeId : Nat
  staticFee : StaticFeeParameters
  variableFee : VariableFeeParameters
  hooks : B256
  bins : Finset Nat
  reserves : Nat → Nat × Nat
  active : activeId < 2 ^ 24
  ids : ∀ id ∈ bins, id < 2 ^ 24
  words : ∀ id, (reserves id).1 < 2 ^ 128 ∧ (reserves id).2 < 2 ^ 128
  empty : ∀ id, id ∉ bins ↔ reserves id = (0, 0)

namespace LBPair
variable (pair : LBPair)

/-- The pair as a pool, with the bins that are known. -/
def pool (now : Nat) (address : Address) (bins : ExtTreeMap Nat (Nat × Nat)) : LBPool where
  address := address
  tokenX := pair.tokenX
  tokenY := pair.tokenY
  binStep := pair.binStep
  activeId := pair.activeId
  bins := bins
  baseFactor := pair.staticFee.baseFactor
  filterPeriod := pair.staticFee.filterPeriod
  decayPeriod := pair.staticFee.decayPeriod
  reductionFactor := pair.staticFee.reductionFactor
  variableFeeControl := pair.staticFee.variableFeeControl
  protocolShare := pair.staticFee.protocolShare
  maxVolatilityAccumulator := pair.staticFee.maxVolatilityAccumulator
  volatilityAccumulator := pair.variableFee.volatilityAccumulator
  volatilityReference := pair.variableFee.volatilityReference
  idReference := pair.variableFee.idReference
  timeOfLastUpdate := pair.variableFee.timeOfLastUpdate
  lastUpdated := now
  createdAt := now
  version := pair.version
  hooksParameters := if pair.version = .V2_2 ∧ pair.hooks ≠ 0 then some pair.hooks else none

end LBPair

/-- What the pair's own version answers is the pair's, and what only another version answers fails. Storage reads may
fail in any case; where `may`, so may every other read, but not with the revert that says there is no further bin. -/
structure PairReads.TrueOf (reads : PairReads) (may : Prop) (keccak256 : Nat → Nat) (pair : LBPair) : Prop where
  detectCall : Tells may reads.detectCall ()
  stateCall : Tells may reads.stateCall ()
  hooks : if pair.version = .V2_2 then reads.getLBHooksParameters = .ok pair.hooks else ¬reads.getLBHooksParameters.isOk
  getFactory : reads.getFactory.isOk ↔ pair.version ≠ .V2_0
  v20 : pair.version = .V2_0 → reads.factory.isOk ∧ reads.feeParameters = .ok (pair.binStep, pair.staticFee, pair.variableFee) ∧
    Tells may reads.tokenX pair.tokenX ∧ Tells may reads.tokenY pair.tokenY ∧
    (∃ x y, Tells may reads.getReservesAndId (x, y, pair.activeId)) ∧
    (∀ id < 2 ^ 24, Tells may (reads.getBinV20 id) (pair.reserves id)) ∧
    ∀ down, ∀ id < 2 ^ 24, (∃ n, NextOf pair.bins down id (some n) ∧ reads.findFirstNonEmptyBinId id down = .ok n) ∨
      (NextOf pair.bins down id none ∧ reads.findFirstNonEmptyBinId id down = .error (.reverted TREE_MATH_ERROR_DEPTH_SEARCH)) ∨
      (may ∧ ∃ e, reads.findFirstNonEmptyBinId id down = .error e ∧ e ≠ .reverted TREE_MATH_ERROR_DEPTH_SEARCH)
  v21 : pair.version ≠ .V2_0 → Tells may reads.getTokenX pair.tokenX ∧ Tells may reads.getTokenY pair.tokenY ∧
    Tells may reads.getBinStep pair.binStep ∧ Tells may reads.getActiveId pair.activeId ∧
    Tells may reads.getStaticFeeParameters pair.staticFee ∧ Tells may reads.getVariableFeeParameters pair.variableFee ∧
    (∀ id < 2 ^ 24, Tells may (reads.getBin id) (pair.reserves id)) ∧
    ∀ down, ∀ id < 2 ^ 24, (∃ n, NextOf pair.bins down id (some n) ∧ reads.getNextNonEmptyBin down id = .ok n) ∨
      (may ∧ ∃ e, reads.getNextNonEmptyBin down id = .error e)
  storage : ∀ base, treeBaseSlot pair.version = some base → ∀ slot,
    Tells True (reads.getStorageAt slot) ((TreeUint24.encode pair.bins).storage keccak256 base slot)

namespace PairReads.TrueOf
variable {reads : PairReads} {may : Prop} {keccak256 : Nat → Nat} {pair : LBPair}

theorem detects (h : reads.TrueOf may keccak256 pair) : Tells may reads.detectLbVersion (some pair.version) := by
  refine h.detectCall.bind ?_
  have hhooks := h.hooks
  have hfactory := h.getFactory
  cases hv : pair.version with
  | V2_2 =>
    rw [if_pos hv] at hhooks
    rw [hhooks]
    exact .ok _
  | V2_1 =>
    rw [if_neg (by rw [hv]; decide)] at hhooks
    rw [if_neg hhooks, if_pos (hfactory.2 (by rw [hv]; decide))]
    exact .ok _
  | V2_0 =>
    obtain ⟨hf, hfee, -⟩ := h.v20 hv
    rw [if_neg (by rw [hv]; decide)] at hhooks
    rw [if_neg hhooks, if_neg fun hok => hfactory.1 hok hv, if_pos (by rw [hf, hfee]; rfl)]
    exact .ok _

/-- What the walk asks the pair, by whichever getter. -/
theorem next (h : reads.TrueOf may keccak256 pair) (down : Bool) {id : Nat} (hid : id < 2 ^ 24) :
    Yields may (reads.nextNonEmptyBin pair.version down id) (NextOf pair.bins down id) := by
  unfold nextNonEmptyBin
  rw [if_pos hid]
  cases hv : pair.version with
  | V2_0 =>
    obtain ⟨-, -, -, -, -, -, hnext⟩ := h.v20 hv
    rcases hnext down id hid with ⟨n, hn, heq⟩ | ⟨hn, heq⟩ | ⟨hmay, e, heq, hne⟩
    · exact .inl ⟨some n, hn, by simp only [heq]⟩
    · exact .inl ⟨none, hn, by simp only [heq, if_true]⟩
    · refine .inr ⟨hmay, ?_⟩
      cases e with
      | reverted data => exact ⟨_, by simp only [heq, if_neg fun hd => hne (congrArg CallError.reverted hd)]; rfl⟩
      | other msg => exact ⟨_, by simp only [heq]; rfl⟩
  | V2_1 | V2_2 =>
    obtain ⟨-, -, -, -, -, -, -, hnext⟩ := h.v21 (by rw [hv]; decide)
    rcases hnext down id hid with ⟨n, hn, heq⟩ | ⟨hmay, e, heq⟩
    · exact .inl ⟨some n, hn, by simp only [heq]⟩
    · cases e <;> exact .inr ⟨hmay, _, by simp only [heq]; rfl⟩

theorem reserves (h : reads.TrueOf may keccak256 pair) {id : Nat} (hid : id < 2 ^ 24) :
    Tells may (reads.binReserves pair.version id) (pair.reserves id) := by
  unfold binReserves
  rw [if_pos hid]
  cases hv : pair.version with
  | V2_0 =>
    obtain ⟨-, -, -, -, -, hbin, -⟩ := h.v20 hv
    refine (hbin id hid).bind ?_
    rw [Fixed.narrow_of_lt (pair.words id).1, Fixed.narrow_of_lt (pair.words id).2]
    exact .ok _
  | V2_1 | V2_2 =>
    obtain ⟨-, -, -, -, -, -, hbin, -⟩ := h.v21 (by rw [hv]; decide)
    exact hbin id hid

/-- The walk of the pair's bins. -/
theorem walk (h : reads.TrueOf may keccak256 pair) :
    Yields may (discoverBinsByWalking (reads.nextNonEmptyBin pair.version) pair.activeId) fun ids =>
      ids.Pairwise (· < ·) ∧ ∀ id, id ∈ ids ↔ id = pair.activeId ∨ (id ∈ pair.bins ∧ id ≠ 0 ∧ id ≠ 2 ^ 24 - 1) :=
  discoverBinsByWalking_yields pair.ids pair.active fun down _ hid => h.next down hid

theorem state (h : reads.TrueOf may keccak256 pair) :
    Tells may (reads.fetchState pair.version)
      ⟨pair.tokenX, pair.tokenY, pair.binStep, pair.activeId, pair.staticFee, pair.variableFee⟩ := by
  unfold fetchState
  cases hv : pair.version with
  | V2_0 =>
    obtain ⟨-, hfee, hx, hy, ⟨x, y, hid⟩, -⟩ := h.v20 hv
    refine h.stateCall.bind (hx.bind (hy.bind (hid.bind ?_)))
    rw [hfee]
    exact .ok _
  | V2_1 | V2_2 =>
    obtain ⟨hx, hy, hstep, hid, hstatic, hvariable, -⟩ := h.v21 (by rw [hv]; decide)
    exact h.stateCall.bind (hx.bind (hy.bind (hstep.bind (hid.bind (hstatic.bind (hvariable.bind (.ok _)))))))

theorem hooksParameters (h : reads.TrueOf may keccak256 pair) : reads.hooksParameters pair.version =
    .ok (if pair.version = .V2_2 ∧ pair.hooks ≠ 0 then some pair.hooks else none) := by
  have hhooks := h.hooks
  unfold PairReads.hooksParameters
  cases hv : pair.version with
  | V2_0 | V2_1 => rfl
  | V2_2 =>
    rw [if_pos hv] at hhooks
    dsimp only
    rw [hhooks, ok_bind]
    by_cases hzero : pair.hooks = 0 <;> simp [hzero]

end PairReads.TrueOf

/-- Whether the bins are found by walking: the version has no tree that can be read, or its tree was not. -/
def PairReads.walks (reads : PairReads) (keccak256 : Nat → Nat) (version : LBVersion) : Bool :=
  match treeBaseSlot version with
  | some base => !(discoverBinsFromTree keccak256 reads.getStorageAt base).isOk
  | none => true

/-- The ids that are found, with the bins at the two ends left out when they are found by walking. -/
def LBPair.Finds (pair : LBPair) (walked : Bool) (ids : List Nat) : Prop :=
  ids.Pairwise (· < ·) ∧
    ∀ id, id ∈ ids ↔ if walked then id = pair.activeId ∨ (id ∈ pair.bins ∧ id ≠ 0 ∧ id ≠ 2 ^ 24 - 1) else id ∈ pair.bins

/-- The bins whose reserves are asked for. -/
theorem PairReads.TrueOf.discovers {reads : PairReads} {may : Prop} {keccak256 : Nat → Nat} {pair : LBPair}
    (h : reads.TrueOf may keccak256 pair) (hslots : ∀ base, treeBaseSlot pair.version = some base → DistinctSlots keccak256 base)
    (address : Address) :
    Yields may (reads.discoverBins keccak256 address pair.version pair.activeId) (pair.Finds (reads.walks keccak256 pair.version)) := by
  unfold discoverBins
  cases hbase : treeBaseSlot pair.version with
  | none =>
    have hwalks : reads.walks keccak256 pair.version = true := by simp [walks, hbase]
    rw [hwalks]
    exact h.walk
  | some base =>
    obtain ⟨found, hfound, hread⟩ := discoverBinsFromTree_gives (h.storage base hbase)
    rw [discoverBinsFromTree_eq (hslots base hbase) pair.ids] at hfound
    dsimp only
    rcases hread with hread | ⟨-, msg, hread⟩
    · have hwalks : reads.walks keccak256 pair.version = false := by simp [walks, hbase, hread, Except.isOk, Except.toBool]
      rw [hwalks, hread, ← Except.ok.inj hfound]
      by_cases hempty : pair.bins = ∅
      · rw [if_pos hempty]
        exact .inl ⟨[], ⟨List.Pairwise.nil, fun id => by simp [hempty]⟩, rfl⟩
      · rw [if_neg hempty]
        dsimp only
        have hids := fun id => @mem_binIds _ pair.ids id
        obtain ⟨id, hid⟩ := Finset.nonempty_iff_ne_empty.2 hempty
        rw [if_neg fun hnil => by simpa [hnil] using (hids id).2 hid]
        exact .inl ⟨_, ⟨Bitmaps.layer_sorted (Bitmaps.layer_sorted (Bitmaps.bits_sorted ..)), hids⟩, rfl⟩
    · have hwalks : reads.walks keccak256 pair.version = true := by simp [walks, hbase, hread, Except.isOk, Except.toBool]
      rw [hwalks, hread]
      dsimp only
      rcases h.walk with ⟨ids, hids, hwalk⟩ | ⟨hmay, e, hwalk⟩
      · rw [hwalk]
        exact .inl ⟨ids, hids, rfl⟩
      · rw [hwalk]
        exact .inr ⟨hmay, _, rfl⟩

/-- What the reserves that are not zero come to. -/
theorem foldl_bins (g : Nat → Nat × Nat) (ids : List Nat) (m : ExtTreeMap Nat (Nat × Nat)) (t : Nat) :
    (ids.foldl (fun m id => if (g id).1 > 0 ∨ (g id).2 > 0 then m.insert id (g id) else m) m)[t]? =
      if t ∈ ids ∧ g t ≠ (0, 0) then some (g t) else m[t]? := by
  induction ids generalizing m with
  | nil => simp
  | cons id ids ih =>
    have hzero : ((g id).1 > 0 ∨ (g id).2 > 0) ↔ g id ≠ (0, 0) := by
      rw [ne_eq, Prod.ext_iff]
      dsimp only
      omega
    rw [List.foldl_cons, ih]
    by_cases ht : t = id
    · subst ht
      by_cases hg : g t = (0, 0)
      · simp [hg]
      · simp [hg, hzero]
    · split_ifs <;> simp_all [Ranges.lookup_insert]

/-- Of the ids that were found, the bins with reserves are kept. -/
theorem LBPair.Finds.kept {pair : LBPair} {walks : Bool} {ids : List Nat} (h : pair.Finds walks ids) (id : Nat) :
    (ids.foldl (fun m id => if (pair.reserves id).1 > 0 ∨ (pair.reserves id).2 > 0 then m.insert id (pair.reserves id) else m)
        (∅ : ExtTreeMap Nat (Nat × Nat)))[id]? =
      if id ∈ pair.bins ∧ (walks → id = pair.activeId ∨ (id ≠ 0 ∧ id ≠ 2 ^ 24 - 1)) then some (pair.reserves id) else none := by
  refine (foldl_bins pair.reserves ids ∅ id).trans ?_
  have hheld : pair.reserves id ≠ (0, 0) ↔ id ∈ pair.bins := by rw [ne_eq, ← pair.empty id, not_not]
  rw [ExtTreeMap.getElem?_empty]
  refine if_congr ?_ rfl rfl
  rw [h.2 id, hheld]
  cases walks
  · simp
  · rw [if_pos rfl]
    constructor
    · rintro ⟨rfl | ⟨-, hne⟩, hmem⟩
      · exact ⟨hmem, fun _ => .inl rfl⟩
      · exact ⟨hmem, fun _ => .inr hne⟩
    · rintro ⟨hmem, hkept⟩
      rcases hkept rfl with rfl | hne
      · exact ⟨.inl rfl, hmem⟩
      · exact ⟨.inr ⟨hmem, hne⟩, hmem⟩

/-- What comes back from a fetch, by the ids it found. -/
theorem PairReads.TrueOf.fetches {reads : PairReads} {may : Prop} {keccak256 : Nat → Nat} {pair : LBPair}
    (h : reads.TrueOf may keccak256 pair) (hslots : ∀ base, treeBaseSlot pair.version = some base → DistinctSlots keccak256 base)
    {getOrFetchToken : Address → Except Fault (Address × Nat)} (htoken : ∀ a, Yields may (getOrFetchToken a) (·.1 = a))
    (now : Nat) (address : Address) :
    Yields may (reads.fetchLbPool keccak256 getOrFetchToken now address) fun p => p = pair.pool now address p.bins ∧
      ∃ ids, pair.Finds (reads.walks keccak256 pair.version) ids ∧ p.bins = ids.foldl (fun m id =>
        if (pair.reserves id).1 > 0 ∨ (pair.reserves id).2 > 0 then m.insert id (pair.reserves id) else m) ∅ := by
  unfold PairReads.fetchLbPool
  refine h.detects.yields.bind ?_
  rintro _ rfl
  dsimp only
  refine h.state.yields.bind ?_
  rintro _ rfl
  rw [h.hooksParameters, ok_bind]
  refine (htoken pair.tokenX).bind fun x hx => (htoken pair.tokenY).bind fun y hy => ?_
  refine (h.discovers hslots address).bind fun ids hids => ?_
  have hlt : ∀ id ∈ ids, id < 2 ^ 24 := by
    intro id hid
    have hmem := (hids.2 id).1 hid
    split at hmem
    · rcases hmem with rfl | ⟨hmem, -⟩
      · exact pair.active
      · exact pair.ids id hmem
    · exact pair.ids id hmem
  refine (Tells.mapM fun id hid => h.reserves (hlt id hid)).yields.bind ?_
  rintro _ rfl
  rw [← List.map_prod_left_eq_zip, List.foldl_map]
  refine .inl ⟨_, ⟨?_, ids, hids, rfl⟩, rfl⟩
  unfold LBPair.pool
  dsimp only
  rw [hx, hy]

/-- **A fetched pair has the pair's own bins**, whichever version it is and whichever of the reads fail: the bins of its tree
where all of the tree is read, and otherwise those that the walk finds, which are all but the two at the ends of the ids. Where
reads other than storage's fail too, the fetch may fail, but it never comes back with anything else. -/
theorem fetchLbPool_shows {reads : PairReads} {may : Prop} {keccak256 : Nat → Nat} {pair : LBPair}
    (h : reads.TrueOf may keccak256 pair) (hslots : ∀ base, treeBaseSlot pair.version = some base → DistinctSlots keccak256 base)
    {getOrFetchToken : Address → Except Fault (Address × Nat)} (htoken : ∀ a, Yields may (getOrFetchToken a) (·.1 = a))
    (now : Nat) (address : Address) :
    Yields may (reads.fetchLbPool keccak256 getOrFetchToken now address) fun p => p = pair.pool now address p.bins ∧
      ∀ id, p.bins[id]? = if id ∈ pair.bins ∧
        (reads.walks keccak256 pair.version → id = pair.activeId ∨ (id ≠ 0 ∧ id ≠ 2 ^ 24 - 1)) then some (pair.reserves id) else none :=
  (h.fetches hslots htoken now address).imp fun p hp => by
    obtain ⟨hpool, ids, hids, hbins⟩ := hp
    exact ⟨hpool, fun id => by rw [hbins, hids.kept id]⟩

/-- A v2.2 pair with reserves in one bin. -/
def parityPair : LBPair where
  version := .V2_2
  tokenX := 1
  tokenY := 2
  binStep := 20
  activeId := 2 ^ 23 + 3
  staticFee := ⟨5000, 30, 600, 5000, 40000, 1000, 350000⟩
  variableFee := ⟨0, 0, 2 ^ 23, 0⟩
  hooks := 0
  bins := {2 ^ 23}
  reserves id := if id = 2 ^ 23 then (5, 7) else (0, 0)
  active := by decide
  ids := by simp
  words id := by split <;> decide
  empty id := by simp

/-- Its calls, when nothing but the root of the tree can be read from storage. -/
def parityReads : PairReads where
  detectCall := .ok ()
  stateCall := .ok ()
  getLBHooksParameters := .ok 0
  getFactory := .ok 3
  getTokenX := .ok 1
  getTokenY := .ok 2
  getBinStep := .ok 20
  getActiveId := .ok (2 ^ 23 + 3)
  getStaticFeeParameters := .ok ⟨5000, 30, 600, 5000, 40000, 1000, 350000⟩
  getVariableFeeParameters := .ok ⟨0, 0, 2 ^ 23, 0⟩
  getNextNonEmptyBin down id :=
    if down then .ok (if 2 ^ 23 < id then 2 ^ 23 else 2 ^ 24 - 1) else .ok (if id < 2 ^ 23 then 2 ^ 23 else 0)
  getBin id := .ok (if id = 2 ^ 23 then (5, 7) else (0, 0))
  getStorageAt slot :=
    if slot = 7 then .ok ((TreeUint24.encode {2 ^ 23}).storage sampleKeccak 7 slot) else .error (.error "timeout")
  factory := .error (.error "execution reverted")
  tokenX := .error (.error "execution reverted")
  tokenY := .error (.error "execution reverted")
  getReservesAndId := .error (.error "execution reverted")
  feeParameters := .error (.error "execution reverted")
  findFirstNonEmptyBinId _ _ := .error (.reverted [])
  getBinV20 _ := .error (.error "execution reverted")

theorem parityReads_next (down : Bool) (id : Nat) :
    ∃ n, NextOf {2 ^ 23} down id (some n) ∧ parityReads.getNextNonEmptyBin down id = .ok n := by
  cases down with
  | true =>
    refine ⟨_, ?_, rfl⟩
    split
    · next hlt => exact ⟨by decide, .inl ⟨by simp, hlt, by simp⟩⟩
    · next hlt => exact ⟨by decide, .inr ⟨by simpa [Beyond] using hlt, .inr rfl⟩⟩
  | false =>
    refine ⟨_, ?_, rfl⟩
    split
    · next hlt => exact ⟨by decide, .inl ⟨by simp, hlt, by simp⟩⟩
    · next hlt => exact ⟨by decide, .inr ⟨by simpa [Beyond] using hlt, .inl rfl⟩⟩

theorem parityReads_true : parityReads.TrueOf False sampleKeccak parityPair where
  detectCall := .ok ()
  stateCall := .ok ()
  hooks := rfl
  getFactory := iff_of_true rfl (by decide)
  v20 := nofun
  v21 _ := ⟨.ok 1, .ok 2, .ok 20, .ok _, .ok _, .ok _, fun _ _ => .ok _, fun down id _ => .inl (parityReads_next down id)⟩
  storage base hbase slot := by
    obtain rfl : 7 = base := Option.some_injective _ hbase
    unfold parityReads
    dsimp only
    split
    · exact .ok _
    · exact .inr ⟨trivial, _, rfl⟩

/-- The pair is found by walking. -/
theorem fetchLbPool_shows_walked : ∃ p, parityReads.fetchLbPool sampleKeccak (fun a => .ok (a, 18)) 0 9 = .ok p ∧
    p.bins[2 ^ 23]? = some (5, 7) := by
  have hslots : ∀ base, treeBaseSlot parityPair.version = some base → DistinctSlots sampleKeccak base := by
    intro base hbase
    obtain rfl : 7 = base := Option.some_injective _ hbase
    exact sampleKeccak_distinct
  rcases fetchLbPool_shows parityReads_true hslots (fun a => .inl ⟨(a, 18), rfl, rfl⟩) 0 9 with ⟨p, ⟨-, hbins⟩, hp⟩ | ⟨hno, -⟩
  · exact ⟨p, hp, (hbins (2 ^ 23)).trans (if_pos ⟨by decide, fun _ => .inr (by decide)⟩)⟩
  · exact hno.elim

end EvmDexPool.LB
