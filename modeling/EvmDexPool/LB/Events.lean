import EvmDexPool.LB.Pool

/-!
# Applying logs to a Liquidity Book pool (`LBPool::apply_log`, lb/pool.rs:583-873)

`applyLog` returns the pool as it stands when the call returns, also when it returns an error:
the source works on `&mut self`, so what an arm wrote before it failed stays. `now` is the wall
clock the call reads.
-/

namespace EvmDexPool.LB.LBPool

variable (p : LBPool)

/-- `LBPool::topics` (pool.rs:920). -/
def topics : List Topic :=
  [.lbSwap, .lbDepositedToBins, .lbWithdrawnFromBins, .lbStaticFeeParametersSet, .lbFlashLoan,
    .lbCompositionFees, .lbSwapV20, .lbDepositedToBinV20, .lbWithdrawnFromBinV20]

/-- `LBPool::profitable_topics` (pool.rs:944). -/
def profitableTopics : List Topic := [.lbSwap, .lbSwapV20]

/-- `try_into::<u32>().unwrap_or(u32::MAX)`. -/
def clampId (id : Nat) : Nat := if id < 2 ^ 32 then id else 2 ^ 32 - 1

/-- The references an event at `ts` leaves, written back (pool.rs:621-624). -/
def moveReferences (ts : Nat) : LBPool :=
  { p with
    volatilityReference := (p.updateReferences ts).1
    idReference := (p.updateReferences ts).2 }

/-- `ILBPair::Swap` (pool.rs:586). -/
def applySwap (now ts id amountsIn amountsOut volatilityAccumulator : Nat) : LBPool :=
  let (inX, inY) := decodeAmounts amountsIn
  let (outX, outY) := decodeAmounts amountsOut
  let (rx, ry) := p.bin id
  let q := p.updateBin id (Fixed.satAdd 128 rx inX - outX) (Fixed.satAdd 128 ry inY - outY)
  { q.moveReferences ts with
    activeId := id
    volatilityAccumulator := volatilityAccumulator
    timeOfLastUpdate := ts
    lastUpdated := now }

/-- `ILBPair::CompositionFees` (pool.rs:639): the fee clock moves, the bins do not. -/
def applyCompositionFees (ts id : Nat) : LBPool :=
  let (volRef, idRef) := p.updateReferences ts
  { p.moveReferences ts with
    volatilityAccumulator := p.computeVolatilityAccumulator id volRef idRef
    timeOfLastUpdate := ts }

def depositBin (id : Nat) (amounts : B256) : LBPool :=
  let (addX, addY) := decodeAmounts amounts
  p.updateBin (clampId id) (Fixed.satAdd 128 (p.bin (clampId id)).1 addX)
    (Fixed.satAdd 128 (p.bin (clampId id)).2 addY)

def withdrawBin (id : Nat) (amounts : B256) : LBPool :=
  let (subX, subY) := decodeAmounts amounts
  p.updateBin (clampId id) ((p.bin (clampId id)).1 - subX) ((p.bin (clampId id)).2 - subY)

/-- `ILBPair::DepositedToBins` (pool.rs:658): ids without an amount are passed over. -/
def applyDepositedToBins (now : Nat) (ids : List Nat) (amounts : List B256) : LBPool :=
  { (ids.zip amounts).foldl (fun q e => q.depositBin e.1 e.2) p with lastUpdated := now }

/-- `ILBPair::WithdrawnFromBins` (pool.rs:671). -/
def applyWithdrawnFromBins (now : Nat) (ids : List Nat) (amounts : List B256) : LBPool :=
  { (ids.zip amounts).foldl (fun q e => q.withdrawBin e.1 e.2) p with lastUpdated := now }

/-- `ILBPair::FlashLoan` (pool.rs:695). -/
def applyFlashLoan (now id : Nat) (totalFees protocolFees : B256) : LBPool × Except Fault Unit :=
  let (totalX, totalY) := decodeAmounts totalFees
  let (protocolX, protocolY) := decodeAmounts protocolFees
  match Fixed.checkedSub totalX protocolX with
  | none => (p, .error (.error s!"FlashLoan protocolFees.x {protocolX} exceeds totalFees.x {totalX}"))
  | some netX => match Fixed.checkedSub totalY protocolY with
    | none => (p, .error (.error s!"FlashLoan protocolFees.y {protocolY} exceeds totalFees.y {totalY}"))
    | some netY => match Fixed.checkedAdd 128 (p.bin id).1 netX with
      | none => (p, .error (.error s!"FlashLoan credit overflows bin {id} reserve x"))
      | some newRx => match Fixed.checkedAdd 128 (p.bin id).2 netY with
        | none => (p, .error (.error s!"FlashLoan credit overflows bin {id} reserve y"))
        | some newRy => ({ p.updateBin id newRx newRy with lastUpdated := now }, .ok ())

/-- `ILBPairV20::Swap` (pool.rs:772). The accumulator is narrowed last, after the bin, the
references and the active id have been written. -/
def applySwapV20 (now ts id : Nat) (swapForY : Bool) (amountIn amountOut volatilityAccumulated : Nat) :
    LBPool × Except Fault Unit :=
  match Fixed.narrow 32 id with
  | none => (p, .error (.error "v2.0 Swap bin id exceeds u32"))
  | some id => match Fixed.narrow 128 amountIn with
    | none => (p, .error (.error "v2.0 Swap amountIn exceeds u128"))
    | some amountIn => match Fixed.narrow 128 amountOut with
      | none => (p, .error (.error "v2.0 Swap amountOut exceeds u128"))
      | some amountOut =>
        let (rx, ry) := p.bin id
        let q := if swapForY then p.updateBin id (Fixed.satAdd 128 rx amountIn) (ry - amountOut)
          else p.updateBin id (rx - amountOut) (Fixed.satAdd 128 ry amountIn)
        let q := { q.moveReferences ts with activeId := id }
        match Fixed.narrow 32 volatilityAccumulated with
        | none => (q, .error (.error "v2.0 Swap volatilityAccumulated exceeds u32"))
        | some v => ({ q with volatilityAccumulator := v, timeOfLastUpdate := ts, lastUpdated := now }, .ok ())

/-- The v2.0 liquidity arms (pool.rs:824, :847) differ in the event's name and in what they do to
a side of the bin. -/
def applyLiquidityV20 (name : String) (side : Nat → Nat → Nat) (ts id amountX amountY : Nat) :
    LBPool × Except Fault Unit :=
  match Fixed.narrow 32 id with
  | none => (p, .error (.error s!"v2.0 {name} bin id exceeds u32"))
  | some id => match Fixed.narrow 128 amountX with
    | none => (p, .error (.error s!"v2.0 {name} amountX exceeds u128"))
    | some x => match Fixed.narrow 128 amountY with
      | none => (p, .error (.error s!"v2.0 {name} amountY exceeds u128"))
      | some y => ({ p.updateBin id (side (p.bin id).1 x) (side (p.bin id).2 y) with lastUpdated := ts }, .ok ())

/-- `ILBPairV20::DepositedToBin`. -/
def applyDepositedToBinV20 (ts id amountX amountY : Nat) : LBPool × Except Fault Unit :=
  p.applyLiquidityV20 "DepositedToBin" (Fixed.satAdd 128) ts id amountX amountY

/-- `ILBPairV20::WithdrawnFromBin`. -/
def applyWithdrawnFromBinV20 (ts id amountX amountY : Nat) : LBPool × Except Fault Unit :=
  p.applyLiquidityV20 "WithdrawnFromBin" (· - ·) ts id amountX amountY

def applyEvent (now ts : Nat) : LBEvent → LBPool × Except Fault Unit
  | .swap id amountsIn amountsOut acc => (p.applySwap now ts id amountsIn amountsOut acc, .ok ())
  | .compositionFees id => (p.applyCompositionFees ts id, .ok ())
  | .depositedToBins ids amounts => (p.applyDepositedToBins now ids amounts, .ok ())
  | .withdrawnFromBins ids amounts => (p.applyWithdrawnFromBins now ids amounts, .ok ())
  | .staticFeeParametersSet bf fp dp rf vfc ps mva =>
    ({ p with baseFactor := bf, filterPeriod := fp, decayPeriod := dp, reductionFactor := rf,
              variableFeeControl := vfc, protocolShare := ps, maxVolatilityAccumulator := mva }, .ok ())
  | .flashLoan id totalFees protocolFees => p.applyFlashLoan now id totalFees protocolFees
  | .swapV20 id swapForY amountIn amountOut acc => p.applySwapV20 now ts id swapForY amountIn amountOut acc
  | .depositedToBinV20 id x y => p.applyDepositedToBinV20 ts id x y
  | .withdrawnFromBinV20 id x y => p.applyWithdrawnFromBinV20 ts id x y

/-- `LBPool::apply_log`. -/
def applyLog (now : Nat) (l : Log) : LBPool × Except Fault Unit :=
  match l.payload with
  | .event (.lb e) => p.applyEvent now (l.timestamp now) e
  | .raw t err => if t ∈ topics then (p, .error (.error err)) else (p, .ok ())
  | _ => (p, .ok ())

/-- A log per call, each at its own reading of the wall clock; an error is logged and passed over. -/
def replay (p : LBPool) (calls : List (Nat × Log)) : LBPool :=
  calls.foldl (fun q c => (q.applyLog c.1 c.2).1) p

/-! ## What a bin update does to the map -/

variable {p}

theorem updateBin_getElem? (id x y k : Nat) :
    (p.updateBin id x y).bins[k]? =
      if k = id then (if x = 0 ∧ y = 0 then none else some (x, y)) else p.bins[k]? := by
  unfold updateBin
  split
  · exact Ranges.lookup_erase ..
  · exact Ranges.lookup_insert ..

theorem updateBin_bin (id x y k : Nat) : (p.updateBin id x y).bin k = if k = id then (x, y) else p.bin k := by
  unfold bin
  rw [updateBin_getElem?]
  by_cases hk : k = id
  · simp only [hk, if_true]
    split
    · next h => simp [h.1, h.2]
    · rfl
  · simp [hk]

theorem depositBin_eq (id : Nat) (amounts : B256) : p.depositBin id amounts =
    p.updateBin (clampId id) (Fixed.satAdd 128 (p.bin (clampId id)).1 (decodeAmounts amounts).1)
      (Fixed.satAdd 128 (p.bin (clampId id)).2 (decodeAmounts amounts).2) := rfl

theorem withdrawBin_eq (id : Nat) (amounts : B256) : p.withdrawBin id amounts =
    p.updateBin (clampId id) ((p.bin (clampId id)).1 - (decodeAmounts amounts).1)
      ((p.bin (clampId id)).2 - (decodeAmounts amounts).2) := rfl

theorem applySwap_bins (now ts id amountsIn amountsOut acc : Nat) :
    (p.applySwap now ts id amountsIn amountsOut acc).bins =
      (p.updateBin id (Fixed.satAdd 128 (p.bin id).1 (decodeAmounts amountsIn).1 - (decodeAmounts amountsOut).1)
        (Fixed.satAdd 128 (p.bin id).2 (decodeAmounts amountsIn).2 - (decodeAmounts amountsOut).2)).bins := rfl

theorem applyDepositedToBins_bins (now : Nat) (ids : List Nat) (amounts : List B256) :
    (p.applyDepositedToBins now ids amounts).bins =
      ((ids.zip amounts).foldl (fun q e => q.depositBin e.1 e.2) p).bins := rfl

theorem applyWithdrawnFromBins_bins (now : Nat) (ids : List Nat) (amounts : List B256) :
    (p.applyWithdrawnFromBins now ids amounts).bins =
      ((ids.zip amounts).foldl (fun q e => q.withdrawBin e.1 e.2) p).bins := rfl

theorem applyFlashLoan_eq {now id : Nat} {totalFees protocolFees : B256}
    (hpx : (decodeAmounts protocolFees).1 ≤ (decodeAmounts totalFees).1)
    (hpy : (decodeAmounts protocolFees).2 ≤ (decodeAmounts totalFees).2)
    (hx : (p.bin id).1 + ((decodeAmounts totalFees).1 - (decodeAmounts protocolFees).1) < 2 ^ 128)
    (hy : (p.bin id).2 + ((decodeAmounts totalFees).2 - (decodeAmounts protocolFees).2) < 2 ^ 128) :
    p.applyFlashLoan now id totalFees protocolFees =
      ({ p.updateBin id ((p.bin id).1 + ((decodeAmounts totalFees).1 - (decodeAmounts protocolFees).1))
          ((p.bin id).2 + ((decodeAmounts totalFees).2 - (decodeAmounts protocolFees).2)) with
        lastUpdated := now }, .ok ()) := by
  unfold applyFlashLoan
  generalize decodeAmounts totalFees = total at *
  generalize decodeAmounts protocolFees = protocol at *
  obtain ⟨totalX, totalY⟩ := total
  obtain ⟨protocolX, protocolY⟩ := protocol
  simp only [Fixed.checkedSub, Fixed.checkedAdd, if_pos hpx, if_pos hpy, if_pos hx, if_pos hy]

/-- The two sides of a v2.0 swap in bin `id`. -/
def swapSidesV20 (p : LBPool) (id : Nat) (swapForY : Bool) (amountIn amountOut : Nat) : Nat × Nat :=
  if swapForY then (Fixed.satAdd 128 (p.bin id).1 amountIn, (p.bin id).2 - amountOut)
  else ((p.bin id).1 - amountOut, Fixed.satAdd 128 (p.bin id).2 amountIn)

/-- What a v2.0 swap whose id and amounts fit has written when it comes to the accumulator. -/
def writtenV20 (p : LBPool) (ts id : Nat) (swapForY : Bool) (amountIn amountOut : Nat) : LBPool :=
  let sides := p.swapSidesV20 id swapForY amountIn amountOut
  { (p.updateBin id sides.1 sides.2).moveReferences ts with activeId := id }

theorem applySwapV20_eq {now ts id amountIn amountOut acc : Nat} {swapForY : Bool} (hid : id < 2 ^ 32)
    (hin : amountIn < 2 ^ 128) (hout : amountOut < 2 ^ 128) :
    p.applySwapV20 now ts id swapForY amountIn amountOut acc =
      match Fixed.narrow 32 acc with
      | none => (p.writtenV20 ts id swapForY amountIn amountOut,
          .error (.error "v2.0 Swap volatilityAccumulated exceeds u32"))
      | some v => ({ p.writtenV20 ts id swapForY amountIn amountOut with
          volatilityAccumulator := v, timeOfLastUpdate := ts, lastUpdated := now }, .ok ()) := by
  unfold applySwapV20
  rw [Fixed.narrow_of_lt hid]
  dsimp only
  rw [Fixed.narrow_of_lt hin]
  dsimp only
  rw [Fixed.narrow_of_lt hout]
  cases swapForY <;> rfl

/-- A bin update touches nothing but the map. -/
theorem updateBin_eq (id x y : Nat) : p.updateBin id x y = { p with bins := (p.updateBin id x y).bins } := by
  unfold updateBin; split <;> rfl

end EvmDexPool.LB.LBPool
