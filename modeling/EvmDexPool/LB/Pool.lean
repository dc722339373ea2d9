import EvmDexPool.Lib.Ranges
import EvmDexPool.Log
import EvmDexPool.LB.Math

/-!
# The Liquidity Book pool and its quotes (`lb/pool.rs:23-460`)

`getSwapOut` and `getSwapIn` walk the bins from the active one in the direction of the trade.
The walk is one loop (`binLoop`); the two quotes differ in what they do in a bin that has
something to sell (`swapOutBin`, `swapInBin`). `u128` conversions panic and native additions
overflow, so a quote ends in a value or in a `Fault`.
-/

namespace EvmDexPool.LB

open Std

/-- `LBVersion` (lb/version.rs:10). -/
inductive LBVersion
  | V2_0 | V2_1 | V2_2
deriving DecidableEq, Repr

/-- `LBPool`: bins map an id to `(reserve_x, reserve_y)`. -/
structure LBPool where
  address : Address
  tokenX : Address
  tokenY : Address
  binStep : Nat
  activeId : Nat
  bins : ExtTreeMap Nat (Nat × Nat)
  baseFactor : Nat
  filterPeriod : Nat
  decayPeriod : Nat
  reductionFactor : Nat
  variableFeeControl : Nat
  protocolShare : Nat
  maxVolatilityAccumulator : Nat
  volatilityAccumulator : Nat
  volatilityReference : Nat
  idReference : Nat
  timeOfLastUpdate : Nat
  lastUpdated : Nat
  createdAt : Nat
  version : LBVersion
  hooksParameters : Option B256
deriving DecidableEq

namespace LBPool
variable (p : LBPool)

/-- `self.bins.get(&id).copied().unwrap_or((0, 0))`. -/
def bin (id : Nat) : Nat × Nat := (p.bins[id]?).getD (0, 0)

/-- `update_bin` (pool.rs:156). -/
def updateBin (id reserveX reserveY : Nat) : LBPool :=
  if reserveX = 0 ∧ reserveY = 0 then { p with bins := p.bins.erase id }
  else { p with bins := p.bins.insert id (reserveX, reserveY) }

/-- `update_references` (pool.rs:167): the new volatility and id references. -/
def updateReferences (timestamp : Nat) : Nat × Nat :=
  let dt := timestamp - p.timeOfLastUpdate
  if dt ≥ p.filterPeriod then
    (if dt < p.decayPeriod then p.volatilityAccumulator * p.reductionFactor / 10000 % 2 ^ 32 else 0,
      p.activeId)
  else (p.volatilityReference, p.idReference)

/-- `compute_volatility_accumulator` (pool.rs:193). -/
def computeVolatilityAccumulator (id volRef idRef : Nat) : Nat :=
  let deltaId := (id - idRef) + (idRef - id)
  min (volRef + deltaId * 10000) p.maxVolatilityAccumulator

/-- `next_non_empty_bin` (pool.rs:147). `id + 1` is a `u32` addition. -/
def nextNonEmptyBin (swapForY : Bool) (id : Nat) : Except Fault (Option Nat) :=
  if swapForY then
    .ok (((Ranges.range p.bins fun k => k < id).getLast?).map Prod.fst)
  else if id + 1 < 2 ^ 32 then
    .ok (((Ranges.range p.bins fun k => id + 1 ≤ k).head?).map Prod.fst)
  else .error .overflow

end LBPool

/-! ## Quotes -/

/-- `U256::to::<u128>()`. -/
def toU128 (n : Nat) : Except Fault Nat := if n < 2 ^ 128 then .ok n else .error .panic

/-- A native `u128` addition. -/
def addU128 (a b : Nat) : Except Fault Nat := if a + b < 2 ^ 128 then .ok (a + b) else .error .overflow

/-- The bins a quote visits (pool.rs:231-294, :330-369): `visit` runs in each that has reserves
on the side traded for, and the walk ends when nothing is `left` or no bin follows. -/
def LBPool.binLoop {σ : Type} (p : LBPool) (swapForY : Bool) (visit : σ → Nat → Nat → Except Fault σ)
    (left : σ → Nat) : Nat → σ → Nat → Except Fault σ
  | 0, _, _ => .error .diverges
  | fuel + 1, s, id => do
    let s ← match p.bins[id]? with
      | some (rx, ry) =>
        let binReserveOut := if swapForY then ry else rx
        if binReserveOut > 0 then visit s id binReserveOut else .ok s
      | none => .ok s
    if left s = 0 then .ok s
    else match ← p.nextNonEmptyBin swapForY id with
      | some nextId => p.binLoop swapForY visit left fuel s nextId
      | none => .ok s

structure SwapOut where
  amountInLeft : Nat
  amountOut : Nat
  totalFee : Nat
deriving DecidableEq, Repr

structure SwapIn where
  amountIn : Nat
  amountOutLeft : Nat
  totalFee : Nat
deriving DecidableEq, Repr

namespace LBPool
variable (p : LBPool)

/-- The fee a quote at `timestamp` charges in bin `id`. -/
def feeAt (timestamp id : Nat) : Nat :=
  let (volRef, idRef) := p.updateReferences timestamp
  getTotalFee p.baseFactor p.binStep (p.computeVolatilityAccumulator id volRef idRef)
    p.variableFeeControl

/-- `simulate_swap_out_at` in one bin (pool.rs:235-283). -/
def swapOutBin (swapForY : Bool) (timestamp : Nat) (s : SwapOut) (id binReserveOut : Nat) :
    Except Fault SwapOut := do
  let fee := p.feeAt timestamp id
  let price ← getPriceFromId id p.binStep
  let maxAmountIn ← toU128 (binInput swapForY binReserveOut price)
  let maxFee := getFeeAmount maxAmountIn fee
  let maxAmountInWithFees := Fixed.satAdd 128 maxAmountIn maxFee
  if s.amountInLeft ≥ maxAmountInWithFees then
    let amountOut ← addU128 s.amountOut binReserveOut
    let totalFee ← addU128 s.totalFee maxFee
    .ok ⟨s.amountInLeft - maxAmountInWithFees, amountOut, totalFee⟩
  else
    let feeBin := getFeeAmountFrom s.amountInLeft fee
    let out ← toU128 (binOutput swapForY (s.amountInLeft - feeBin) price)
    let amountOut ← addU128 s.amountOut (min out binReserveOut)
    let totalFee ← addU128 s.totalFee feeBin
    .ok ⟨0, amountOut, totalFee⟩

/-- `simulate_swap_in_at` in one bin (pool.rs:334-357). -/
def swapInBin (swapForY : Bool) (timestamp : Nat) (s : SwapIn) (id binReserveOut : Nat) :
    Except Fault SwapIn := do
  let price ← getPriceFromId id p.binStep
  let amountOutOfBin := min binReserveOut s.amountOutLeft
  let fee := p.feeAt timestamp id
  let amountInWithoutFee ← toU128 (binInput swapForY amountOutOfBin price)
  let feeAmount := getFeeAmount amountInWithoutFee fee
  let withFee ← addU128 amountInWithoutFee feeAmount
  let amountIn ← addU128 s.amountIn withFee
  let totalFee ← addU128 s.totalFee feeAmount
  .ok ⟨amountIn, s.amountOutLeft - amountOutOfBin, totalFee⟩

/-- `simulate_swap_out_at` (pool.rs:219). Ids only move one way, so one round per bin and one for
an active id that has no bin are enough. -/
def simulateSwapOutAt (amountIn : Nat) (swapForY : Bool) (timestamp : Nat) : Except Fault SwapOut :=
  p.binLoop swapForY (p.swapOutBin swapForY timestamp) SwapOut.amountInLeft (p.bins.size + 1)
    ⟨amountIn, 0, 0⟩ p.activeId

/-- `simulate_swap_in_at` (pool.rs:316). -/
def simulateSwapInAt (amountOut : Nat) (swapForY : Bool) (timestamp : Nat) : Except Fault SwapIn :=
  p.binLoop swapForY (p.swapInBin swapForY timestamp) SwapIn.amountOutLeft (p.bins.size + 1)
    ⟨0, amountOut, 0⟩ p.activeId

/-- A pair at 1% bins whose one bin, far below parity, holds `reserveY` of Y only. -/
def oneBinPool (reserveY : Nat) : LBPool where
  address := 0
  tokenX := 1
  tokenY := 2
  binStep := 100
  activeId := 8386608
  bins := (∅ : ExtTreeMap Nat (Nat × Nat)).insert 8386608 (0, reserveY)
  baseFactor := 5000
  filterPeriod := 30
  decayPeriod := 600
  reductionFactor := 5000
  variableFeeControl := 40000
  protocolShare := 1000
  maxVolatilityAccumulator := 350000
  volatilityAccumulator := 0
  volatilityReference := 0
  idReference := 8386608
  timeOfLastUpdate := 0
  lastUpdated := 0
  createdAt := 0
  version := .V2_1
  hooksParameters := none

theorem oneBinPool_bins {reserveY id : Nat} {r : Nat × Nat} (h : (oneBinPool reserveY).bins[id]? = some r) :
    id = 8386608 ∧ r = (0, reserveY) := by
  simp only [oneBinPool, ExtTreeMap.getElem?_insert] at h
  split at h
  · next he => exact ⟨(Nat.compare_eq_eq.1 he).symm, (Option.some.inj h).symm⟩
  · simp at h

end LBPool

end EvmDexPool.LB
