import EvmDexPool.Pool

/-!
# A log never moves a pool

The registry holds a pool under the address it has when it is added, and the collector looks its logs up
by that address.
-/

namespace EvmDexPool

open V2 V3 ERC4626 LB

/-- A log never changes a pool's address. -/
class StableAddress (π : Type) [PoolInterface π] : Prop where
  address_applyLog : ∀ now l (p : π), PoolInterface.address (PoolInterface.applyLog now l p).1 = PoolInterface.address p

/-! ## V3 -/

theorem V3.UniswapV3Pool.address_updateTick (p : UniswapV3Pool) (i net : Int) (gross : Nat) :
    (p.updateTick i net gross).address = p.address := by
  unfold UniswapV3Pool.updateTick
  split <;> rfl

theorem V3.UniswapV3Pool.address_mintTick (p : UniswapV3Pool) (i delta : Int) (amount : Nat) :
    (p.mintTick i delta amount).address = p.address := by
  unfold UniswapV3Pool.mintTick
  split
  · rfl
  · exact p.address_updateTick ..

theorem V3.UniswapV3Pool.address_burnTick {p q : UniswapV3Pool} {i delta : Int} {amount : Nat}
    (h : p.burnTick i delta amount = some q) : q.address = p.address := by
  unfold UniswapV3Pool.burnTick at h
  split at h
  · cases h
    split
    · exact address_updateTick ..
    · rfl
  · cases h

theorem V3.UniswapV3Pool.address_applyMintEvent (p : UniswapV3Pool) (lower upper : Int) (amount : Nat) :
    (p.applyMintEvent lower upper amount).1.address = p.address := by
  unfold UniswapV3Pool.applyMintEvent
  split
  · rfl
  · dsimp only
    split
    · exact address_mintTick ..
    · dsimp only
      split
      · exact (address_mintTick ..).trans (address_mintTick ..)
      · exact (address_mintTick ..).trans (address_mintTick ..)

theorem V3.UniswapV3Pool.address_applyBurnEvent (p : UniswapV3Pool) (lower upper : Int) (amount : Nat) :
    (p.applyBurnEvent lower upper amount).1.address = p.address := by
  unfold UniswapV3Pool.applyBurnEvent
  split
  · rfl
  split
  · rfl
  split
  · rfl
  dsimp only
  split
  · rfl
  · next q hq =>
    split
    · exact address_burnTick hq
    · next q' hq' =>
      have h := (address_burnTick hq').trans (address_burnTick hq)
      dsimp only
      split <;> exact h

theorem V3.UniswapV3Pool.address_applyLog (p : UniswapV3Pool) (now : Nat) (l : Log) : (p.applyLog now l).1.address = p.address := by
  have hstate : ∀ price tick liquidity, (p.updateState now price tick liquidity).1.address = p.address := by
    intro price tick liquidity
    unfold UniswapV3Pool.updateState
    split
    · rfl
    · split <;> rfl
  unfold UniswapV3Pool.applyLog
  split
  · next e _ =>
    cases e <;> unfold UniswapV3Pool.applyEvent <;> dsimp only
    case mint => exact address_applyMintEvent ..
    case ramsesMint => exact address_applyMintEvent ..
    case burn => exact address_applyBurnEvent ..
    case algebraBurn => exact address_applyBurnEvent ..
    case swap => exact hstate ..
    case pancakeSwap => exact hstate ..
    case algebraSwap => exact hstate ..
    case feeAdjustment => split <;> rfl
    case fee => split <;> rfl
    case swapFee => rfl
  · split
    · rfl
    · split <;> rfl
  · rfl

/-! ## Liquidity Book -/

theorem LB.LBPool.address_updateBin (p : LBPool) (id x y : Nat) : (p.updateBin id x y).address = p.address := by
  unfold LBPool.updateBin
  split <;> rfl

theorem LB.LBPool.address_foldl {α : Type} (f : LBPool → α → LBPool) (hf : ∀ p a, (f p a).address = p.address) (as : List α) (p : LBPool) :
    (as.foldl f p).address = p.address := by
  induction as generalizing p with
  | nil => rfl
  | cons a as ih => exact (ih _).trans (hf p a)

theorem LB.LBPool.address_applyLiquidityV20 (p : LBPool) (name : String) (side : Nat → Nat → Nat) (ts id x y : Nat) :
    (p.applyLiquidityV20 name side ts id x y).1.address = p.address := by
  unfold LBPool.applyLiquidityV20
  split
  · rfl
  split
  · rfl
  split
  · rfl
  · exact address_updateBin ..

theorem LB.LBPool.address_applyLog (p : LBPool) (now : Nat) (l : Log) : (p.applyLog now l).1.address = p.address := by
  unfold LBPool.applyLog
  split
  · next e _ =>
    cases e <;> unfold LBPool.applyEvent <;> dsimp only
    case swap => exact address_updateBin ..
    case compositionFees => rfl
    case depositedToBins => exact address_foldl _ (fun p e => address_updateBin ..) _ _
    case withdrawnFromBins => exact address_foldl _ (fun p e => address_updateBin ..) _ _
    case flashLoan =>
      unfold LBPool.applyFlashLoan
      dsimp only
      split
      · rfl
      split
      · rfl
      split
      · rfl
      split
      · rfl
      · exact address_updateBin ..
    case swapV20 =>
      unfold LBPool.applySwapV20
      split
      · rfl
      split
      · rfl
      split
      · rfl
      dsimp only
      split
      · split
        · exact address_updateBin ..
        · exact address_updateBin ..
      · split
        · exact address_updateBin ..
        · exact address_updateBin ..
    case depositedToBinV20 => exact address_applyLiquidityV20 ..
    case withdrawnFromBinV20 => exact address_applyLiquidityV20 ..
  · split <;> rfl
  · rfl

/-! ## Any pool -/

theorem V2.UniswapV2Pool.address_applyLog (p : UniswapV2Pool) (now : Nat) (l : Log) : (p.applyLog now l).1.address = p.address := by
  unfold UniswapV2Pool.applyLog
  split
  · rfl
  · rfl
  · split <;> rfl
  · rfl

theorem ERC4626.ERC4626Standard.address_applyLog (p : ERC4626Standard) (l : Log) : (p.applyLog l).1.address = p.address := by
  unfold ERC4626Standard.applyLog
  split
  · rfl
  · rfl
  · split <;> rfl
  · rfl

instance : StableAddress Pool where
  address_applyLog now l p := by
    cases p with
    | v2 p => exact p.address_applyLog now l
    | v3 p => exact p.address_applyLog now l
    | verioIP p => exact p.base.address_applyLog l
    | lb p => exact p.address_applyLog now l

end EvmDexPool
