import Mathlib.Data.List.DropRight
import EvmDexPool.V3.Positions
import EvmDexPool.V3.Quote

/-!
# What swaps paid against the fee held (`v3/pool.rs`)

A `SwapFee` log says what one swap paid, and the pool keeps of the last of them whether it was more than the fee it held
itself. Between the logs a write-back of the fee reader may set the fee and its source. Whatever comes in between, the list
is that of the last `SWAP_FEE_WINDOW` such logs (`watch_window`), and it decides the quotes (`watch_quotes`): with
`SWAP_FEE_MISSES_TO_STOP` misses in it there is none, with fewer they are those of a pool that was never watched.
-/

namespace EvmDexPool.V3

open Std

/-- A list that drops its first when it grows over `n`: the last `n` of all that was pushed. -/
theorem rtake_push {α : Type} {n : Nat} {l : List α} (h : l.length ≤ n) (x : α) :
    (if (l ++ [x]).length > n then (l ++ [x]).tail else l ++ [x]) = (l ++ [x]).rtake n := by
  unfold List.rtake
  rw [List.length_append, List.length_singleton]
  split
  · rw [show l.length + 1 - n = 1 by omega, List.drop_one]
  · rw [show l.length + 1 - n = 0 by omega, List.drop_zero]

theorem rtake_append {α : Type} (n : Nat) (l m : List α) : (l.rtake n ++ m).rtake n = (l ++ m).rtake n := by
  unfold List.rtake
  rw [← List.drop_append_of_le_length (Nat.sub_le _ _), List.drop_drop, List.length_drop, List.length_append]
  congr 1
  omega

theorem rtake_of_length_le {α : Type} {n : Nat} {l : List α} (h : l.length ≤ n) : l.rtake n = l := by
  rw [List.rtake, Nat.sub_eq_zero_of_le h, List.drop_zero]

namespace UniswapV3Pool
variable {p : UniswapV3Pool}

/-- Whether the swap of a `SwapFee` log paid more than the fee that the pool holds. -/
def missed? (p : UniswapV3Pool) (l : Log) : Option Bool :=
  match l.payload with
  | .event (.v3 (.swapFee overrideFee pluginFee)) =>
    some (decide (p.fee < (if overrideFee ≠ 0 then overrideFee else p.fee) + pluginFee))
  | _ => none

/-- What happens to a pool under watch: a log, or a write-back of the fee reader. -/
inductive WatchStep
  | log (now : Nat) (l : Log)
  | write (fee : Nat) (feeSource : FeeSource)

def WatchStep.apply (p : UniswapV3Pool) : WatchStep → UniswapV3Pool
  | .log now l => (p.applyLog now l).1
  | .write fee feeSource => { p with fee := fee, feeSource := feeSource }

def WatchStep.missed? (p : UniswapV3Pool) : WatchStep → Option Bool
  | .log _ l => p.missed? l
  | .write _ _ => none

def watch (p : UniswapV3Pool) (steps : List WatchStep) : UniswapV3Pool := steps.foldl WatchStep.apply p

/-- The `SwapFee` logs of a run, each against the fee held just before it. -/
def misses (p : UniswapV3Pool) : List WatchStep → List Bool
  | [] => []
  | step :: steps => (step.missed? p).toList ++ misses (step.apply p) steps

/-- The part of a run that the pool still looks at. -/
def recentMisses (p : UniswapV3Pool) (steps : List WatchStep) : List Bool :=
  (p.swapFeeMisses ++ p.misses steps).rtake SWAP_FEE_WINDOW

theorem updateState_misses (now sqrtPriceX96 : Nat) (tick : Int) (liquidity : Nat) :
    (p.updateState now sqrtPriceX96 tick liquidity).1.swapFeeMisses = p.swapFeeMisses := by
  unfold updateState
  split
  · rfl
  · split <;> rfl

theorem misses_of_frame {q : UniswapV3Pool} (h : frame q = frame p) : q.swapFeeMisses = p.swapFeeMisses :=
  show (frame q).swapFeeMisses = (frame p).swapFeeMisses from congrArg swapFeeMisses h

/-- Only a `SwapFee` log touches the list. -/
theorem applyEvent_misses (now : Nat) (e : V3Event) (h : ∀ overrideFee pluginFee, e ≠ .swapFee overrideFee pluginFee) :
    (p.applyEvent now e).1.swapFeeMisses = p.swapFeeMisses := by
  cases e with
  | swapFee overrideFee pluginFee => exact absurd rfl (h overrideFee pluginFee)
  | swap sqrtPriceX96 tick liquidity => exact updateState_misses ..
  | pancakeSwap sqrtPriceX96 tick liquidity => exact updateState_misses ..
  | algebraSwap price tick liquidity => exact updateState_misses ..
  | mint lower upper amount => exact misses_of_frame (mint_frame lower upper amount)
  | ramsesMint lower upper amount => exact misses_of_frame (mint_frame lower upper amount)
  | burn lower upper amount => exact misses_of_frame (burn_frame lower upper amount)
  | algebraBurn bottom top amount => exact misses_of_frame (burn_frame bottom top amount)
  | feeAdjustment oldFee newFee =>
    change (if p.feeSource = .readCurrentFee then p else { p with fee := newFee }).swapFeeMisses = _
    split <;> rfl
  | fee fee =>
    change (if p.feeSource ≠ .readFee then { p with fee := fee } else p).swapFeeMisses = _
    split <;> rfl
  | pluginConfig _ => rfl
  | plugin _ => rfl

theorem applyLog_misses_of_none (now : Nat) {l : Log} (h : p.missed? l = none) :
    (p.applyLog now l).1.swapFeeMisses = p.swapFeeMisses := by
  unfold missed? at h
  unfold applyLog
  split
  · next e hpayload =>
    refine applyEvent_misses now e fun overrideFee pluginFee he => ?_
    rw [hpayload, he] at h
    cases h
  · split
    · rfl
    · split <;> rfl
  · rfl

/-- **What one step does to the list.** -/
theorem WatchStep.apply_misses (hroom : p.swapFeeMisses.length ≤ SWAP_FEE_WINDOW) (step : WatchStep) :
    (step.apply p).swapFeeMisses = (p.swapFeeMisses ++ (step.missed? p).toList).rtake SWAP_FEE_WINDOW := by
  have hkeep : (p.swapFeeMisses ++ []).rtake SWAP_FEE_WINDOW = p.swapFeeMisses := by
    rw [List.append_nil, rtake_of_length_le hroom]
  cases step with
  | write fee feeSource => exact hkeep.symm
  | log now l =>
    change (p.applyLog now l).1.swapFeeMisses = (p.swapFeeMisses ++ (p.missed? l).toList).rtake SWAP_FEE_WINDOW
    cases hmissed : p.missed? l with
    | none => exact (applyLog_misses_of_none now hmissed).trans hkeep.symm
    | some missed =>
      unfold UniswapV3Pool.missed? at hmissed
      split at hmissed
      · next overrideFee pluginFee hpayload =>
        cases hmissed
        unfold applyLog
        rw [hpayload]
        exact rtake_push hroom _
      · cases hmissed

/-- And a run. -/
theorem watch_misses (hroom : p.swapFeeMisses.length ≤ SWAP_FEE_WINDOW) (steps : List WatchStep) :
    (p.watch steps).swapFeeMisses = p.recentMisses steps := by
  induction steps generalizing p with
  | nil =>
    rw [recentMisses, misses, List.append_nil, rtake_of_length_le hroom]
    rfl
  | cons step steps ih =>
    have hstep := step.apply_misses hroom
    have hlength : (step.apply p).swapFeeMisses.length ≤ SWAP_FEE_WINDOW := by
      rw [hstep, List.rtake, List.length_drop]
      omega
    change ((step.apply p).watch steps).swapFeeMisses = _
    rw [ih hlength, recentMisses, hstep, rtake_append, List.append_assoc]
    rfl

theorem feeUnpredictable_eq : p.feeUnpredictable = decide (SWAP_FEE_MISSES_TO_STOP ≤ p.swapFeeMisses.count true) := by
  unfold feeUnpredictable
  rw [List.count, List.countP_eq_length_filter]
  have hid : (fun missed : Bool => missed == true) = id := funext fun missed => beq_true missed
  rw [hid]

end UniswapV3Pool

open UniswapV3Pool

/-- **The pool quotes by what its last swaps paid.** Whatever logs are applied to it, failed ones too, and whatever the fee
reader writes in between: it refuses every quote while `SWAP_FEE_MISSES_TO_STOP` of the last `SWAP_FEE_WINDOW` swaps with a
`SwapFee` log paid more than the fee held at that moment, and otherwise quotes as if it had never looked. -/
theorem watch_quotes {p : UniswapV3Pool} (hroom : p.swapFeeMisses.length ≤ SWAP_FEE_WINDOW) (steps : List WatchStep) :
    (p.watch steps).swapFeeMisses = p.recentMisses steps ∧
      (SWAP_FEE_MISSES_TO_STOP ≤ (p.recentMisses steps).count true → ∀ fuel token amount,
        (p.watch steps).calculateExactInput fuel token amount = .error (p.watch steps).unpredictable ∧
        (p.watch steps).calculateExactOutput fuel token amount = .error (p.watch steps).unpredictable) ∧
      ((p.recentMisses steps).count true < SWAP_FEE_MISSES_TO_STOP → ∀ fuel token amount,
        (p.watch steps).calculateExactInput fuel token amount =
          { p.watch steps with swapFeeMisses := [] }.calculateExactInput fuel token amount ∧
        (p.watch steps).calculateExactOutput fuel token amount =
          { p.watch steps with swapFeeMisses := [] }.calculateExactOutput fuel token amount) := by
  have hlist := watch_misses hroom steps
  have hstop : (p.watch steps).feeUnpredictable = decide (SWAP_FEE_MISSES_TO_STOP ≤ (p.recentMisses steps).count true) := by
    rw [feeUnpredictable_eq, hlist]
  refine ⟨hlist, fun hmany fuel token amount => ?_, fun hfew fuel token amount => ?_⟩
  · unfold calculateExactInput calculateExactOutput
    rw [if_pos (by rw [hstop]; exact decide_eq_true hmany), if_pos (by rw [hstop]; exact decide_eq_true hmany)]
    exact ⟨rfl, rfl⟩
  · have hgo : ¬(p.watch steps).feeUnpredictable := by
      rw [hstop, decide_eq_true_iff]
      omega
    have hnever : ¬({ p.watch steps with swapFeeMisses := [] } : UniswapV3Pool).feeUnpredictable := Bool.false_ne_true
    unfold calculateExactInput calculateExactOutput
    rw [if_neg hgo, if_neg hgo, if_neg hnever, if_neg hnever]
    exact ⟨rfl, rfl⟩

/-- The log of a swap that paid `fee` in all. -/
def paidLog (fee : Nat) : Log := ⟨1, .event (.v3 (.swapFee fee 0)), none, none, none, none, none, false⟩

/-- Three swaps that paid too much, the last of them only against the fee that was read before it. -/
def threePaidMore : List WatchStep :=
  [.log 0 (paidLog 5000), .log 0 (paidLog 1), .log 0 (paidLog 3001), .write 100 .readFee, .log 0 (paidLog 200)]

/-- They stop the quotes. -/
theorem watch_quotes_three : (flatPool.watch threePaidMore).swapFeeMisses = [true, false, true, true] ∧
    (flatPool.watch threePaidMore).calculateExactInput 1 flatPool.token0 1000 = .error (flatPool.watch threePaidMore).unpredictable := by
  have hroom : flatPool.swapFeeMisses.length ≤ SWAP_FEE_WINDOW := by decide
  obtain ⟨hlist, hstop, -⟩ := watch_quotes hroom threePaidMore
  exact ⟨hlist.trans (by decide), (hstop (by decide) 1 flatPool.token0 1000).1⟩

end EvmDexPool.V3
