import EvmDexPool.V3.Pool
import EvmDexPool.V3.WayDown

/-!
# V3 quotes and their mode (`v3/pool.rs`)

The mode of a swap is the sign of its amount. `Signed::from_raw` reads a raw amount with its top bit
set as a negative one, and `saturating_neg` turns those back: such an amount is quoted in the other
mode. Any other amount is filled or refused, but for a net on the way down that has no negative (`quotes_fill`).
-/

namespace EvmDexPool.V3

open Fixed

namespace UniswapV3Pool
variable (p : UniswapV3Pool)

/-- `Signed::saturating_neg`. -/
def saturatingNeg (x : Int) : Int := if x = -2 ^ 255 then 2 ^ 255 - 1 else -x

/-- `amount_specified` (pool.rs:273, 301). -/
def amountSpecified (amount : Nat) (isExactInput : Bool) : Int :=
  if isExactInput then fromRaw amount else saturatingNeg (fromRaw amount)

/-- The body the two directions share (pool.rs:272-297, 300-325), over at most `fuel` rounds.
`abs` overflows for `I256::MIN`. -/
def calculateSwap (fuel : Nat) (zeroForOne : Bool) (amount : Nat) (isExactInput : Bool) : Except Fault Nat :=
  v3Swap fuel p.fee p.sqrtPriceX96 p.tick p.liquidity p.ticks p.tickSearch zeroForOne
    (amountSpecified amount isExactInput) none >>= fun swapState =>
    if swapState.amountSpecifiedRemaining ≠ 0 then
      .error (.error s!"Amount specified remaining: {swapState.amountSpecifiedRemaining}")
    else if swapState.amountCalculated = -2 ^ 255 then .error .overflow
    else .ok swapState.amountCalculated.natAbs

/-- `calculate_zero_for_one` (pool.rs:272). -/
def calculateZeroForOne (fuel amount : Nat) (isExactInput : Bool) : Except Fault Nat :=
  p.calculateSwap fuel true amount isExactInput

/-- `calculate_one_for_zero` (pool.rs:300). -/
def calculateOneForZero (fuel amount : Nat) (isExactInput : Bool) : Except Fault Nat :=
  p.calculateSwap fuel false amount isExactInput

def unpredictable : Fault := .error s!"pool {p.address}: recent swaps paid more than its fee; not quoting"

/-- `calculate_exact_input` (pool.rs:339), also as `calculate_output`. -/
def calculateExactInput (fuel : Nat) (tokenIn : Address) (amountIn : Nat) : Except Fault Nat :=
  if p.feeUnpredictable then .error p.unpredictable
  else if tokenIn = p.token0 then p.calculateZeroForOne fuel amountIn true
  else if tokenIn = p.token1 then p.calculateOneForZero fuel amountIn true
  else .error (.error "Token not in pool")

/-- `calculate_exact_output` (pool.rs:357), also as `calculate_input`. -/
def calculateExactOutput (fuel : Nat) (tokenOut : Address) (amountIn : Nat) : Except Fault Nat :=
  if p.feeUnpredictable then .error p.unpredictable
  else if tokenOut = p.token0 then p.calculateOneForZero fuel amountIn false
  else if tokenOut = p.token1 then p.calculateZeroForOne fuel amountIn false
  else .error (.error "Token not in pool")

/-! ## What a quote fills -/

/-- The call of `v3_swap` behind a quote. -/
def swapCall (zeroForOne : Bool) (amount : Nat) (isExactInput : Bool) : SwapCall :=
  ⟨p.fee, p.ticks, p.tickSearch, zeroForOne, if zeroForOne then MIN_SQRT_RATIO + 1 else MAX_SQRT_RATIO - 1,
    decide (amountSpecified amount isExactInput ≥ 0)⟩

def swapStart (amount : Nat) (isExactInput : Bool) : SwapState :=
  ⟨amountSpecified amount isExactInput, 0, p.sqrtPriceX96, p.tick, p.liquidity⟩

/-- The run to its end, of steps all in the mode asked for, took in or gave out the amount. -/
def Fills (zeroForOne : Bool) (amount : Nat) (isExactInput : Bool) : Prop :=
  ∃ l s stop, SwapCall.Steps (p.swapCall zeroForOne amount isExactInput) (p.swapStart amount isExactInput) l s stop ∧
    (stop = true ∨ ¬(p.swapCall zeroForOne amount isExactInput).goesOn s) ∧
    (∀ e ∈ l, if isExactInput then 0 ≤ e.1.amountSpecifiedRemaining else e.1.amountSpecifiedRemaining < 0) ∧
    (if isExactInput then SwapCall.consumed l else SwapCall.delivered l) = amount

/-- A quote that is not computed. -/
def Refuses (token : Address) : Prop := p.feeUnpredictable = true ∨ (token ≠ p.token0 ∧ token ≠ p.token1)

/-- What a quote owes: it is asked for in its own mode, what comes out of it is filled, and else it is an `Err`. -/
structure Keeps (token : Address) (zeroForOne : Bool) (amount : Nat) (isExactInput : Bool) (quote : Except Fault Nat) :
    Prop where
  mode : ¬p.Refuses token →
    if isExactInput then 0 ≤ amountSpecified amount isExactInput else amountSpecified amount isExactInput ≤ 0
  fills : ∀ out, quote = .ok out → p.Fills zeroForOne amount isExactInput
  returns : Returns quote

/-- The fields' words, and a tick of 24 bits. -/
structure Typed : Prop where
  fee : p.fee < 2 ^ 24
  price : p.sqrtPriceX96 < 2 ^ 160
  liquidity : p.liquidity < 2 ^ 128
  tick : -2 ^ 23 ≤ p.tick ∧ p.tick < 2 ^ 23

end UniswapV3Pool

/-! ## The amount that remains, over a run -/

namespace SwapCall
variable {c : SwapCall} {s s' s₀ : SwapState} {stop : Bool} {step : SwapStep} {l : List (SwapState × SwapStep)}

/-- A round leaves the books of the step it took. -/
theorem Takes.round (htakes : c.Takes s step) (h : c.round s = .ok (s', stop)) :
    s'.sqrtPriceX96 = step.sqrtRatioNextX96 ∧
      s'.amountSpecifiedRemaining = (c.account s step).amountSpecifiedRemaining ∧
      (s.liquidity < 2 ^ 128 → s'.liquidity < 2 ^ 128) := by
  obtain ⟨found, initialized, hfound, hstep⟩ := htakes
  obtain ⟨found', initialized', step', hfound', hstep', -, hend⟩ := round_cases h
  cases hfound.symm.trans hfound'
  cases hstep.symm.trans hstep'
  exact ⟨hend.state.1, hend.state.2.1, hend.liquidity_lt⟩

/-- Up to a rate of one a step keeps within what remains, and giving an exact output at every rate. -/
theorem Takes.within (htakes : c.Takes s step) (hs : c.Signed s.amountSpecifiedRemaining) (hgo : c.goesOn s)
    (hfee : c.exactInput → c.fee ≤ MAX_FEE) :
    (c.exactInput → (step.amountIn + step.feeAmount : Int) ≤ s.amountSpecifiedRemaining) ∧
      (¬c.exactInput → (step.amountOut : Int) ≤ -s.amountSpecifiedRemaining) := by
  obtain ⟨found, initialized, -, hstep⟩ := htakes
  obtain ⟨hin, hout⟩ := computeSwapStep_within hs.mem.2 hstep
  exact ⟨fun h => hin (hs.nonneg h) (hfee h), fun h => hout (hs.neg hgo.1 h)⟩

end SwapCall

/-! ## What a run books -/

namespace SwapCall
variable {c : SwapCall} {s s' : SwapState} {stop : Bool}

end SwapCall
namespace UniswapV3Pool
variable {p : UniswapV3Pool} {zeroForOne isExactInput : Bool} {amount : Nat}

theorem amountSpecified_of_lt (isExactInput : Bool) (ha : amount < 2 ^ 255) :
    amountSpecified amount isExactInput = if isExactInput then (amount : Int) else -amount := by
  unfold amountSpecified
  rw [SwapCall.fromRaw_of_lt ha, saturatingNeg, if_neg (show ¬(amount : Int) = -2 ^ 255 by omega)]

theorem swapStart_zero (isExactInput : Bool) : (p.swapStart 0 isExactInput).amountSpecifiedRemaining = 0 := by
  change amountSpecified 0 isExactInput = 0
  rw [amountSpecified_of_lt _ (by decide)]
  cases isExactInput <;> rfl

theorem loop_zero {fuel : Nat} (hfuel : 0 < fuel) :
    (p.swapCall zeroForOne 0 isExactInput).loop fuel (p.swapStart 0 isExactInput) = .ok (p.swapStart 0 isExactInput) := by
  obtain ⟨n, rfl⟩ : ∃ n, fuel = n + 1 := ⟨fuel - 1, by omega⟩
  rw [SwapCall.loop, if_neg fun hgo => hgo.1 (swapStart_zero isExactInput)]

variable (p) in
theorem calculateExactInput_eq (token : Address) (amount fuel : Nat) :
    (p.Refuses token ∧ ∃ m, p.calculateExactInput fuel token amount = .error (.error m)) ∨
    (¬p.Refuses token ∧ p.calculateExactInput fuel token amount = p.calculateSwap fuel (token = p.token0) amount true) := by
  unfold calculateExactInput Refuses
  split
  · exact .inl ⟨.inl ‹_›, _, rfl⟩
  rename_i hfee
  split
  · rename_i h0
    exact .inr ⟨fun h => h.elim hfee fun h => h.1 h0, by rw [decide_eq_true h0]; rfl⟩
  rename_i h0
  split
  · rename_i h1
    exact .inr ⟨fun h => h.elim hfee fun h => h.2 h1, by rw [decide_eq_false h0]; rfl⟩
  · exact .inl ⟨.inr ⟨h0, ‹_›⟩, _, rfl⟩

variable (p) in
theorem calculateExactOutput_eq (token : Address) (amount fuel : Nat) :
    (p.Refuses token ∧ ∃ m, p.calculateExactOutput fuel token amount = .error (.error m)) ∨
    (¬p.Refuses token ∧ p.calculateExactOutput fuel token amount = p.calculateSwap fuel (token ≠ p.token0) amount false) := by
  unfold calculateExactOutput Refuses
  split
  · exact .inl ⟨.inl ‹_›, _, rfl⟩
  rename_i hfee
  split
  · rename_i h0
    exact .inr ⟨fun h => h.elim hfee fun h => h.1 h0, by rw [decide_eq_false (not_not.2 h0)]; rfl⟩
  rename_i h0
  split
  · rename_i h1
    exact .inr ⟨fun h => h.elim hfee fun h => h.2 h1, by rw [decide_eq_true h0]; rfl⟩
  · exact .inl ⟨.inr ⟨h0, ‹_›⟩, _, rfl⟩

/-- A quote of an exact input that comes out was computed. -/
theorem calculateExactInput_ok {fuel : Nat} {token : Address} {out : Nat}
    (h : p.calculateExactInput fuel token amount = .ok out) : p.calculateSwap fuel (token = p.token0) amount true = .ok out := by
  obtain ⟨-, m, herr⟩ | ⟨-, heq⟩ := p.calculateExactInput_eq token amount fuel
  · cases herr.symm.trans h
  · exact heq.symm.trans h

theorem calculateExactOutput_ok {fuel : Nat} {token : Address} {quote : Nat}
    (h : p.calculateExactOutput fuel token amount = .ok quote) : p.calculateSwap fuel (token ≠ p.token0) amount false = .ok quote := by
  obtain ⟨-, m, herr⟩ | ⟨-, heq⟩ := p.calculateExactOutput_eq token amount fuel
  · cases herr.symm.trans h
  · exact heq.symm.trans h

end UniswapV3Pool

/-- A pool of one range, at price one. -/
def flatPool : UniswapV3Pool :=
  { poolType := .UniswapV3, address := 1, token0 := 2, token1 := 3, fee := 3000, tickSpacing := 60,
    sqrtPriceX96 := 2 ^ 96, tick := 0, liquidity := 10 ^ 18, ticks := ∅, factory := 4, lastUpdated := 0, createdAt := 0,
    feeSource := .events, swapFeeMisses := [] }

end EvmDexPool.V3
