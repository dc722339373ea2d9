/-!
# Logs and the events they decode to (`src/contracts.rs`, `contracts/ABI/`)

An address or a 32-byte word is a natural number. A log's payload is what its topics and data
decode to under the crate's `sol!` bindings:

| here | there |
| --- | --- |
| `Payload.event e`       | `topic0` is `e`'s signature hash and `log_decode` succeeds with `e`'s fields |
| `Payload.raw t err`     | `topic0` is `t`, and decoding it as `t`'s event fails with `err` |
| `Payload.anonymous`     | a log with no topics |

The signature hashes are pairwise different, so a topic is a constructor; `Topic.other` is a
hash none of the bindings has. Event fields that no handler reads are left out. First comes
`Fault`, the ways a call of the crate can end without a value.
-/

namespace EvmDexPool

abbrev Address := Nat
abbrev B256 := Nat

/-- How a call can end without a value: an `anyhow` error, a checked conversion that panics, a
native operation that overflows (a panic or a wrap, as the build profile has it), or a loop that
does not end. -/
inductive Fault
  | error (msg : String)
  | panic
  | overflow
  | diverges
deriving DecidableEq, Repr

/-- A sequence of calls returns a value when each call does. -/
theorem bind_eq_ok {ε α β : Type} {x : Except ε α} {f : α → Except ε β} {b : β} :
    (x >>= f) = .ok b ↔ ∃ a, x = .ok a ∧ f a = .ok b := by
  cases x <;> simp [bind, Except.bind]

theorem ok_bind {ε α β : Type} (a : α) (f : α → Except ε β) : ((Except.ok a : Except ε α) >>= f) = f a := rfl

theorem error_bind {ε α β : Type} (e : ε) (f : α → Except ε β) :
    ((Except.error e : Except ε α) >>= f) = .error e := rfl

/-- It does not end in an error that neither call ends in. -/
theorem bind_ne_error {ε α β : Type} {x : Except ε α} {f : α → Except ε β} {e : ε} (hx : x ≠ .error e)
    (hf : ∀ a, f a ≠ .error e) : (x >>= f) ≠ .error e := by
  cases x with
  | ok a => exact hf a
  | error e' => exact fun h => hx (congrArg Except.error (Except.error.inj h))

/-- One call for each of a list, all of which return a value. -/
theorem mapM_ok {ε α β : Type} {f : α → Except ε β} {g : α → β} {xs : List α} (h : ∀ x ∈ xs, f x = .ok (g x)) :
    xs.mapM f = .ok (xs.map g) := by
  induction xs with
  | nil => rfl
  | cons x xs ih =>
    rw [List.mapM_cons, h x List.mem_cons_self, ok_bind, ih fun y hy => h y (List.mem_cons_of_mem _ hy)]
    rfl

/-- The call comes back with an `Ok` or an `Err`, every value in range. -/
def Returns {α : Type} : Except Fault α → Prop
  | .ok _ => True
  | .error (.error _) => True
  | .error _ => False

theorem returns_ok {α : Type} (a : α) : Returns (.ok a : Except Fault α) := trivial
theorem returns_msg {α : Type} (m : String) : Returns (.error (.error m) : Except Fault α) := trivial

theorem returns_iff {α : Type} {x : Except Fault α} : Returns x ↔ (∃ a, x = .ok a) ∨ ∃ m, x = .error (.error m) := by
  cases x with
  | ok a => simp [Returns]
  | error e => cases e <;> simp [Returns]

theorem returns_bind {α β : Type} {x : Except Fault α} {f : α → Except Fault β} (hx : Returns x)
    (hf : ∀ a, x = .ok a → Returns (f a)) : Returns (x >>= f) := by
  cases x with
  | ok a => exact hf a rfl
  | error e =>
    cases e with
    | error m => exact returns_msg m
    | panic => exact hx
    | overflow => exact hx
    | diverges => exact hx

theorem returns_bind_iff {α β : Type} {x : Except Fault α} {f : α → Except Fault β} (hf : ∀ a, x = .ok a → Returns (f a)) :
    Returns (x >>= f) ↔ Returns x := by
  refine ⟨fun h => ?_, fun h => returns_bind h hf⟩
  cases x with
  | ok a => exact returns_ok a
  | error e => cases e <;> exact h

/-- `a / b`. -/
def udiv (a b : Nat) : Except Fault Nat := if b = 0 then .error .panic else .ok (a / b)

theorem udiv_of_pos {a b : Nat} (hb : 0 < b) : udiv a b = .ok (a / b) := if_neg (Nat.pos_iff_ne_zero.1 hb)

/-! ## Events -/

/-- The signature hashes of the bound events. -/
inductive Topic
  | v2Swap | v2Sync | v2SyncUint256
  | v3Swap | v3Mint | v3Burn | pancakeSwap | algebraSwap | algebraBurn
  | ramsesFeeAdjustment | ramsesMint
  | integralFee | integralPluginConfig | integralPlugin | integralSwapFee
  | erc4626Deposit | erc4626Withdraw
  | lbSwap | lbCompositionFees | lbDepositedToBins | lbWithdrawnFromBins
  | lbStaticFeeParametersSet | lbFlashLoan
  | lbSwapV20 | lbDepositedToBinV20 | lbWithdrawnFromBinV20
  | other (hash : B256)
deriving DecidableEq, Repr

/-- `IUniswapV2Pair`, `IV2PairUint256`. -/
inductive V2Event
  | swap
  | sync (reserve0 reserve1 : Nat)
  | syncUint256 (reserve0 reserve1 : Nat)
deriving DecidableEq, Repr

/-- `IUniswapV3Pool`, `IPancakeV3Pool`, `IAlgebraPoolSei`, `IRamsesCLPool`, `IAlgebraIntegralPool`. -/
inductive V3Event
  | swap (sqrtPriceX96 : Nat) (tick : Int) (liquidity : Nat)
  | pancakeSwap (sqrtPriceX96 : Nat) (tick : Int) (liquidity : Nat)
  | algebraSwap (price : Nat) (tick : Int) (liquidity : Nat)
  | mint (tickLower tickUpper : Int) (amount : Nat)
  | ramsesMint (tickLower tickUpper : Int) (amount : Nat)
  | burn (tickLower tickUpper : Int) (amount : Nat)
  | algebraBurn (bottomTick topTick : Int) (liquidityAmount : Nat)
  | feeAdjustment (oldFee newFee : Nat)
  | fee (fee : Nat)
  | pluginConfig (newPluginConfig : Nat)
  | plugin (newPluginAddress : Address)
  | swapFee (overrideFee pluginFee : Nat)
deriving DecidableEq, Repr

/-- `IERC4626`. -/
inductive Erc4626Event
  | deposit (assets shares : Nat)
  | withdraw (assets shares : Nat)
deriving DecidableEq, Repr

/-- `ILBPair` (v2.1 and later) and `ILBPairV20`. -/
inductive LBEvent
  | swap (id : Nat) (amountsIn amountsOut : B256) (volatilityAccumulator : Nat)
  | compositionFees (id : Nat)
  | depositedToBins (ids : List Nat) (amounts : List B256)
  | withdrawnFromBins (ids : List Nat) (amounts : List B256)
  | staticFeeParametersSet (baseFactor filterPeriod decayPeriod reductionFactor variableFeeControl
      protocolShare maxVolatilityAccumulator : Nat)
  | flashLoan (activeId : Nat) (totalFees protocolFees : B256)
  | swapV20 (id : Nat) (swapForY : Bool) (amountIn amountOut volatilityAccumulated : Nat)
  | depositedToBinV20 (id amountX amountY : Nat)
  | withdrawnFromBinV20 (id amountX amountY : Nat)
deriving DecidableEq, Repr

inductive Event
  | v2 (e : V2Event)
  | v3 (e : V3Event)
  | erc4626 (e : Erc4626Event)
  | lb (e : LBEvent)
deriving DecidableEq, Repr

/-! ## Topics -/

def V2Event.topic : V2Event → Topic
  | .swap => .v2Swap
  | .sync .. => .v2Sync
  | .syncUint256 .. => .v2SyncUint256

def V3Event.topic : V3Event → Topic
  | .swap .. => .v3Swap
  | .pancakeSwap .. => .pancakeSwap
  | .algebraSwap .. => .algebraSwap
  | .mint .. => .v3Mint
  | .ramsesMint .. => .ramsesMint
  | .burn .. => .v3Burn
  | .algebraBurn .. => .algebraBurn
  | .feeAdjustment .. => .ramsesFeeAdjustment
  | .fee .. => .integralFee
  | .pluginConfig .. => .integralPluginConfig
  | .plugin .. => .integralPlugin
  | .swapFee .. => .integralSwapFee

def Erc4626Event.topic : Erc4626Event → Topic
  | .deposit .. => .erc4626Deposit
  | .withdraw .. => .erc4626Withdraw

def LBEvent.topic : LBEvent → Topic
  | .swap .. => .lbSwap
  | .compositionFees .. => .lbCompositionFees
  | .depositedToBins .. => .lbDepositedToBins
  | .withdrawnFromBins .. => .lbWithdrawnFromBins
  | .staticFeeParametersSet .. => .lbStaticFeeParametersSet
  | .flashLoan .. => .lbFlashLoan
  | .swapV20 .. => .lbSwapV20
  | .depositedToBinV20 .. => .lbDepositedToBinV20
  | .withdrawnFromBinV20 .. => .lbWithdrawnFromBinV20

def Event.topic : Event → Topic
  | .v2 e => e.topic
  | .v3 e => e.topic
  | .erc4626 e => e.topic
  | .lb e => e.topic

/-! ## Logs -/

inductive Payload
  | event (e : Event)
  | raw (topic : Topic) (err : String)
  | anonymous
deriving DecidableEq, Repr

/-- `alloy::rpc::types::Log`: the fields the crate reads. A log that is not yet in a block
carries no position. -/
structure Log where
  address : Address
  payload : Payload
  blockNumber : Option Nat
  transactionIndex : Option Nat
  logIndex : Option Nat
  transactionHash : Option B256
  blockTimestamp : Option Nat
  removed : Bool
deriving DecidableEq, Repr

/-- `Log::topic0`. -/
def Log.topic0 (l : Log) : Option Topic :=
  match l.payload with
  | .event e => some e.topic
  | .raw t _ => some t
  | .anonymous => none

/-- Chain time for an event (`LBPool::log_timestamp`, lb/pool.rs:380): zero counts as absent, and
then the wall clock `now` stands in. -/
def Log.timestamp (l : Log) (now : Nat) : Nat :=
  match l.blockTimestamp with
  | some t => if t ≠ 0 then t else now
  | none => now

end EvmDexPool
