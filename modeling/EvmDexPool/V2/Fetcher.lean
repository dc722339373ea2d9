import EvmDexPool.Reads
import EvmDexPool.V2.FeeCalibration
import EvmDexPool.V2.TradeRuns

/-!
# Fetching a pair (`v2/fetcher.rs`)

| here | there |
| --- | --- |
| `PairReads`            | the calls on the pair and on factories, at one block |
| `normaliseReportedFee` | `normalise_reported_fee` (fetcher.rs:47) |
| `getV2FeeFromFactory`  | `get_v2_fee_from_factory` (fetcher.rs:374) |
| `factoryFee`           | the branch for pairs that report no fee (fetcher.rs:219-320) |
| `fetchV2Pool`          | `fetch_v2_pool` (fetcher.rs:127) |

The tables of known factories (`v2/factories.rs`) are parameters. `U256` products wrap.
-/

namespace EvmDexPool.V2

open Fixed

/-- `GET_FEE_MULTIPLIER`, `GET_FEE_MAX`, `REVERSE_FEE_MAX` (fetcher.rs:22-24). -/
def GET_FEE_MULTIPLIER : Nat := 100
def GET_FEE_MAX : Nat := 10000
def REVERSE_FEE_MAX : Nat := 5000

/-- A factory's three ways to tell a pair's fee (fetcher.rs:387-397). -/
structure FactoryFees where
  getFeePool : Except Fault Nat
  getFeePair : Except Fault Nat
  getFeeOnlyPair : Except Fault Nat

structure PairReads where
  multicall : Except Fault Unit
  token0 : Except Fault Address
  token1 : Except Fault Address
  getReserves : Except Fault (Nat × Nat)
  factory : Except Fault Address
  fee : Except Fault Nat
  getReservesUint256 : Except Fault (Nat × Nat)
  stable : Except Fault Bool
  getFee : Except Fault Nat
  isStable : Except Fault Bool
  swapFee : Except Fault Nat
  /-- Both probes in one multicall. -/
  getAmountOut : Nat → Nat → Option (Option Nat × Option Nat)
  /-- The word at `FACTORY_STORAGE_SLOT`. -/
  storedFactory : Except Fault Nat
  factoryFees : Address → Option FactoryFees
  getPairs : Except Fault Unit
  getPair : Address → Except Fault Address

/-- What is known of factories: an operator's fees by address, and the tables of the chain. -/
structure KnownFactories where
  factoryToFee : List (String × Nat)
  hardcodedFee : Address → Option Nat
  aeroFactories : List Address
  hardcodedAero : List Address

def normaliseReportedFee (raw : Nat) : Nat :=
  if raw > GET_FEE_MAX then raw
  else if raw > REVERSE_FEE_MAX then wmul 256 (wsub 256 GET_FEE_MAX raw) GET_FEE_MULTIPLIER
  else wmul 256 raw GET_FEE_MULTIPLIER

/-- The address as it is written, in lower case. -/
def addressText (a : Address) : String :=
  let digits := Nat.toDigits 16 a
  "0x" ++ String.ofList (List.replicate (40 - digits.length) '0' ++ digits)

/-- `10_u128.pow(decimals)` (pool.rs:71). -/
def decimalsUnit (decimals : Nat) : Except Fault Nat :=
  if 10 ^ decimals < 2 ^ 128 then .ok (10 ^ decimals) else .error .overflow

namespace PairReads
variable (reads : PairReads)

def getV2FeeFromFactory (factory : Address) : Option Nat :=
  match reads.factoryFees factory with
  | none => none
  | some fees =>
    match fees.getFeePool, fees.getFeePair, fees.getFeeOnlyPair with
    | .ok fee, _, _ => some (wmul 256 fee GET_FEE_MULTIPLIER)
    | .error _, .ok fee, _ => some (wmul 256 fee GET_FEE_MULTIPLIER)
    | .error _, .error _, .ok fee => some (wmul 256 fee GET_FEE_MULTIPLIER)
    | .error _, .error _, .error _ => none

/-- The first of the Aero factories that has this pair, and a fee for it (fetcher.rs:272-305). -/
def aeroFee (known : KnownFactories) (poolAddress : Address) : Except Fault (Option Nat) := do
  let allAero := known.aeroFactories ++ known.hardcodedAero.filter fun a => !known.aeroFactories.contains a
  reads.getPairs
  .ok (allAero.findSome? fun a =>
    match reads.getPair a with
    | .ok pair => if pair = poolAddress then reads.getV2FeeFromFactory a else none
    | .error _ => none)

/-- The fee of a pair that reports none: the operator's, the chain's table's, its factory's, or an Aero factory's. -/
def factoryFee (known : KnownFactories) (chainId : Nat) (poolAddress : Address) : Except Fault Nat := do
  let reported := match reads.factory with
    | .ok factory => factory
    | .error _ => 0
  let factory ← if reported ≠ 0 then .ok reported
    else do
      let word ← reads.storedFactory
      match narrow 160 word with
      | some factory => .ok factory
      | none => .error .panic
  match known.factoryToFee.find? fun e => e.1.toLower = addressText factory with
  | some e => .ok e.2
  | none =>
    match known.hardcodedFee factory with
    | some fee => .ok fee
    | none =>
      match reads.getV2FeeFromFactory factory with
      | some fee => .ok fee
      | none => do
        match ← reads.aeroFee known poolAddress with
        | some fee => .ok fee
        | none => .error (.error s!"Could not determine fee for pool {poolAddress} with factory {factory} on chain {chainId}")

def reserves : Except Fault (Nat × Nat) :=
  match reads.getReserves, reads.getReservesUint256 with
  | .ok r, _ => .ok r
  | .error _, .ok r => .ok r
  | .error _, .error _ => .error (.error "Failed to get reserves")

def pairIsStable : Bool :=
  match reads.stable, reads.isStable with
  | .ok b, _ => b
  | .error _, .ok b => b
  | .error _, .error _ => false

/-- What the pair reports of its fee, in the basis it is stored in (fetcher.rs:212-218). -/
def reportedFee : Option Nat :=
  match reads.fee, reads.getFee, reads.swapFee with
  | .ok fee, _, _ => some (normaliseReportedFee fee)
  | .error _, .ok fee, _ => some (wmul 256 fee GET_FEE_MULTIPLIER)
  | .error _, .error _, .ok fee => some (wmul 256 fee GET_FEE_MULTIPLIER)
  | .error _, .error _, .error _ => none

/-- The pair's own quotes go before what it reports. -/
def resolvedFee (known : KnownFactories) (chainId : Nat) (poolAddress : Address) (reserve0 reserve1 : Nat) : Except Fault Nat :=
  match reads.reportedFee with
  | some reported => do
    let calibrated ← if reads.pairIsStable then .ok none else calibrateV2Fee reads.getAmountOut reserve0 reserve1
    .ok (calibrated.getD reported)
  | none => reads.factoryFee known chainId poolAddress

def fetchV2Pool (known : KnownFactories) (getOrFetchToken : Address → Except Fault (Address × Nat)) (now chainId : Nat)
    (poolAddress : Address) : Except Fault UniswapV2Pool := do
  reads.multicall
  let token0Address ← labelled s!"token0() failed for {poolAddress}" reads.token0
  let token1Address ← labelled s!"token1() failed for {poolAddress}" reads.token1
  let (reserve0, reserve1) ← reads.reserves
  let fee ← reads.resolvedFee known chainId poolAddress reserve0 reserve1
  if fee > MAX_SANE_FEE then
    .error (.error (s!"pool {poolAddress} resolved to a fee of {fee} ({FEE_BASIS} basis): implausible, so the " ++
      "reading is a misparse rather than a pool worth pricing"))
  else do
    let (token0, decimals0) ← getOrFetchToken token0Address
    let (token1, decimals1) ← getOrFetchToken token1Address
    let unit0 ← decimalsUnit decimals0
    let unit1 ← decimalsUnit decimals1
    .ok {
      poolType := if reads.pairIsStable then .Stable else .UniswapV2
      address := poolAddress
      token0 := token0
      token1 := token1
      decimals0 := unit0
      decimals1 := unit1
      reserve0 := reserve0
      reserve1 := reserve1
      fee := fee
      lastUpdated := now
      createdAt := now }

end PairReads

/-! ## A pair that quotes itself -/

/-- A constant-product pair with a fee that is believed, and reserves that the fee can be told from. -/
structure Pair where
  token0 : Address
  token1 : Address
  reserve0 : Nat
  reserve1 : Nat
  fee : Nat
  tokens : token0 ≠ token1
  bounds0 : 2 ≤ reserve0 ∧ reserve0 < 2 ^ 112
  bounds1 : 20 * FEE_DENOMINATOR ≤ reserve1 ∧ reserve1 < 2 ^ 112
  charged : 1 ≤ fee ∧ fee ≤ MAX_SANE_FEE

namespace Pair
variable (pair : Pair)

/-- What it pays out for an amount of the token with `reserveIn`. -/
def getAmountOut (tokenIn : Address) (amountIn : Nat) : Nat :=
  if tokenIn = pair.token0 then pairQuote pair.reserve0 pair.reserve1 pair.fee amountIn
  else pairQuote pair.reserve1 pair.reserve0 pair.fee amountIn

end Pair

/-- The reads are the pair's own, or where `may` they fail. One getter of the fee answers, with whatever it says. -/
structure PairReads.TrueOf (reads : PairReads) (may : Prop) (pair : Pair) : Prop where
  multicall : Tells may reads.multicall ()
  token0 : Tells may reads.token0 pair.token0
  token1 : Tells may reads.token1 pair.token1
  reserves : reads.getReserves = .ok (pair.reserve0, pair.reserve1) ∨
    (∃ e, reads.getReserves = .error e) ∧ Tells may reads.getReservesUint256 (pair.reserve0, pair.reserve1)
  volatile : reads.stable ≠ .ok true ∧ reads.isStable ≠ .ok true
  reports : reads.fee.isOk ∨ reads.getFee.isOk ∨ reads.swapFee.isOk
  quotes : ∀ probe0 probe1, reads.getAmountOut probe0 probe1 =
    some (some (pairQuote pair.reserve0 pair.reserve1 pair.fee probe0), some (pairQuote pair.reserve0 pair.reserve1 pair.fee probe1))

namespace PairReads.TrueOf
variable {reads : PairReads} {may : Prop} {pair : Pair}

theorem calibrates (h : reads.TrueOf may pair) : calibrateV2Fee reads.getAmountOut pair.reserve0 pair.reserve1 = .ok (some pair.fee) :=
  calibrateV2Fee_quotes pair.bounds0.1 pair.bounds0.2 pair.bounds1.1 pair.bounds1.2 pair.charged.1 pair.charged.2 h.quotes

theorem pairIsStable (h : reads.TrueOf may pair) : reads.pairIsStable = false := by
  obtain ⟨hstable, hisStable⟩ := h.volatile
  unfold PairReads.pairIsStable
  cases hs : reads.stable with
  | ok b => cases b <;> simp_all
  | error e =>
    cases hi : reads.isStable with
    | ok b => cases b <;> simp_all
    | error e => rfl

theorem resolvedFee (h : reads.TrueOf may pair) (known : KnownFactories) (chainId : Nat) (poolAddress : Address) :
    reads.resolvedFee known chainId poolAddress pair.reserve0 pair.reserve1 = .ok pair.fee := by
  have hreported : ∃ fee, reads.reportedFee = some fee := by
    have hreports := h.reports
    unfold reportedFee
    cases hfee : reads.fee with
    | ok fee => exact ⟨_, rfl⟩
    | error e =>
      cases hget : reads.getFee with
      | ok fee => exact ⟨_, rfl⟩
      | error e =>
        cases hswap : reads.swapFee with
        | ok fee => exact ⟨_, rfl⟩
        | error e => simp [hfee, hget, hswap, Except.isOk, Except.toBool] at hreports
  obtain ⟨fee, hfee⟩ := hreported
  unfold PairReads.resolvedFee
  rw [hfee]
  dsimp only
  rw [h.pairIsStable, if_neg Bool.false_ne_true, h.calibrates]
  rfl

theorem reserves_tells (h : reads.TrueOf may pair) : Tells may reads.reserves (pair.reserve0, pair.reserve1) := by
  unfold PairReads.reserves
  rcases h.reserves with hr | ⟨⟨e, hr⟩, hr' | ⟨hmay, msg, hr'⟩⟩
  · rw [hr]
    exact .ok _
  · rw [hr, hr']
    exact .ok _
  · rw [hr, hr']
    exact .inr ⟨hmay, _, rfl⟩

end PairReads.TrueOf

namespace Pair
variable {pair : Pair}

/-- A pool with the pair's tokens, reserves and fee quotes what the pair pays out. -/
theorem quoted {p : UniswapV2Pool} (htype : p.poolType = .UniswapV2) (h0 : p.token0 = pair.token0) (h1 : p.token1 = pair.token1)
    (hr0 : p.reserve0 = pair.reserve0) (hr1 : p.reserve1 = pair.reserve1) (hfee : p.fee = pair.fee) {tokenIn : Address}
    {amountIn : Nat} (htoken : tokenIn = pair.token0 ∨ tokenIn = pair.token1) (hpos : 0 < amountIn) (hlt : amountIn < 2 ^ 112) :
    p.calculateOutput tokenIn amountIn = .ok (pair.getAmountOut tokenIn amountIn) := by
  have hbelow : pair.fee < FEE_DENOMINATOR := lt_of_le_of_lt pair.charged.2 (by decide)
  have hreserve1 : 0 < pair.reserve1 := lt_of_lt_of_le (by decide) pair.bounds1.1
  have hsound : p.Sound := ⟨htype, hfee ▸ hbelow, h0 ▸ h1 ▸ pair.tokens, hr0 ▸ ⟨by have := pair.bounds0.1; omega, pair.bounds0.2⟩,
    hr1 ▸ ⟨hreserve1, pair.bounds1.2⟩⟩
  rw [hsound.output (h0 ▸ h1 ▸ htoken) hpos hlt]
  unfold getAmountOut UniswapV2Pool.reserveOf UniswapV2Pool.reserveAgainst UniswapV2Pool.net pairQuote
  rw [h0, hr0, hr1, hfee]
  split <;> rfl

end Pair

theorem decimalsUnit_of_le {decimals : Nat} (h : decimals ≤ 38) : decimalsUnit decimals = .ok (10 ^ decimals) := by
  have hle : 10 ^ decimals ≤ 10 ^ 38 := Nat.pow_le_pow_right (by decide) h
  exact if_pos (lt_of_le_of_lt hle (by decide))

/-- **A pair that quotes itself is fetched with its own fee**, whatever it reports, and the pool then quotes what the pair pays
out. Where other reads fail the fetch may fail, and never comes back with another fee or other reserves. -/
theorem fetchV2Pool_quotes {reads : PairReads} {may : Prop} {pair : Pair} (h : reads.TrueOf may pair) (known : KnownFactories)
    {getOrFetchToken : Address → Except Fault (Address × Nat)}
    (htoken : ∀ a, Yields may (getOrFetchToken a) fun token => token.1 = a ∧ token.2 ≤ 38) (now chainId : Nat) (poolAddress : Address) :
    Yields may (reads.fetchV2Pool known getOrFetchToken now chainId poolAddress) fun p =>
      (p.token0 = pair.token0 ∧ p.token1 = pair.token1) ∧ (p.reserve0 = pair.reserve0 ∧ p.reserve1 = pair.reserve1) ∧
        p.fee = pair.fee ∧ ∀ tokenIn amountIn, (tokenIn = pair.token0 ∨ tokenIn = pair.token1) → 0 < amountIn → amountIn < 2 ^ 112 →
          p.calculateOutput tokenIn amountIn = .ok (pair.getAmountOut tokenIn amountIn) := by
  unfold PairReads.fetchV2Pool
  refine h.multicall.yields.bind ?_
  rintro _ rfl
  refine (h.token0.labelled _).yields.bind ?_
  rintro _ rfl
  refine (h.token1.labelled _).yields.bind ?_
  rintro _ rfl
  refine h.reserves_tells.yields.bind ?_
  rintro _ rfl
  dsimp only
  rw [h.resolvedFee, ok_bind, if_neg (Nat.not_lt.2 pair.charged.2), h.pairIsStable, if_neg Bool.false_ne_true]
  refine (htoken pair.token0).bind ?_
  rintro ⟨token0, decimals0⟩ ⟨rfl, hdecimals0⟩
  refine (htoken pair.token1).bind ?_
  rintro ⟨token1, decimals1⟩ ⟨rfl, hdecimals1⟩
  dsimp only at hdecimals0 hdecimals1 ⊢
  rw [decimalsUnit_of_le hdecimals0, decimalsUnit_of_le hdecimals1, ok_bind, ok_bind]
  refine .inl ⟨_, ⟨⟨rfl, rfl⟩, ⟨rfl, rfl⟩, rfl, fun tokenIn amountIn htokenIn hpos hlt => ?_⟩, rfl⟩
  exact Pair.quoted rfl rfl rfl rfl rfl rfl htokenIn hpos hlt

/-- A pair of half a percent. -/
def halfPercentPair : Pair where
  token0 := 2
  token1 := 3
  reserve0 := 10 ^ 20
  reserve1 := 3 * 10 ^ 20
  fee := 5000
  tokens := by decide
  bounds0 := by decide
  bounds1 := by decide
  charged := by decide

/-- Its calls, its `fee()` being read as half of the amount, and its reserves in words of 256 bits. -/
def halfPercentReads : PairReads where
  multicall := .ok ()
  token0 := .ok 2
  token1 := .ok 3
  getReserves := .error (.error "execution reverted")
  factory := .ok 0
  fee := .ok 5000
  getReservesUint256 := .ok (10 ^ 20, 3 * 10 ^ 20)
  stable := .ok false
  getFee := .error (.error "execution reverted")
  isStable := .error (.error "execution reverted")
  swapFee := .error (.error "execution reverted")
  getAmountOut probe0 probe1 :=
    some (some (pairQuote (10 ^ 20) (3 * 10 ^ 20) 5000 probe0), some (pairQuote (10 ^ 20) (3 * 10 ^ 20) 5000 probe1))
  storedFactory := .ok 0
  factoryFees _ := none
  getPairs := .ok ()
  getPair _ := .error (.error "execution reverted")

/-- It is fetched at half a percent, not at the half that it reports. -/
theorem fetchV2Pool_quotes_half : normaliseReportedFee 5000 = 500000 ∧
    ∃ p, halfPercentReads.fetchV2Pool ⟨[], fun _ => none, [], []⟩ (fun a => .ok (a, 18)) 0 43114 9 = .ok p ∧ p.fee = 5000 := by
  have htrue : halfPercentReads.TrueOf False halfPercentPair :=
    ⟨.ok (), .ok 2, .ok 3, .inr ⟨⟨_, rfl⟩, .ok _⟩, ⟨by decide, by decide⟩, .inl rfl, fun _ _ => rfl⟩
  rcases fetchV2Pool_quotes htrue ⟨[], fun _ => none, [], []⟩ (fun a => .inl ⟨(a, 18), ⟨rfl, (by decide : 18 ≤ 38)⟩, rfl⟩) 0 43114 9 with
    ⟨p, ⟨-, -, hfee, -⟩, hp⟩ | ⟨hno, -⟩
  · exact ⟨by decide, p, hp, hfee⟩
  · exact hno.elim

end EvmDexPool.V2
