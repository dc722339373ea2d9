import EvmDexPool.Collector.FeeReader
import EvmDexPool.Reads
import EvmDexPool.V3.ContractHistory
import EvmDexPool.V3.Fetcher

/-!
# Fetching a V3 pool (`v3/fetcher.rs:21-253`)

| here | there |
| --- | --- |
| `PoolReads`   | the multicall that asks a pool as every kind it may be of, and the calls for its ticks |
| `poolState`   | the chain of arms that tells the kinds apart |
| `fetchV3Pool` | `fetch_v3_pool` |

A contract's reads may fail. Where the fetch comes back, the pool has what the contract has, and follows its logs from
there on (`fetchV3Pool_follows`).
-/

namespace EvmDexPool.V3

open Intervals

/-- `globalState()` as three kinds of Algebra pool answer it: what follows the price and the tick differs. -/
structure GlobalState (α : Type) where
  price : Nat
  tick : Int
  rest : α

/-- What the pool answers. A call that it does not know fails. -/
structure PoolReads where
  multicall : Except Fault Unit
  token0 : Except Fault Address
  token1 : Except Fault Address
  fee : Except Fault Nat
  tickSpacing : Except Fault Int
  slot0 : Except Fault (Nat × Int)
  liquidity : Except Fault Nat
  factory : Except Fault Address
  /-- `slot0()` without a protocol fee. -/
  clpSlot0 : Except Fault (Nat × Int)
  algebraFee : Except Fault Nat
  /-- Ends in the plugin configuration. -/
  globalState : Except Fault (GlobalState Nat)
  /-- Ends in a fee for each direction. -/
  twoSideGlobalState : Except Fault (GlobalState (Nat × Nat))
  activeIncentive : Except Fault Unit
  /-- Ends in the fee. -/
  feeInStateGlobalState : Except Fault (GlobalState Nat)
  lastPeriod : Except Fault Unit
  currentFee : Except Fault Nat
  ticks : TickReads

/-- The tuple of fetcher.rs:67, with what the arm has found of the pool's kind. -/
structure PoolState where
  token0 : Address
  token1 : Address
  fee : Nat
  tickSpacing : Int
  sqrtPriceX96 : Nat
  tick : Int
  liquidity : Nat
  factory : Address
  poolType : V3PoolType
  algebraPluginConfig : Option Nat

namespace PoolReads
variable (reads : PoolReads) (poolAddress : Address)

/-- What every arm reads beside the price and the tick, in this order. -/
def withPrice (fee : Except Fault Nat) (sqrtPriceX96 : Nat) (tick : Int) (poolType : V3PoolType)
    (algebraPluginConfig : Option Nat) : Except Fault PoolState := do
  let token0 ← labelled s!"token0() failed for {poolAddress}" reads.token0
  let token1 ← labelled s!"token1() failed for {poolAddress}" reads.token1
  let fee ← fee
  let tickSpacing ← labelled s!"tickSpacing() failed for {poolAddress}" reads.tickSpacing
  let liquidity ← labelled s!"liquidity() failed for {poolAddress}" reads.liquidity
  let factory ← labelled s!"factory() failed for {poolAddress}" reads.factory
  .ok ⟨token0, token1, fee, tickSpacing, sqrtPriceX96, tick, liquidity, factory, poolType, algebraPluginConfig⟩

/-- The arm of the pools with an incentive: the larger of the two fees is kept. -/
def twoSideState : Except Fault PoolState := do
  let state ← labelled s!"globalState() [AlgebraTwoSideFee] failed for {poolAddress}" reads.twoSideGlobalState
  let (feeZto, feeOtz) := state.rest
  reads.withPrice poolAddress (.ok (if feeZto > feeOtz then feeZto else feeOtz)) state.price state.tick .AlgebraTwoSideFee none

/-- The last arm: the factory is read right after `slot0()`. -/
def slot0State : Except Fault PoolState := do
  let slot0 ← labelled s!"slot0() failed for {poolAddress}" reads.slot0
  let _ ← labelled s!"factory() failed for {poolAddress}" reads.factory
  reads.withPrice poolAddress (labelled s!"fee() failed for {poolAddress}" reads.fee) slot0.1 slot0.2 .UniswapV3 none

/-- The first of the kinds that the pool answers as (fetcher.rs:67-197). -/
def poolState : Except Fault PoolState :=
  match reads.clpSlot0, reads.feeInStateGlobalState, reads.activeIncentive, reads.globalState with
  | .ok slot0, _, _, _ =>
    reads.withPrice poolAddress (labelled s!"fee() failed for {poolAddress}" reads.fee) slot0.1 slot0.2 .UniswapV3 none
  | .error _, .ok state, _, _ => reads.withPrice poolAddress (.ok state.rest) state.price state.tick .AlgebraPoolFeeInState none
  | .error _, .error _, .ok _, _ => reads.twoSideState poolAddress
  | .error _, .error _, .error _, .ok state =>
    reads.withPrice poolAddress (labelled s!"fee() [AlgebraV3] failed for {poolAddress}" reads.algebraFee) state.price state.tick
      .AlgebraV3 (some state.rest)
  | .error _, .error _, .error _, .error _ => reads.slot0State poolAddress

/-- A pool that none of the arms has claimed, and that answers `lastPeriod()`, is a Ramses pool (fetcher.rs:211). -/
def finalType (poolType : V3PoolType) : V3PoolType :=
  if poolType = .UniswapV3 ∧ reads.lastPeriod.isOk then .RamsesCL else poolType

/-- What a Ramses pool charges whatever `fee()` says (fetcher.rs:219). -/
def chargedFee (poolType : V3PoolType) : Option Nat :=
  match poolType, reads.currentFee with
  | .RamsesCL, .ok current => some current
  | _, _ => none

def fetchV3Pool (getOrFetchToken : Address → Except Fault (Address × Nat)) (now : Nat) : Except Fault UniswapV3Pool := do
  reads.multicall
  let state ← reads.poolState poolAddress
  let poolType := reads.finalType state.poolType
  let currentFee := reads.chargedFee poolType
  let token0 ← getOrFetchToken state.token0
  let token1 ← getOrFetchToken state.token1
  let pool : UniswapV3Pool := {
    poolType := poolType
    address := poolAddress
    token0 := token0.1
    token1 := token1.1
    fee := currentFee.getD state.fee
    tickSpacing := state.tickSpacing
    sqrtPriceX96 := state.sqrtPriceX96
    tick := state.tick
    liquidity := state.liquidity
    ticks := ∅
    factory := state.factory
    lastUpdated := now
    createdAt := now
    feeSource := classifyFeeSource poolType state.algebraPluginConfig currentFee.isSome
    swapFeeMisses := [] }
  pool.fetchV3Ticks reads.ticks

end PoolReads

/-! ## The reads of a contract -/

namespace Contract.Pool
variable (c : Contract.Pool)

/-- The ticks that positions end at: those with a bit in the contract's bitmap. -/
def ends : Finset Int := c.positions.support.image Interval.lower ∪ c.positions.support.image Interval.upper

theorem mem_ends {t : Int} : t ∈ c.ends ↔ ∃ r ∈ c.positions.support, t = r.lower ∨ t = r.upper := by
  unfold ends
  simp only [Finset.mem_union, Finset.mem_image]
  constructor
  · rintro (⟨r, hr, rfl⟩ | ⟨r, hr, rfl⟩)
    · exact ⟨r, hr, .inl rfl⟩
    · exact ⟨r, hr, .inr rfl⟩
  · rintro ⟨r, hr, rfl | rfl⟩
    · exact .inl ⟨r, hr, rfl⟩
    · exact .inr ⟨r, hr, rfl⟩

/-- What is stored of the ticks that have a bit is all there is. -/
theorem tickOf_eq (t : Int) : tickOf t (net c.positions t) (gross c.positions t) =
    if t ∈ c.ends then some ⟨t, net c.positions t, gross c.positions t⟩ else none := by
  unfold tickOf
  by_cases ht : t ∈ c.ends
  · have hgross : gross c.positions t ≠ 0 := by
      obtain ⟨r, hr, hend⟩ := c.mem_ends.1 ht
      exact fun h => gross_eq_zero.1 h r hr hend
    rw [if_neg hgross, if_pos ht]
  · have hgross : gross c.positions t = 0 := gross_eq_zero.2 fun r hr hend => ht (c.mem_ends.2 ⟨r, hr, hend⟩)
    rw [if_pos hgross, if_neg ht]

variable {c}

theorem Sound.ends_mem (hc : c.Sound) {t : Int} (ht : t ∈ c.ends) : c.tickSpacing ∣ t ∧ MIN_TICK ≤ t ∧ t ≤ MAX_TICK := by
  obtain ⟨r, hr, hend⟩ := c.mem_ends.1 ht
  obtain ⟨⟨hlo, hhi⟩, hlower, hupper⟩ := hc.ranges r hr
  have hlt := r.lt
  rcases hend with rfl | rfl
  · exact ⟨hlower, hlo, by omega⟩
  · exact ⟨hupper, by omega, hhi⟩

end Contract.Pool

/-- The words of the contract's bitmap, or where they `may`, the calls for them fail. -/
def Shows (may : Prop) (c : Contract.Pool) (read : Int → Except Fault Nat) : Prop :=
  ∀ n, -2 ^ 15 ≤ n → n < 2 ^ 15 → Tells may (read n) (tickWord c.ends c.tickSpacing n)

/-- How a pool whose swaps go word by word, with a fee that its logs announce, answers for its price, its fee and its bitmap:
a multicall gives every call an answer or none, so what a pool does not know it never answers. -/
inductive PoolReads.Answers (reads : PoolReads) (may : Prop) (c : Contract.Pool) : Prop
  | clpSlot0 (hslot0 : reads.clpSlot0 = .ok (c.price, c.tick)) (hfee : Tells may reads.fee c.fee)
      (hannounced : ¬(reads.lastPeriod.isOk ∧ reads.currentFee.isOk)) (hwords : Shows may c reads.ticks.tickBitmap)
  | slot0 (hunknown : ¬reads.clpSlot0.isOk ∧ ¬reads.feeInStateGlobalState.isOk ∧ ¬reads.activeIncentive.isOk ∧
        ¬reads.globalState.isOk) (hslot0 : Tells may reads.slot0 (c.price, c.tick)) (hfee : Tells may reads.fee c.fee)
      (hannounced : ¬(reads.lastPeriod.isOk ∧ reads.currentFee.isOk)) (hwords : Shows may c reads.ticks.tickBitmap)
  | feeInState (hunknown : ¬reads.clpSlot0.isOk) (hstate : reads.feeInStateGlobalState = .ok ⟨c.price, c.tick, c.fee⟩)
      (hwords : Shows may c reads.ticks.tickTable)
  | twoSideFee (hunknown : ¬reads.clpSlot0.isOk ∧ ¬reads.feeInStateGlobalState.isOk) (hincentive : reads.activeIncentive.isOk)
      (hstate : Tells may reads.twoSideGlobalState ⟨c.price, c.tick, c.fee, c.fee⟩) (hwords : Shows may c reads.ticks.tickTable)

/-- The reads are the contract's. -/
structure PoolReads.TrueOf (reads : PoolReads) (may : Prop) (token0 token1 : Address) (c : Contract.Pool) : Prop where
  multicall : Tells may reads.multicall ()
  token0 : Tells may reads.token0 token0
  token1 : Tells may reads.token1 token1
  tickSpacing : Tells may reads.tickSpacing c.tickSpacing
  liquidity : Tells may reads.liquidity c.liquidity
  factory : Yields may reads.factory fun _ => True
  answers : reads.Answers may c
  ticks : ∀ t ∈ c.ends, Tells may (reads.ticks.ticks t) (gross c.positions t, net c.positions t)

/-! ## The ticks -/

section Ticks
variable {may : Prop} {c : Contract.Pool} {p : UniswapV3Pool}

/-- The contract's words give its ticks back. -/
theorem wordTicks_tells (hc : c.Sound) (hspacing : p.tickSpacing = c.tickSpacing) {read : Int → Except Fault Nat}
    (hread : Shows may c read) : ∃ indices, Tells may (p.wordTicks read) indices ∧ ∀ t, t ∈ indices ↔ t ∈ c.ends := by
  have hpos : 0 < p.tickSpacing := hspacing ▸ hc.spacing
  let stored : Int → Except Fault Nat := fun n => .ok (tickWord c.ends p.tickSpacing n)
  have hstored : ∀ n ∈ p.words, stored (Fixed.wrapSigned 16 n) = .ok (tickWord c.ends p.tickSpacing n) := by
    intro n hn
    obtain ⟨hlo, hhi⟩ := words_fit hpos hn
    rw [Fixed.wrapSigned_of_mem (by decide) hlo hhi]
  have hanswers : Tells may (p.words.mapM fun word => read (Fixed.wrapSigned 16 word))
      (p.words.map (tickWord c.ends p.tickSpacing)) := by
    apply Tells.mapM
    intro n hn
    obtain ⟨hlo, hhi⟩ := words_fit hpos hn
    rw [Fixed.wrapSigned_of_mem (by decide) hlo hhi, hspacing]
    exact hread n hlo hhi
  obtain ⟨indices, hindices, -, hmem⟩ := wordTicks_decodes hpos (fun t ht => hspacing ▸ hc.ends_mem ht)
    (fun n _ _ => (rfl : stored n = _))
  refine ⟨indices, ?_, hmem⟩
  unfold UniswapV3Pool.wordTicks at hindices ⊢
  rw [mapM_ok hstored, ok_bind] at hindices
  exact hanswers.bind (.inl hindices)

/-- With the gross and the net liquidity of each, the map is the contract's. -/
theorem fetchV3Ticks_yields {reads : TickReads} {indices : List Int} (hc : c.Sound)
    (hindices : Tells may (p.tickIndices reads) indices) (hmem : ∀ t, t ∈ indices ↔ t ∈ c.ends)
    (hticks : ∀ t ∈ c.ends, Tells may (reads.ticks t) (gross c.positions t, net c.positions t)) :
    Yields may (p.fetchV3Ticks reads) fun q =>
      ∃ m : TickMap, q = { p with ticks := m } ∧ ∀ t, m[t]? = tickOf t (net c.positions t) (gross c.positions t) := by
  have hanswers : Tells may (indices.mapM fun tick => if Fixed.wrapSigned 24 tick = tick then reads.ticks tick else .error .panic)
      (indices.map fun t => (gross c.positions t, net c.positions t)) := by
    apply Tells.mapM
    intro t ht
    have hend := (hmem t).1 ht
    obtain ⟨-, hlo, hhi⟩ := hc.ends_mem hend
    unfold MIN_TICK at hlo
    unfold MAX_TICK at hhi
    rw [if_pos (Fixed.wrapSigned_of_mem (by decide) (by omega) (by omega))]
    exact hticks t hend
  unfold UniswapV3Pool.fetchV3Ticks
  refine hindices.yields.bind fun got hgot => ?_
  rw [hgot]
  refine hanswers.yields.bind ?_
  rintro _ rfl
  refine .inl ⟨_, ⟨_, rfl, fun t => ?_⟩, rfl⟩
  rw [← List.map_prod_left_eq_zip, List.foldl_map, c.tickOf_eq]
  have hlookup := foldl_insert_lookup (net c.positions) (gross c.positions) indices ∅ t
  rw [Std.ExtTreeMap.getElem?_empty] at hlookup
  simpa only [hmem] using hlookup

end Ticks

/-! ## The fetch -/

namespace PoolReads
variable {reads : PoolReads} {may : Prop} {token0 token1 : Address} {c : Contract.Pool}

/-- The kind that the fetch settles on: its fee is announced, and its bitmap is what the contract has. -/
inductive Settles (reads : PoolReads) (may : Prop) (c : Contract.Pool) : V3PoolType → Prop
  | uniswapV3 (hwords : Shows may c reads.ticks.tickBitmap) : Settles reads may c .UniswapV3
  | ramsesCL (hsilent : ¬reads.currentFee.isOk) (hwords : Shows may c reads.ticks.tickBitmap) : Settles reads may c .RamsesCL
  | algebraTwoSideFee (hwords : Shows may c reads.ticks.tickTable) : Settles reads may c .AlgebraTwoSideFee
  | algebraPoolFeeInState (hwords : Shows may c reads.ticks.tickTable) : Settles reads may c .AlgebraPoolFeeInState

namespace Settles
variable {poolType : V3PoolType} (h : reads.Settles may c poolType)
include h

theorem chargedFee : reads.chargedFee poolType = none := by
  unfold PoolReads.chargedFee
  cases h with
  | ramsesCL hsilent hwords =>
    cases hcurrent : reads.currentFee with
    | ok current => exact absurd (by rw [hcurrent]; rfl) hsilent
    | error e => rfl
  | uniswapV3 | algebraTwoSideFee | algebraPoolFeeInState => rfl

theorem feeSource : classifyFeeSource poolType none false = .events := by cases h <;> rfl

theorem wordBounded : poolType ≠ .AlgebraV3 := by cases h <;> decide

theorem fetchV3Ticks (hc : c.Sound) {p : UniswapV3Pool} (hspacing : p.tickSpacing = c.tickSpacing) (htype : p.poolType = poolType)
    (hticks : ∀ t ∈ c.ends, Tells may (reads.ticks.ticks t) (gross c.positions t, net c.positions t)) :
    Yields may (p.fetchV3Ticks reads.ticks) fun q =>
      ∃ m : TickMap, q = { p with ticks := m } ∧ ∀ t, m[t]? = tickOf t (net c.positions t) (gross c.positions t) := by
  have hindices : ∃ indices, Tells may (p.tickIndices reads.ticks) indices ∧ ∀ t, t ∈ indices ↔ t ∈ c.ends := by
    unfold UniswapV3Pool.tickIndices
    rw [htype]
    cases h with
    | uniswapV3 hwords | ramsesCL _ hwords | algebraTwoSideFee hwords | algebraPoolFeeInState hwords =>
      exact wordTicks_tells hc hspacing hwords
  obtain ⟨indices, htells, hmem⟩ := hindices
  exact fetchV3Ticks_yields hc htells hmem hticks

end Settles

/-- A pool of no other kind is of one of these two, by whether it answers `lastPeriod()`. -/
theorem settles_slot0 (hannounced : ¬(reads.lastPeriod.isOk ∧ reads.currentFee.isOk)) (hwords : Shows may c reads.ticks.tickBitmap) :
    reads.Settles may c (reads.finalType .UniswapV3) := by
  unfold finalType
  by_cases hlast : reads.lastPeriod.isOk
  · rw [if_pos ⟨rfl, hlast⟩]
    exact .ramsesCL (fun hcurrent => hannounced ⟨hlast, hcurrent⟩) hwords
  · rw [if_neg fun h => hlast h.2]
    exact .uniswapV3 hwords

namespace TrueOf
variable (h : reads.TrueOf may token0 token1 c) (poolAddress : Address)
include h

theorem withPrice {fee : Except Fault Nat} (hfee : Tells may fee c.fee) (poolType : V3PoolType) :
    Yields may (reads.withPrice poolAddress fee c.price c.tick poolType none) fun s =>
      ∃ factory, s = ⟨token0, token1, c.fee, c.tickSpacing, c.price, c.tick, c.liquidity, factory, poolType, none⟩ := by
  unfold PoolReads.withPrice
  refine (h.token0.labelled _).yields.bind ?_
  rintro _ rfl
  refine (h.token1.labelled _).yields.bind ?_
  rintro _ rfl
  refine hfee.yields.bind ?_
  rintro _ rfl
  refine (h.tickSpacing.labelled _).yields.bind ?_
  rintro _ rfl
  refine (h.liquidity.labelled _).yields.bind ?_
  rintro _ rfl
  refine (h.factory.labelled _).bind ?_
  rintro factory -
  exact .inl ⟨_, ⟨factory, rfl⟩, rfl⟩

theorem twoSideState (hstate : Tells may reads.twoSideGlobalState ⟨c.price, c.tick, c.fee, c.fee⟩) :
    Yields may (reads.twoSideState poolAddress) fun s => ∃ factory,
      s = ⟨token0, token1, c.fee, c.tickSpacing, c.price, c.tick, c.liquidity, factory, .AlgebraTwoSideFee, none⟩ := by
  unfold PoolReads.twoSideState
  refine (hstate.labelled _).yields.bind ?_
  rintro _ rfl
  have hfee : (if c.fee > c.fee then c.fee else c.fee) = c.fee := if_neg (Nat.lt_irrefl _)
  dsimp only
  rw [hfee]
  exact h.withPrice poolAddress (.ok _) _

theorem slot0State (hslot0 : Tells may reads.slot0 (c.price, c.tick)) (hfee : Tells may reads.fee c.fee) :
    Yields may (reads.slot0State poolAddress) fun s => ∃ factory,
      s = ⟨token0, token1, c.fee, c.tickSpacing, c.price, c.tick, c.liquidity, factory, .UniswapV3, none⟩ := by
  unfold PoolReads.slot0State
  refine (hslot0.labelled _).yields.bind ?_
  rintro _ rfl
  refine (h.factory.labelled _).bind ?_
  rintro _ -
  exact h.withPrice poolAddress (hfee.labelled _) _

/-- Whatever the kind, the contract's state comes out of the arms. -/
theorem poolState : Yields may (reads.poolState poolAddress) fun s => ∃ factory poolType,
    s = ⟨token0, token1, c.fee, c.tickSpacing, c.price, c.tick, c.liquidity, factory, poolType, none⟩ ∧
      reads.Settles may c (reads.finalType poolType) := by
  unfold PoolReads.poolState
  cases h.answers with
  | clpSlot0 hslot0 hfee hannounced hwords =>
    rw [hslot0]
    refine (h.withPrice poolAddress (hfee.labelled _) .UniswapV3).imp ?_
    rintro s ⟨factory, hs⟩
    exact ⟨factory, _, hs, settles_slot0 hannounced hwords⟩
  | slot0 hunknown hslot0 hfee hannounced hwords =>
    obtain ⟨hclp, hin, hincentive, hglobal⟩ := hunknown
    obtain ⟨e0, he0⟩ := fails_of_not_isOk hclp
    obtain ⟨e1, he1⟩ := fails_of_not_isOk hin
    obtain ⟨e2, he2⟩ := fails_of_not_isOk hincentive
    obtain ⟨e3, he3⟩ := fails_of_not_isOk hglobal
    rw [he0, he1, he2, he3]
    refine (h.slot0State poolAddress hslot0 hfee).imp ?_
    rintro s ⟨factory, hs⟩
    exact ⟨factory, _, hs, settles_slot0 hannounced hwords⟩
  | feeInState hunknown hstate hwords =>
    obtain ⟨e0, he0⟩ := fails_of_not_isOk hunknown
    rw [he0, hstate]
    refine (h.withPrice poolAddress (.ok _) .AlgebraPoolFeeInState).imp ?_
    rintro s ⟨factory, hs⟩
    exact ⟨factory, _, hs, .algebraPoolFeeInState hwords⟩
  | twoSideFee hunknown hincentive hstate hwords =>
    obtain ⟨hclp, hin⟩ := hunknown
    obtain ⟨e0, he0⟩ := fails_of_not_isOk hclp
    obtain ⟨e1, he1⟩ := fails_of_not_isOk hin
    cases hactive : reads.activeIncentive with
    | error e =>
      rw [hactive] at hincentive
      cases hincentive
    | ok active =>
      rw [he0, he1]
      refine (h.twoSideState poolAddress hstate).imp ?_
      rintro s ⟨factory, hs⟩
      exact ⟨factory, _, hs, .algebraTwoSideFee hwords⟩

/-- A pool that is fetched has what the contract has. -/
theorem fetchV3Pool (hc : c.Sound) (hne : token0 ≠ token1) {getOrFetchToken : Address → Except Fault (Address × Nat)}
    (htoken : ∀ a, Yields may (getOrFetchToken a) fun token => token.1 = a) (now : Nat) :
    Yields may (reads.fetchV3Pool poolAddress getOrFetchToken now) fun p => (p.token0 = token0 ∧ p.token1 = token1) ∧ Tracks p c := by
  unfold PoolReads.fetchV3Pool
  refine h.multicall.yields.bind ?_
  rintro _ rfl
  refine (h.poolState poolAddress).bind ?_
  rintro _ ⟨factory, poolType, rfl, hkind⟩
  dsimp only
  rw [hkind.chargedFee]
  refine (htoken token0).bind ?_
  rintro ⟨_, decimals0⟩ rfl
  refine (htoken token1).bind ?_
  rintro ⟨_, decimals1⟩ rfl
  dsimp only at hne ⊢
  refine (hkind.fetchV3Ticks hc rfl rfl h.ticks).imp ?_
  rintro _ ⟨m, rfl, hm⟩
  refine ⟨⟨rfl, rfl⟩, image_iff.2 ⟨hm, hc.liquidity_eq⟩, rfl, rfl, rfl, rfl, hne, hkind.wordBounded, ?_, rfl⟩
  change classifyFeeSource _ none false ≠ _ ∧ classifyFeeSource _ none false ≠ _
  rw [hkind.feeSource]
  exact ⟨by decide, by decide⟩

end TrueOf
end PoolReads

/-- **A pool that is fetched quotes what its contract would swap, and goes on to**: whichever of these kinds it is, the fetch comes
back with the contract's state, every log of what the contract does after that applies, and at each point the quotes are what the
contract's loop comes to. Where reads fail the fetch may fail, and never comes back with anything else. -/
theorem fetchV3Pool_follows {reads : PoolReads} {may : Prop} {token0 token1 : Address} {c : Contract.Pool}
    (h : reads.TrueOf may token0 token1 c) (hc : c.Sound) (hne : token0 ≠ token1)
    {getOrFetchToken : Address → Except Fault (Address × Nat)} (htoken : ∀ a, Yields may (getOrFetchToken a) fun token => token.1 = a)
    (now : Nat) (poolAddress : Address) :
    Yields may (reads.fetchV3Pool poolAddress getOrFetchToken now) fun p => (p.token0 = token0 ∧ p.token1 = token1) ∧
      ∀ ls d, Contract.Pool.History c ls d → Replay.Clean (fun l p => UniswapV3Pool.applyLog p l.1 l.2) ls p ∧
        ∀ (zeroForOne : Bool) (fuel amount x : Nat), 2 ^ 25 ≤ fuel → amount < 2 ^ 255 →
          ((replayLogs p ls).calculateExactInput fuel
            (if zeroForOne then (replayLogs p ls).token0 else (replayLogs p ls).token1) amount = .ok x ↔
            d.Fills zeroForOne true amount x) ∧
          ((replayLogs p ls).calculateExactOutput fuel
            (if zeroForOne then (replayLogs p ls).token1 else (replayLogs p ls).token0) amount = .ok x ↔
            d.Fills zeroForOne false amount x) := by
  refine (h.fetchV3Pool poolAddress hc hne htoken now).imp ?_
  rintro p ⟨htokens, htracks⟩
  refine ⟨htokens, fun ls d hist => ?_⟩
  obtain ⟨hclean, hend⟩ := htracks.history hc hist
  exact ⟨hclean, fun zeroForOne _ _ _ hfuel ha => hend.quotes (hc.history hist) zeroForOne hfuel ha⟩

/-- The answers of `rangeContract`, of a factory that gives its pools no protocol fee. -/
def rangeReads : PoolReads where
  multicall := .ok ()
  token0 := .ok 2
  token1 := .ok 3
  fee := .ok 3000
  tickSpacing := .ok 60
  slot0 := .error (.error "execution reverted")
  liquidity := .ok (10 ^ 18)
  factory := .ok 5
  clpSlot0 := .ok (2 ^ 96, 0)
  algebraFee := .ok 3000
  globalState := .error (.error "execution reverted")
  twoSideGlobalState := .error (.error "execution reverted")
  activeIncentive := .error (.error "execution reverted")
  feeInStateGlobalState := .error (.error "execution reverted")
  lastPeriod := .error (.error "execution reverted")
  currentFee := .error (.error "execution reverted")
  ticks := { storedReads {-600, 600} 60 with ticks := fun t => .ok (10 ^ 18, if t = -600 then 10 ^ 18 else -10 ^ 18) }

theorem rangeReads_true : rangeReads.TrueOf False 2 3 rangeContract := by
  have hends : rangeContract.ends = {-600, 600} := by
    ext t
    rw [Contract.Pool.mem_ends]
    simp [rangeContract, Finsupp.support_single]
  refine ⟨.ok (), .ok 2, .ok 3, .ok _, .ok _, .inl ⟨5, trivial, rfl⟩, ?_, fun t ht => ?_⟩
  · refine .clpSlot0 rfl (.ok _) (by decide) fun n _ _ => ?_
    rw [hends]
    exact .ok _
  · unfold rangeContract rangeReads
    rw [gross_single, net_single]
    rw [hends, Finset.mem_insert, Finset.mem_singleton] at ht
    rcases ht with rfl | rfl
    · exact .inl (by decide)
    · exact .inl (by decide)

/-- It is fetched, and quotes a thousand of token 0. -/
theorem fetchV3Pool_follows_range : ∃ p, rangeReads.fetchV3Pool 9 (fun a => .ok (a, 18)) 0 = .ok p ∧
    p.calculateExactInput (2 ^ 25) p.token0 1000 = .ok 996 := by
  have hfills : rangeContract.Fills true true 1000 996 :=
    ((rangePool_tracks.quotes rangeContract_sound true le_rfl (by decide)).1).1 (by decide +kernel)
  rcases fetchV3Pool_follows rangeReads_true rangeContract_sound (by decide) (fun a => .inl ⟨(a, 18), rfl, rfl⟩) 0 9 with
    ⟨p, ⟨-, hquotes⟩, hp⟩ | ⟨hno, -⟩
  · exact ⟨p, hp, ((hquotes [] _ (.nil _)).2 true (2 ^ 25) 1000 996 le_rfl (by decide)).1.2 hfills⟩
  · exact hno.elim

end EvmDexPool.V3
