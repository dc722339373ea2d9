import EvmDexPool.Lib.Replay
import EvmDexPool.V3.ContractRuns
import EvmDexPool.V3.Positions

/-!
# A pool replayed from the contract's logs

The contract of a word-bounded pool mints and burns positions, swaps and changes its fee, and logs each of them. A pool
that starts as the contract is and applies the logs is all along what the contract is (`Tracks.does`): the ticks are
those that the positions end at, and every log applies. So its quotes are at every point what the contract's own loop
would come to (`replay_follows`).
-/

namespace EvmDexPool.V3

open Intervals

namespace Contract

/-- The most liquidity that may end at one tick: what the liquidity's word has, shared out among the usable ticks. -/
def maxLiquidityPerTick (tickSpacing : Int) : Nat := (2 ^ 128 - 1) / (2 * (MAX_TICK / tickSpacing).toNat + 1)

/-- The contract of a pool: what its positions hold, where its price is and what swaps pay. -/
structure Pool where
  positions : Book Int
  price : Nat
  tick : Int
  liquidity : Nat
  fee : Nat
  tickSpacing : Int

namespace Pool

def start (c : Pool) (amount : Nat) : State := ⟨amount, 0, c.price, c.tick, c.liquidity⟩

/-- A swap of the contract goes by the ticks its positions end at, and by its fee. -/
structure Swaps (c : Pool) (call : Call) : Prop where
  fee : call.fee = c.fee
  tickSpacing : call.tickSpacing = c.tickSpacing
  ticks : ∀ t, call.ticks[t]? = tickOf t (net c.positions t) (gross c.positions t)

/-- The contract takes limits ahead of its price, and within the prices that have a tick. -/
def Admits (c : Pool) (call : Call) : Prop :=
  if call.zeroForOne then MIN_SQRT_RATIO < call.limit ∧ call.limit < c.price
  else c.price < call.limit ∧ call.limit < MAX_SQRT_RATIO

/-- The contract swaps that amount for that much of the other token, and never without liquidity. -/
def Fills (c : Pool) (zeroForOne exactInput : Bool) (amount other : Nat) : Prop :=
  ∃ call, c.Swaps call ∧ call.zeroForOne = zeroForOne ∧ call.exactInput = exactInput ∧
    (call.limit = if zeroForOne then MIN_SQRT_RATIO + 1 else MAX_SQRT_RATIO - 1) ∧ call.Fills false (c.start amount) other

/-- What the contract may do, and the event it logs. -/
inductive Does (c : Pool) : V3Event → Pool → Prop
  | mints {r : Intervals.Interval Int} {amount : Nat} {e : V3Event} (hrange : MIN_TICK ≤ r.lower ∧ r.upper ≤ MAX_TICK)
      (hspacing : c.tickSpacing ∣ r.lower ∧ c.tickSpacing ∣ r.upper)
      (hroom : ∀ t, gross (c.positions + Finsupp.single r amount) t ≤ maxLiquidityPerTick c.tickSpacing)
      (he : e = .mint r.lower r.upper amount ∨ e = .ramsesMint r.lower r.upper amount) :
      Does c e { c with
        positions := c.positions + Finsupp.single r amount
        liquidity := if r.lower ≤ c.tick ∧ c.tick < r.upper then c.liquidity + amount else c.liquidity }
  | burns {r : Intervals.Interval Int} {amount : Nat} {e : V3Event} (hheld : 0 < c.positions r ∧ amount ≤ c.positions r)
      (he : e = .burn r.lower r.upper amount ∨ e = .algebraBurn r.lower r.upper amount) :
      Does c e { c with
        positions := c.positions - Finsupp.single r amount
        liquidity := if r.lower ≤ c.tick ∧ c.tick < r.upper then c.liquidity - amount else c.liquidity }
  | swaps {call : Call} {amount : Nat} {s : State} {e : V3Event} (hcall : c.Swaps call) (hlimit : c.Admits call)
      (hamount : amount < 2 ^ 255) (hrun : call.Run true (c.start amount) s) (hover : ¬call.goesOn s)
      (he : e = .swap s.price s.tick s.liquidity ∨ e = .pancakeSwap s.price s.tick s.liquidity ∨
        e = .algebraSwap s.price s.tick s.liquidity) :
      Does c e { c with price := s.price, tick := s.tick, liquidity := s.liquidity }
  | setsFee {fee : Nat} {e : V3Event} (hfee : fee < MAX_FEE) (he : (∃ old, e = .feeAdjustment old fee) ∨ e = .fee fee) :
      Does c e { c with fee := fee }

/-- What the contract does over time, with the logs and the times at which they are read. -/
inductive History : Pool → List (Nat × Log) → Pool → Prop
  | nil (c : Pool) : History c [] c
  | cons {c d f : Pool} {now : Nat} {l : Log} {ls : List (Nat × Log)} {e : V3Event} (hdoes : c.Does e d)
      (hlog : l.payload = .event (.v3 e)) (hrest : History d ls f) : History c ((now, l) :: ls) f

/-- What the contract keeps. -/
structure Sound (c : Pool) : Prop where
  spacing : 0 < c.tickSpacing
  ranges : ∀ r ∈ c.positions.support, (MIN_TICK ≤ r.lower ∧ r.upper ≤ MAX_TICK) ∧ c.tickSpacing ∣ r.lower ∧ c.tickSpacing ∣ r.upper
  room : ∀ t, gross c.positions t ≤ maxLiquidityPerTick c.tickSpacing
  mem : MIN_TICK ≤ c.tick ∧ c.tick ≤ MAX_TICK
  low : sqrtRatio c.tick ≤ c.price
  high : c.tick < MAX_TICK → c.price ≤ sqrtRatio (c.tick + 1)
  price_lt : c.price < 2 ^ 160
  liquidity_eq : c.liquidity = active c.positions c.tick
  fee_lt : c.fee < MAX_FEE

end Pool

/-! ## The ticks of a book of positions -/

section Book
variable {b : Book Int} {tickSpacing : Int}
  (hranges : ∀ r ∈ b.support, (MIN_TICK ≤ r.lower ∧ r.upper ≤ MAX_TICK) ∧ tickSpacing ∣ r.lower ∧ tickSpacing ∣ r.upper)
include hranges

/-- The usable ticks share the liquidity's word out, so that no half of it is ever reached. -/
theorem weight_lt (hs : 0 < tickSpacing) (hroom : ∀ t, gross b t ≤ maxLiquidityPerTick tickSpacing) : weight b < 2 ^ 127 := by
  have hmax : MIN_TICK = -MAX_TICK := by decide
  let n := (MAX_TICK / tickSpacing).toNat
  have hn : (n : Int) = MAX_TICK / tickSpacing := Int.toNat_of_nonneg (Int.ediv_nonneg (by decide) hs.le)
  let T : Finset Int := (Finset.Icc (-(n : Int)) n).image (· * tickSpacing)
  have hmem : ∀ t, tickSpacing ∣ t → MIN_TICK ≤ t → t ≤ MAX_TICK → t ∈ T := fun t ht hlo hhi => by
    obtain ⟨k, rfl⟩ := ht
    refine Finset.mem_image.2 ⟨k, Finset.mem_Icc.2 ⟨?_, ?_⟩, Int.mul_comm _ _⟩
    · have hneg : -k ≤ MAX_TICK / tickSpacing := (Int.le_ediv_iff_mul_le hs).2 (by rw [Int.neg_mul, Int.mul_comm]; omega)
      omega
    · have hle : k ≤ MAX_TICK / tickSpacing := (Int.le_ediv_iff_mul_le hs).2 (by rw [Int.mul_comm]; omega)
      omega
  have hcard : T.card ≤ 2 * n + 1 := by
    refine Finset.card_image_le.trans ?_
    rw [Int.card_Icc]
    omega
  have hsum : ∑ t ∈ T, gross b t = 2 * weight b := sum_gross fun r hr => by
    obtain ⟨⟨hlo, hhi⟩, hl, hu⟩ := hranges r hr
    have hlt := r.lt
    exact ⟨hmem _ hl hlo (by omega), hmem _ hu (by omega) hhi⟩
  have hle : ∑ t ∈ T, gross b t ≤ T.card * maxLiquidityPerTick tickSpacing := by
    rw [← smul_eq_mul]
    exact Finset.sum_le_card_nsmul T _ _ fun t _ => hroom t
  have hword : (2 * n + 1) * maxLiquidityPerTick tickSpacing ≤ 2 ^ 128 - 1 := Nat.mul_div_le _ _
  have hall := hle.trans (Nat.mul_le_mul_right _ hcard)
  omega

variable {m : TickMap} (hm : ∀ t, m[t]? = tickOf t (net b t) (gross b t))
include hm

theorem ticks_keys (k : Int) (v : Tick) (hk : m[k]? = some v) : (MIN_TICK ≤ k ∧ k ≤ MAX_TICK) ∧ tickSpacing ∣ k := by
  rw [hm, tickOf] at hk
  split at hk
  · cases hk
  have hgross := mt gross_eq_zero.2 ‹_›
  push Not at hgross
  obtain ⟨r, hr, hend⟩ := hgross
  obtain ⟨⟨hlo, hhi⟩, hl, hu⟩ := hranges r hr
  have hlt := r.lt
  rcases hend with rfl | rfl
  · exact ⟨⟨hlo, by omega⟩, hl⟩
  · exact ⟨⟨by omega, hhi⟩, hu⟩

/-- **The nets up to a tick are the liquidity around it.** -/
theorem netsUpTo_eq {t : Int} (ht : MIN_TICK - 1 ≤ t) : netsUpTo m t = active b t := by
  obtain ⟨n, rfl⟩ : ∃ n : Nat, t = MIN_TICK - 1 + n := ⟨(t - (MIN_TICK - 1)).toNat, by omega⟩
  clear ht
  induction n with
  | zero =>
    have hnone : netsUpTo m (MIN_TICK - 1 + 0) = 0 := Ranges.sumRange_empty fun k v hk => by
      have := ticks_keys hranges hm k v hk
      exact decide_eq_false (by omega)
    have hzero : active b (MIN_TICK - 1 + 0) = 0 := active_eq_zero fun r hr => by
      have := hranges r hr
      omega
    rw [Nat.cast_zero, hnone, hzero, Nat.cast_zero]
  | succ n ih =>
    have hprev : MIN_TICK - 1 + ((n + 1 : Nat) : Int) - 1 = MIN_TICK - 1 + n := by omega
    rw [active_step, hprev, ← ih, ← hprev]
    generalize MIN_TICK - 1 + ((n + 1 : Nat) : Int) = k at *
    cases hk : m[k]? with
    | some v =>
      rw [netsUpTo_tick hk, Int.add_comm]
      rw [hm, tickOf] at hk
      split at hk
      · cases hk
      · rw [← Option.some.inj hk]
    | none =>
      have hnet : net b k = 0 := by
        rw [hm, tickOf] at hk
        split at hk
        · exact net_eq_zero ‹_›
        · cases hk
      rw [hnet, Int.add_zero]
      refine netsUpTo_congr fun k' v hk' => ?_
      have hne : k' ≠ k := fun he => by
        rw [he, hk] at hk'
        cases hk'
      omega

theorem ticksOk : TicksOk m tickSpacing := by
  refine ⟨ticks_keys hranges hm, ?_⟩
  have hall : netsUpTo m MAX_TICK = netsAll m :=
    netsUpTo_all fun k v hk => (ticks_keys hranges hm k v hk).1.2
  have hnone : active b MAX_TICK = 0 := active_eq_zero fun r hr => .inr (hranges r hr).1.2
  rw [← hall, netsUpTo_eq hranges hm (by decide), hnone, Nat.cast_zero]

end Book

namespace Pool
variable {c d : Pool}

/-! ## What the contract keeps -/

theorem Sound.bounded (h : c.Sound) (t : Int) : Bounded c.positions t := by
  have hlt := weight_lt h.ranges h.spacing h.room
  exact ⟨fun t => (gross_le_weight _ t).trans_lt hlt, (active_le_weight _ t).trans_lt hlt⟩

theorem Sound.grounded (h : c.Sound) {call : Call} (hcall : c.Swaps call) (hlimit : c.Admits call) : call.code.Grounded := by
  have hticks := ticksOk h.ranges hcall.ticks
  have hprice := h.price_lt
  refine ⟨⟨hcall.fee.trans_lt h.fee_lt, ?_⟩, ?_, fun k v hk => (hticks.keys k v hk).1, hticks.cancel⟩
  · unfold Admits at hlimit
    change if call.zeroForOne then _ else _
    split at hlimit
    · rw [if_pos ‹_›]
      exact ⟨hlimit.1, by unfold Call.code; dsimp only; omega⟩
    · rw [if_neg ‹_›]
      exact ⟨by unfold Call.code; dsimp only; omega, hlimit.2⟩
  · refine hticks.aligned (.inl ?_)
    rw [← hcall.tickSpacing]
    rfl

theorem Sound.abides (h : c.Sound) {call : Call} (hcall : c.Swaps call) (hlimit : c.Admits call) {amount : Nat}
    (ha : amount < 2 ^ 255) : call.Abides (c.start amount) := by
  have hactive := (h.bounded c.tick).2
  have hliq := h.liquidity_eq
  have hmem := h.mem
  refine ⟨h.price_lt, ?_, ha, ?_, hmem, h.low, h.high, ?_⟩
  · change c.liquidity < 2 ^ 128
    omega
  · unfold Admits at hlimit
    unfold OnSide
    split at hlimit
    · rw [if_pos ‹_›]
      exact hlimit.2.le
    · rw [if_neg ‹_›]
      exact hlimit.1.le
  · have hnets := netsUpTo_eq h.ranges hcall.ticks (t := c.tick) (by omega)
    change (c.liquidity : Int) = netsUpTo call.ticks c.tick
    rw [hnets, hliq]

/-- **The contract stays sound**, whatever it does. -/
theorem Sound.does {e : V3Event} (h : c.Sound) (hdoes : c.Does e d) : d.Sound := by
  cases hdoes with
  | @mints r amount _ hrange hspacing hroom he =>
    refine ⟨h.spacing, fun r' hr' => ?_, hroom, h.mem, h.low, h.high, h.price_lt, ?_, h.fee_lt⟩
    · rcases Finset.mem_union.1 (Finsupp.support_add hr') with hold | hnew
      · exact h.ranges r' hold
      · rw [Finset.mem_singleton.1 (Finsupp.support_single_subset hnew)]
        exact ⟨hrange, hspacing⟩
    · dsimp only
      rw [active_add, active_single, h.liquidity_eq]
      split <;> omega
  | @burns r amount _ hheld he =>
    refine ⟨h.spacing, fun r' hr' => h.ranges r' ?_, fun t => ?_, h.mem, h.low, h.high, h.price_lt, ?_, h.fee_lt⟩
    · rw [Finsupp.mem_support_iff] at hr' ⊢
      dsimp only at hr'
      rw [Finsupp.coe_tsub, Pi.sub_apply] at hr'
      omega
    · have hsub := gross_sub hheld.2 t
      have hroom := h.room t
      dsimp only
      omega
    · have hsub := active_sub hheld.2 c.tick
      dsimp only
      rw [h.liquidity_eq]
      split at hsub
      · rw [if_pos ‹_›]
        omega
      · rw [if_neg ‹_›]
        omega
  | @swaps call amount s _ hcall hlimit hamount hrun hover he =>
    have hspacing : 0 < call.tickSpacing := hcall.tickSpacing ▸ h.spacing
    obtain ⟨hprice, -, -, -, hmem, hlow, hhigh, hliq⟩ :=
      hrun.abides (h.grounded hcall hlimit) hspacing (h.abides hcall hlimit hamount)
    have hnets := netsUpTo_eq h.ranges hcall.ticks (t := s.tick) (by have := hmem.1; change MIN_TICK ≤ s.tick at this; omega)
    refine ⟨h.spacing, h.ranges, h.room, hmem, hlow, hhigh, hprice, ?_, h.fee_lt⟩
    have hliq : (s.liquidity : Int) = netsUpTo call.ticks s.tick := hliq
    dsimp only
    omega
  | setsFee hfee he => exact ⟨h.spacing, h.ranges, h.room, h.mem, h.low, h.high, h.price_lt, h.liquidity_eq, hfee⟩

theorem Sound.history {ls : List (Nat × Log)} (h : c.Sound) (hist : History c ls d) : d.Sound := by
  induction hist with
  | nil => exact h
  | cons hdoes _ _ ih => exact ih (h.does hdoes)

end Pool

end Contract

/-! ## The pool and the contract -/

/-- The pool is what the contract is, and follows its logs. -/
structure Tracks (p : UniswapV3Pool) (c : Contract.Pool) : Prop where
  image : Image p c.positions
  price : p.sqrtPriceX96 = c.price
  tick : p.tick = c.tick
  fee : p.fee = c.fee
  tickSpacing : p.tickSpacing = c.tickSpacing
  tokens : p.token0 ≠ p.token1
  wordBounded : p.poolType ≠ .AlgebraV3
  logsFee : p.feeSource ≠ .readFee ∧ p.feeSource ≠ .readCurrentFee
  predictable : p.feeUnpredictable = false

/-- A burn between two ticks that are there succeeds. -/
theorem burn_ok {p : UniswapV3Pool} {lower upper : Int} (amount : Nat) (hlt : lower < upper) (hl : lower ∈ p.ticks)
    (hu : upper ∈ p.ticks) : (p.applyBurnEvent lower upper amount).2 = .ok () := by
  have hburn : ∀ {q : UniswapV3Pool} {i delta : Int}, i ∈ q.ticks → ∃ q', q.burnTick i delta amount = some q' ∧
      ∀ t, t ≠ i → q'.ticks[t]? = q.ticks[t]? := fun {q i delta} hi => by
    obtain ⟨v, hv⟩ := Option.isSome_iff_exists.1 (Std.ExtTreeMap.mem_iff_isSome_getElem?.1 hi)
    unfold UniswapV3Pool.burnTick
    rw [hv]
    refine ⟨_, rfl, fun t ht => ?_⟩
    unfold UniswapV3Pool.updateTick
    dsimp only
    split
    · rw [if_pos rfl, Ranges.lookup_erase, if_neg ht, Ranges.lookup_insert, if_neg ht]
    · rw [Ranges.lookup_insert, if_neg ht]
  unfold UniswapV3Pool.applyBurnEvent
  rw [if_neg (by omega), if_neg (not_not.2 hl), if_neg (not_not.2 hu)]
  dsimp only
  obtain ⟨q, hq, hsame⟩ := @hburn p lower (-Fixed.toSigned 128 amount) hl
  have hu' : upper ∈ q.ticks := by
    rw [Std.ExtTreeMap.mem_iff_isSome_getElem?, hsame upper hlt.ne', ← Std.ExtTreeMap.mem_iff_isSome_getElem?]
    exact hu
  obtain ⟨q', hq', -⟩ := @hburn q upper (Fixed.toSigned 128 amount) hu'
  rw [hq]
  dsimp only
  rw [hq']

namespace Tracks

open Contract

variable {p : UniswapV3Pool} {c d : Contract.Pool}

/-- A log that touches only the ticks and the liquidity. -/
theorem of_frame (h : Tracks p c) {q : UniswapV3Pool} {b : Book Int} {liquidity : Nat} (hframe : frame q = frame p)
    (himage : Image q b) : Tracks q { c with positions := b, liquidity := liquidity } :=
  have token0 := congrArg UniswapV3Pool.token0 hframe
  have token1 := congrArg UniswapV3Pool.token1 hframe
  ⟨himage, (congrArg UniswapV3Pool.sqrtPriceX96 hframe).trans h.price, (congrArg UniswapV3Pool.tick hframe).trans h.tick,
    (congrArg UniswapV3Pool.fee hframe).trans h.fee, (congrArg UniswapV3Pool.tickSpacing hframe).trans h.tickSpacing,
    fun ht => h.tokens (token0.symm.trans (ht.trans token1)),
    fun ha => h.wordBounded ((congrArg UniswapV3Pool.poolType hframe).symm.trans ha),
    ⟨fun ha => h.logsFee.1 ((congrArg UniswapV3Pool.feeSource hframe).symm.trans ha),
      fun ha => h.logsFee.2 ((congrArg UniswapV3Pool.feeSource hframe).symm.trans ha)⟩,
    (congrArg UniswapV3Pool.feeUnpredictable hframe).trans h.predictable⟩

theorem mints (h : Tracks p c) (hd : d.Sound) {r : Intervals.Interval Int} {amount liquidity : Nat} {lower upper : Int}
    (hd' : d = { c with positions := c.positions + Finsupp.single r amount, liquidity := liquidity })
    (hlower : lower = r.lower) (hupper : upper = r.upper) :
    (p.applyMintEvent lower upper amount).2 = .ok () ∧ Tracks (p.applyMintEvent lower upper amount).1 d := by
  subst hlower hupper
  have hbounded : Bounded (c.positions + Finsupp.single r amount) p.tick := by
    have := hd.bounded p.tick
    rwa [hd'] at this
  obtain ⟨q, hq, himage⟩ := image_mint h.image hbounded
  have hframe := mint_frame (p := p) r.lower r.upper amount
  rw [hq] at hframe ⊢
  rw [hd']
  exact ⟨rfl, h.of_frame hframe himage⟩

theorem burns (h : Tracks p c) (hc : c.Sound) {r : Intervals.Interval Int} {amount liquidity : Nat} {lower upper : Int}
    (hheld : 0 < c.positions r ∧ amount ≤ c.positions r)
    (hd' : d = { c with positions := c.positions - Finsupp.single r amount, liquidity := liquidity })
    (hlower : lower = r.lower) (hupper : upper = r.upper) :
    (p.applyBurnEvent lower upper amount).2 = .ok () ∧ Tracks (p.applyBurnEvent lower upper amount).1 d := by
  subst hlower hupper
  have hmem : r ∈ c.positions.support := Finsupp.mem_support_iff.2 hheld.1.ne'
  rw [hd']
  exact ⟨burn_ok amount r.lt ((h.image.initialized _).2 ⟨r, hmem, .inl rfl⟩) ((h.image.initialized _).2 ⟨r, hmem, .inr rfl⟩),
    h.of_frame (burn_frame ..) (image_burn h.image (hc.bounded p.tick) hheld.2)⟩

theorem swaps (h : Tracks p c) (hd : d.Sound) {now price liquidity : Nat} {tick : Int}
    (hd' : d = { c with price := price, tick := tick, liquidity := liquidity }) :
    (p.updateState now price tick liquidity).2 = .ok () ∧ Tracks (p.updateState now price tick liquidity).1 d := by
  have hmem : MIN_TICK ≤ tick ∧ tick ≤ MAX_TICK := by
    have := hd.mem
    rwa [hd'] at this
  have hpos : price ≠ 0 := by
    have hlow := hd.low
    have hmin : 0 < MIN_SQRT_RATIO := by decide
    have hratio := (sqrtRatio_mem hd.mem).1
    rw [hd'] at hlow hratio
    dsimp only at hlow hratio
    omega
  have hfits : liquidity = active c.positions tick := by
    have := hd.liquidity_eq
    rwa [hd'] at this
  have himage : Image (p.updateState now price tick liquidity).1 c.positions := image_swap h.image hfits
  have hticks : ¬(tick < -887272 ∨ tick > 887272) := by
    have hmin : MIN_TICK = -887272 := rfl
    have hmax : MAX_TICK = 887272 := rfl
    omega
  unfold UniswapV3Pool.updateState at himage ⊢
  rw [if_neg hpos, if_neg hticks] at himage ⊢
  rw [hd']
  exact ⟨rfl, himage, rfl, rfl, h.fee, h.tickSpacing, h.tokens, h.wordBounded, h.logsFee, h.predictable⟩

theorem setsFee (h : Tracks p c) (fee : Nat) : Tracks { p with fee := fee } { c with fee := fee } :=
  ⟨⟨h.image.initialized, h.image.tick, h.image.liquidity⟩, h.price, h.tick, rfl, h.tickSpacing, h.tokens, h.wordBounded, h.logsFee,
    h.predictable⟩

/-- **A log of the contract takes the pool to what the contract is then.** -/
theorem does (h : Tracks p c) (hc : c.Sound) {e : V3Event} (hdoes : c.Does e d) (now : Nat) :
    (p.applyEvent now e).2 = .ok () ∧ Tracks (p.applyEvent now e).1 d := by
  have hd := hc.does hdoes
  cases hdoes with
  | mints hrange hspacing hroom he =>
    rcases he with rfl | rfl
    · exact h.mints hd rfl rfl rfl
    · exact h.mints hd rfl rfl rfl
  | burns hheld he =>
    rcases he with rfl | rfl
    · exact h.burns hc hheld rfl rfl rfl
    · exact h.burns hc hheld rfl rfl rfl
  | swaps hcall hlimit hamount hrun hover he =>
    rcases he with rfl | rfl | rfl
    · exact h.swaps hd rfl
    · exact h.swaps hd rfl
    · exact h.swaps hd rfl
  | setsFee hfee he =>
    obtain ⟨hread, hcurrent⟩ := h.logsFee
    rcases he with ⟨old, rfl⟩ | rfl
    · refine ⟨rfl, ?_⟩
      change Tracks (if p.feeSource = .readCurrentFee then p else { p with fee := _ }) _
      rw [if_neg hcurrent]
      exact h.setsFee _
    · refine ⟨rfl, ?_⟩
      change Tracks (if p.feeSource ≠ .readFee then { p with fee := _ } else p) _
      rw [if_pos hread]
      exact h.setsFee _

/-- The pool's state is one that the contract's swaps leave. -/
theorem settled (h : Tracks p c) (hc : c.Sound) : p.Settled := by
  obtain ⟨hticks, hliq⟩ := image_iff.1 h.image
  have hactive := (hc.bounded p.tick).2
  have hmem := hc.mem
  have hnets := Contract.netsUpTo_eq hc.ranges hticks (t := p.tick) (by have := h.tick; omega)
  refine ⟨h.price ▸ hc.price_lt, by omega, h.tick ▸ hmem, ?_, ?_, ?_, ?_⟩
  · rw [h.price, h.tick]
    exact hc.low
  · rw [h.price, h.tick]
    exact hc.high
  · rw [h.tickSpacing]
    exact Contract.ticksOk hc.ranges hticks
  · rw [hnets, hliq]

/-- The swap behind a quote is the contract's. -/
theorem fills (h : Tracks p c) (hc : c.Sound) {zeroForOne exactInput : Bool} {amount x : Nat} :
    (p.contractCall zeroForOne exactInput).Fills false (p.contractStart amount) x ↔ c.Fills zeroForOne exactInput amount x := by
  have hticks := (image_iff.1 h.image).1
  have hstart : p.contractStart amount = c.start amount := by
    unfold UniswapV3Pool.contractStart Contract.Pool.start
    rw [h.price, h.tick, h.image.liquidity, hc.liquidity_eq, h.tick]
  rw [hstart]
  constructor
  · exact fun hfills => ⟨_, ⟨h.fee, h.tickSpacing, hticks⟩, rfl, rfl, rfl, hfills⟩
  · rintro ⟨call, ⟨hfee, hspacing, hmap⟩, hz, hmode, hlimit, hfills⟩
    have hsame : call.ticks = p.ticks := Std.ExtTreeMap.ext_getElem? fun t => by rw [hmap, hticks]
    obtain ⟨fee, ticks, tickSpacing, z, limit, mode⟩ := call
    dsimp only at hfee hspacing hz hmode hlimit hsame
    subst hz hmode hlimit hsame
    rw [← h.fee] at hfee
    rw [← h.tickSpacing] at hspacing
    subst hfee hspacing
    exact hfills

end Tracks

/-- The logs of a history, applied one after the other. -/
def replayLogs (p : UniswapV3Pool) (ls : List (Nat × Log)) : UniswapV3Pool := ls.foldl (fun p l => (p.applyLog l.1 l.2).1) p

theorem Tracks.history {p : UniswapV3Pool} {c d : Contract.Pool} {ls : List (Nat × Log)} (h : Tracks p c) (hc : c.Sound)
    (hist : Contract.Pool.History c ls d) :
    Replay.Clean (fun l p => UniswapV3Pool.applyLog p l.1 l.2) ls p ∧ Tracks (replayLogs p ls) d := by
  induction hist generalizing p with
  | nil => exact ⟨trivial, h⟩
  | @cons c d f now l ls e hdoes hlog hrest ih =>
    have happly : p.applyLog now l = p.applyEvent now e := by
      unfold UniswapV3Pool.applyLog
      rw [hlog]
    obtain ⟨hok, htracks⟩ := h.does hc hdoes now
    rw [← happly] at hok htracks
    obtain ⟨hclean, hend⟩ := ih htracks (hc.does hdoes)
    exact ⟨⟨hok, hclean⟩, hend⟩

/-- A pool that has what the contract has quotes what the contract would swap. -/
theorem Tracks.quotes {p : UniswapV3Pool} {c : Contract.Pool} (h : Tracks p c) (hc : c.Sound) (zeroForOne : Bool)
    {fuel amount x : Nat} (hfuel : 2 ^ 25 ≤ fuel) (ha : amount < 2 ^ 255) :
    (p.calculateExactInput fuel (if zeroForOne then p.token0 else p.token1) amount = .ok x ↔ c.Fills zeroForOne true amount x) ∧
      (p.calculateExactOutput fuel (if zeroForOne then p.token1 else p.token0) amount = .ok x ↔
        c.Fills zeroForOne false amount x) := by
  have hfee : p.fee < MAX_FEE := h.fee.trans_lt hc.fee_lt
  have hspacing : 0 < p.tickSpacing := h.tickSpacing.symm ▸ hc.spacing
  have hiff : ∀ exactInput, p.calculateSwap fuel zeroForOne amount exactInput = .ok x ↔ c.Fills zeroForOne exactInput amount x :=
    fun exactInput => (UniswapV3Pool.calculateSwap_iff (h.settled hc) hspacing h.wordBounded hfee ha hfuel).trans (h.fills hc)
  have hne := h.tokens.symm
  unfold UniswapV3Pool.calculateExactInput UniswapV3Pool.calculateExactOutput
  rw [h.predictable, if_neg Bool.false_ne_true, if_neg Bool.false_ne_true]
  cases zeroForOne with
  | true =>
    rw [if_pos rfl, if_pos rfl, if_pos rfl, if_neg hne, if_pos rfl]
    exact ⟨hiff true, hiff false⟩
  | false =>
    rw [if_neg Bool.false_ne_true, if_neg Bool.false_ne_true, if_neg hne, if_pos rfl, if_pos rfl]
    exact ⟨hiff true, hiff false⟩

/-- **A replayed pool quotes what the contract would swap.** Whatever the contract has done since the pool was as it is,
every one of its logs applies, and the pool then has a quote, of either kind and in either direction, exactly when
the contract's own loop uses the amount up without a step from where there is no liquidity, and for exactly what it comes to. -/
theorem replay_follows {p : UniswapV3Pool} {c d : Contract.Pool} {ls : List (Nat × Log)} (h : Tracks p c) (hc : c.Sound)
    (hist : Contract.Pool.History c ls d) :
    Replay.Clean (fun l p => UniswapV3Pool.applyLog p l.1 l.2) ls p ∧ Tracks (replayLogs p ls) d ∧
      ∀ (zeroForOne : Bool) (fuel amount x : Nat), 2 ^ 25 ≤ fuel → amount < 2 ^ 255 →
        ((replayLogs p ls).calculateExactInput fuel
          (if zeroForOne then (replayLogs p ls).token0 else (replayLogs p ls).token1) amount = .ok x ↔
          d.Fills zeroForOne true amount x) ∧
        ((replayLogs p ls).calculateExactOutput fuel
          (if zeroForOne then (replayLogs p ls).token1 else (replayLogs p ls).token0) amount = .ok x ↔
          d.Fills zeroForOne false amount x) := by
  obtain ⟨hclean, htracks⟩ := h.history hc hist
  exact ⟨hclean, htracks, fun zeroForOne _ _ _ hfuel ha => htracks.quotes (hc.history hist) zeroForOne hfuel ha⟩

/-- The contract of `rangePool`. -/
noncomputable def rangeContract : Contract.Pool :=
  ⟨Finsupp.single ⟨-600, 600, by decide⟩ (10 ^ 18), 2 ^ 96, 0, 10 ^ 18, 3000, 60⟩

theorem rangePool_tracks : Tracks rangePool rangeContract := by
  refine ⟨image_iff.2 ⟨fun t => ?_, ?_⟩, rfl, rfl, rfl, rfl, by decide, by decide, by decide, by decide⟩
  · unfold rangePool rangeContract tickOf
    dsimp only
    rw [Ranges.lookup_insert, Ranges.lookup_insert, net_single, gross_single]
    by_cases h1 : t = 600
    · subst h1; simp
    · by_cases h2 : t = -600
      · subst h2; simp
      · simp [h1, h2]
  · unfold rangeContract
    rw [active_single]
    exact (if_pos (show (-600 : Int) ≤ 0 ∧ (0 : Int) < 600 by decide)).symm

theorem rangeContract_sound : rangeContract.Sound := by
  have hticks := rangePool_wellFormed.settled
  have hroom : 10 ^ 18 ≤ Contract.maxLiquidityPerTick 60 := by decide
  refine ⟨by decide, fun r hr => ?_, fun t => ?_, hticks.mem, hticks.low, hticks.high, hticks.price_lt, ?_, by decide⟩
  · rw [Finset.mem_singleton.1 (Finsupp.support_single_subset hr)]
    exact ⟨by decide, ⟨-10, rfl⟩, ⟨10, rfl⟩⟩
  · unfold rangeContract
    rw [gross_single]
    split <;> omega
  · unfold rangeContract
    rw [active_single, if_pos (show (-600 : Int) ≤ 0 ∧ (0 : Int) < 600 by decide)]

/-- A second position comes in around the price, and a thousand of token 0 after it. -/
theorem replay_follows_mint :
    ∃ d, Contract.Pool.History rangeContract
        [(7, ⟨1, .event (.v3 (.mint (-60) 60 (10 ^ 18))), none, none, none, none, none, false⟩)] d ∧
      d.Fills true true 1000 996 := by
  have hroom : 2 * 10 ^ 18 ≤ Contract.maxLiquidityPerTick 60 := by decide
  have hmint : rangeContract.Does (.mint (-60) 60 (10 ^ 18)) _ :=
    .mints (r := ⟨-60, 60, by decide⟩) (by decide) ⟨⟨-1, rfl⟩, ⟨1, rfl⟩⟩ (fun t => by
      unfold rangeContract
      rw [gross_add, gross_single, gross_single]
      dsimp only
      split <;> split <;> omega) (.inl rfl)
  have hist : Contract.Pool.History rangeContract
      [(7, ⟨1, .event (.v3 (.mint (-60) 60 (10 ^ 18))), none, none, none, none, none, false⟩)] _ := .cons hmint rfl (.nil _)
  refine ⟨_, hist, ?_⟩
  exact ((replay_follows rangePool_tracks rangeContract_sound hist).2.2 true (2 ^ 25) 1000 996 le_rfl (by decide)).1.1
    (by decide +kernel)

end EvmDexPool.V3
