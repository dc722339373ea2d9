import EvmDexPool.LB.FeeClock
import EvmDexPool.LB.Fetcher
import EvmDexPool.LB.Reserves
import EvmDexPool.LB.Trades

/-!
# What a Liquidity Book pair does, and the pool that follows it

An operation of the pair moves reserves, runs the fee clock or sets the fee parameters, and is logged in the form of either
version. A pool that has what its pair has, has it again when the operation's logs are applied (`Follows.operation`), and so over
any history (`Follows.history`). A forced decay of the fee clock is not among the operations: no pool asks for its log.
-/

namespace EvmDexPool.LB

open Ledger

/-- A bin's part in a swap: what it keeps of the token paid, and what it gives of the other. -/
structure Fill where
  id : Nat
  kept : Nat
  amountOut : Nat
  id_lt : id < 2 ^ 24
  kept_lt : kept < 2 ^ 128
  amountOut_lt : amountOut < 2 ^ 128

/-- What goes into a bin, or comes out of it. -/
structure BinAmounts where
  id : Nat
  x : Nat
  y : Nat
  id_lt : id < 2 ^ 24

inductive PairOperation
  | swap (swapForY : Bool) (first : Fill) (rest : List Fill)
  | mint (compositionFees : Bool) (deposits : List BinAmounts)
  | burn (withdrawals : List BinAmounts)
  | flashLoan (fees : BinAmounts)
  | setStaticFeeParameters (params : StaticFeeParameters)

/-- The entries a fill makes. -/
def Fill.entries (swapForY : Bool) (f : Fill) : List (Entry (Nat × Side)) :=
  if swapForY then binEntries f.id f.kept 0 0 f.amountOut else binEntries f.id 0 f.kept f.amountOut 0

def BinAmounts.credits (b : BinAmounts) : List (Entry (Nat × Side)) := binEntries b.id b.x b.y 0 0

def BinAmounts.debits (b : BinAmounts) : List (Entry (Nat × Side)) := binEntries b.id 0 0 b.x b.y

namespace PairOperation

/-- What the operation does to the reserves. -/
def entries : PairOperation → List (Entry (Nat × Side))
  | .swap swapForY first rest => (first :: rest).flatMap (Fill.entries swapForY)
  | .mint _ deposits => deposits.flatMap BinAmounts.credits
  | .burn withdrawals => withdrawals.flatMap BinAmounts.debits
  | .flashLoan fees => fees.credits
  | .setStaticFeeParameters _ => []

/-- What it does to the fee clock at time `t`. -/
def clock (t : Nat) (c : FeeClock) : PairOperation → FeeClock
  | .swap _ first rest => c.operate t (.swap first.id (rest.map Fill.id))
  | .mint true _ => c.operate t .mintWithCompositionFees
  | .setStaticFeeParameters params =>
    { c with
      filterPeriod := params.filterPeriod
      decayPeriod := params.decayPeriod
      reductionFactor := params.reductionFactor
      maxVolatilityAccumulator := params.maxVolatilityAccumulator }
  | .mint false _ | .burn _ | .flashLoan _ => c

/-- What it does to the fee parameters. -/
def staticFee (params : StaticFeeParameters) : PairOperation → StaticFeeParameters
  | .setStaticFeeParameters params' => params'
  | .swap .. | .mint .. | .burn _ | .flashLoan _ => params

end PairOperation

namespace LBPair

/-- The pair's fee clock. -/
def clock (pair : LBPair) : FeeClock where
  filterPeriod := pair.staticFee.filterPeriod
  decayPeriod := pair.staticFee.decayPeriod
  reductionFactor := pair.staticFee.reductionFactor
  maxVolatilityAccumulator := pair.staticFee.maxVolatilityAccumulator
  activeId := pair.activeId
  volatilityAccumulator := pair.variableFee.volatilityAccumulator
  volatilityReference := pair.variableFee.volatilityReference
  idReference := pair.variableFee.idReference
  timeOfLastUpdate := pair.variableFee.timeOfLastUpdate

def held (pair : LBPair) (k : Nat × Side) : Nat :=
  match k.2 with
  | .x => (pair.reserves k.1).1
  | .y => (pair.reserves k.1).2

/-- The fee parameters of a pair that is in use. -/
def Sane (pair : LBPair) : Prop := 0 < pair.staticFee.filterPeriod ∧ pair.staticFee.maxVolatilityAccumulator < 2 ^ 32

/-- One operation at time `t`, no reserve going below zero or out of its word. -/
structure Does (t : Nat) (pair : LBPair) (op : PairOperation) (pair' : LBPair) : Prop where
  covered : Covered (2 ^ 128) pair.held op.entries
  held : pair'.held = run pair.held op.entries
  clock : pair'.clock = op.clock t pair.clock
  staticFee : pair'.staticFee = op.staticFee pair.staticFee
  sane : pair'.Sane
  version : pair'.version = pair.version
  tokenX : pair'.tokenX = pair.tokenX
  tokenY : pair'.tokenY = pair.tokenY
  binStep : pair'.binStep = pair.binStep
  hooks : pair'.hooks = pair.hooks

end LBPair

/-! ## What it logs -/

/-- A log of the event in a block at time `t`. -/
def LoggedAt (t : Nat) (e : LBEvent) (l : Log) : Prop := l.payload = .event (.lb e) ∧ l.blockTimestamp = some t

/-- The logs of a swap, each with the accumulator the pair has there. -/
inductive FillRecords (t : Nat) (swapForY : Bool) : FeeClock → List Fill → List Log → Prop
  | nil (c : FeeClock) : FillRecords t swapForY c [] []
  | cons {c : FeeClock} {f : Fill} {fs : List Fill} {l : Log} {ls : List Log}
      (hl : LBPool.BinLogged swapForY f.id f.kept f.amountOut (c.crossBin f.id).volatilityAccumulator l)
      (ht : l.blockTimestamp = some t) (hls : FillRecords t swapForY (c.crossBin f.id) fs ls) :
      FillRecords t swapForY c (f :: fs) (l :: ls)

/-- The ids and amounts of a log, as amounts of bins. -/
def Packs (bs : List BinAmounts) (ids : List Nat) (amounts : List B256) : Prop :=
  (ids.zip amounts).map (fun e => (e.1, decodeAmounts e.2)) = bs.map fun b => (b.id, b.x, b.y)

/-- The logs of an operation: a v2.0 pair logs each bin for itself. -/
inductive Reported (t : Nat) (c : FeeClock) : PairOperation → List Log → Prop
  | swap {swapForY : Bool} {first : Fill} {rest : List Fill} {ls : List Log}
      (h : FillRecords t swapForY (c.updateReferences t) (first :: rest) ls) : Reported t c (.swap swapForY first rest) ls
  | mint {deposits : List BinAmounts} {ids : List Nat} {amounts : List B256} {l : Log}
      (h : LoggedAt t (.depositedToBins ids amounts) l) (hids : ∀ id ∈ ids, id < 2 ^ 24) (hpacks : Packs deposits ids amounts) :
      Reported t c (.mint false deposits) [l]
  | mintWithFees {deposits : List BinAmounts} {ids : List Nat} {amounts : List B256} {l l' : Log}
      (h : LoggedAt t (.compositionFees c.activeId) l) (h' : LoggedAt t (.depositedToBins ids amounts) l')
      (hids : ∀ id ∈ ids, id < 2 ^ 24) (hpacks : Packs deposits ids amounts) : Reported t c (.mint true deposits) [l, l']
  | mintV20 {deposits : List BinAmounts} {ls : List Log}
      (h : List.Forall₂ (fun b l => LoggedAt t (.depositedToBinV20 b.id b.x b.y) l) deposits ls) :
      Reported t c (.mint false deposits) ls
  | burn {withdrawals : List BinAmounts} {ids : List Nat} {amounts : List B256} {l : Log}
      (h : LoggedAt t (.withdrawnFromBins ids amounts) l) (hids : ∀ id ∈ ids, id < 2 ^ 24) (hpacks : Packs withdrawals ids amounts) :
      Reported t c (.burn withdrawals) [l]
  | burnV20 {withdrawals : List BinAmounts} {ls : List Log}
      (h : List.Forall₂ (fun b l => LoggedAt t (.withdrawnFromBinV20 b.id b.x b.y) l) withdrawals ls) :
      Reported t c (.burn withdrawals) ls
  | flashLoan {fees : BinAmounts} {totalFees protocolFees : B256} {l : Log}
      (h : LoggedAt t (.flashLoan fees.id totalFees protocolFees) l)
      (hx : (decodeAmounts protocolFees).1 + fees.x = (decodeAmounts totalFees).1)
      (hy : (decodeAmounts protocolFees).2 + fees.y = (decodeAmounts totalFees).2) : Reported t c (.flashLoan fees) [l]
  | setStaticFeeParameters {params : StaticFeeParameters} {l : Log}
      (h : LoggedAt t (.staticFeeParametersSet params.baseFactor params.filterPeriod params.decayPeriod params.reductionFactor
        params.variableFeeControl params.protocolShare params.maxVolatilityAccumulator) l) :
      Reported t c (.setStaticFeeParameters params) [l]

/-- What the pair does in a block, with the logs of it. -/
inductive LBPair.History (t : Nat) : LBPair → List Log → LBPair → Prop
  | nil (pair : LBPair) : History t pair [] pair
  | cons {pair next pair' : LBPair} {op : PairOperation} {ls ls' : List Log} (hdoes : pair.Does t op next)
      (hlogs : Reported t pair.clock op ls) (hrest : History t next ls' pair') : History t pair (ls ++ ls') pair'

/-! ## The pool -/

def LBPool.staticFee (p : LBPool) : StaticFeeParameters where
  baseFactor := p.baseFactor
  filterPeriod := p.filterPeriod
  decayPeriod := p.decayPeriod
  reductionFactor := p.reductionFactor
  variableFeeControl := p.variableFeeControl
  protocolShare := p.protocolShare
  maxVolatilityAccumulator := p.maxVolatilityAccumulator

/-- The pool at `a` has what the pair has. -/
structure Follows (a : Address) (p : LBPool) (pair : LBPair) : Prop where
  address : p.address = a
  stored : p.Stored
  reserves : p.reserves = pair.held
  clock : p.clock = pair.clock
  staticFee : p.staticFee = pair.staticFee
  version : p.version = pair.version
  tokenX : p.tokenX = pair.tokenX
  tokenY : p.tokenY = pair.tokenY
  binStep : p.binStep = pair.binStep
  hooks : p.hooksParameters = if pair.version = .V2_2 ∧ pair.hooks ≠ 0 then some pair.hooks else none

/-- It is the pair as a pool, with its own dates. -/
theorem Follows.eq_pool {a : Address} {p : LBPool} {pair : LBPair} (h : Follows a p pair) (now : Nat) :
    { p with lastUpdated := now, createdAt := now } = pair.pool now a p.bins := by
  obtain ⟨rfl, -, -, hclock, hstatic, hversion, hx, hy, hstep, hhooks⟩ := h
  unfold LBPair.pool
  rw [← hstatic, ← hx, ← hy, ← hstep, ← hhooks, ← hversion]
  unfold LBPool.clock LBPair.clock at hclock
  injection hclock with _ _ _ _ hactive hacc hvol hid htime
  rw [← hactive, ← hacc, ← hvol, ← hid, ← htime]
  rfl

/-! ## Reserves -/

/-- The log makes these entries, and its ids are the pair's. -/
def Enters (es : List (Entry (Nat × Side))) (l : Log) : Prop := entries l = es ∧ Regular l

theorem LoggedAt.enters {t : Nat} {e : LBEvent} {l : Log} {es : List (Entry (Nat × Side))} (h : LoggedAt t e l)
    (hes : eventEntries e = es) (hregular : RegularEvent e) : Enters es l := by
  unfold Enters entries Regular
  rw [h.1]
  exact ⟨hes, hregular⟩

theorem Fill.enters {swapForY : Bool} {f : Fill} {acc : Nat} {l : Log} (h : LBPool.BinLogged swapForY f.id f.kept f.amountOut acc l) :
    Enters (f.entries swapForY) l := by
  unfold Enters LB.entries Regular Fill.entries
  cases h with
  | v21 amountsIn amountsOut h hin hout =>
    rw [h]
    refine ⟨?_, f.id_lt⟩
    dsimp only
    rw [eventEntries, hin, hout]
    cases swapForY <;> rfl
  | v20 h =>
    rw [h]
    exact ⟨rfl, f.id_lt⟩

theorem Packs.credits {bs : List BinAmounts} {ids : List Nat} {amounts : List B256} (h : Packs bs ids amounts) :
    eventEntries (.depositedToBins ids amounts) = bs.flatMap BinAmounts.credits := by
  have hmap := congrArg (List.flatMap fun e => binEntries e.1 e.2.1 e.2.2 0 0) h
  rwa [List.flatMap_map, List.flatMap_map] at hmap

theorem Packs.debits {bs : List BinAmounts} {ids : List Nat} {amounts : List B256} (h : Packs bs ids amounts) :
    eventEntries (.withdrawnFromBins ids amounts) = bs.flatMap BinAmounts.debits := by
  have hmap := congrArg (List.flatMap fun e => binEntries e.1 0 0 e.2.1 e.2.2) h
  rwa [List.flatMap_map, List.flatMap_map] at hmap

theorem forall₂_enters {α : Type} {R : α → Log → Prop} {ent : α → List (Entry (Nat × Side))} (hR : ∀ a l, R a l → Enters (ent a) l)
    {as : List α} {ls : List Log} (h : List.Forall₂ R as ls) : ls.flatMap entries = as.flatMap ent ∧ ∀ l ∈ ls, Regular l := by
  induction h with
  | nil => simp
  | @cons a l as ls hl hls ih =>
    obtain ⟨hentries, hregular⟩ := hR a l hl
    rw [List.flatMap_cons, List.flatMap_cons, hentries, ih.1]
    exact ⟨rfl, List.forall_mem_cons.2 ⟨hregular, ih.2⟩⟩

theorem FillRecords.enters {t : Nat} {swapForY : Bool} {c : FeeClock} {fs : List Fill} {ls : List Log}
    (h : FillRecords t swapForY c fs ls) : List.Forall₂ (fun f l => Enters (f.entries swapForY) l) fs ls := by
  induction h with
  | nil => exact .nil
  | cons hl _ _ ih => exact .cons (Fill.enters hl) ih

/-- **The logs of an operation make its entries.** -/
theorem Reported.entries {t : Nat} {c : FeeClock} {op : PairOperation} {ls : List Log} (h : Reported t c op ls)
    (hc : c.activeId < 2 ^ 24) :
    ls.flatMap LB.entries = op.entries ∧ ∀ l ∈ ls, Regular l := by
  cases h with
  | swap h => exact forall₂_enters (fun _ _ h => h) h.enters
  | mint h hids hpacks =>
    obtain ⟨hentries, hregular⟩ := h.enters hpacks.credits hids
    simpa [hentries, PairOperation.entries] using hregular
  | mintWithFees h h' hids hpacks =>
    obtain ⟨hfees, hregular⟩ := h.enters rfl hc
    obtain ⟨hentries, hregular'⟩ := h'.enters hpacks.credits hids
    simpa [hfees, hentries, PairOperation.entries, eventEntries] using ⟨hregular, hregular'⟩
  | mintV20 h => exact forall₂_enters (fun b l hl => hl.enters rfl b.id_lt) h
  | burn h hids hpacks =>
    obtain ⟨hentries, hregular⟩ := h.enters hpacks.debits hids
    simpa [hentries, PairOperation.entries] using hregular
  | burnV20 h => exact forall₂_enters (fun b l hl => hl.enters rfl b.id_lt) h
  | @flashLoan fees totalFees protocolFees l h hx hy =>
    have hnet : eventEntries (.flashLoan fees.id totalFees protocolFees) = fees.credits := by
      rw [eventEntries, ← hx, ← hy, Nat.add_sub_cancel_left, Nat.add_sub_cancel_left]
      rfl
    obtain ⟨hentries, hregular⟩ := h.enters hnet ⟨fees.id_lt, by omega, by omega⟩
    simpa [hentries, PairOperation.entries] using hregular
  | setStaticFeeParameters h =>
    obtain ⟨hentries, hregular⟩ := h.enters rfl trivial
    simpa [hentries, PairOperation.entries, eventEntries] using hregular

/-! ## The fee clock and the rest -/

namespace LBPool
variable {p q : LBPool}

/-- The pool without its bins. -/
def still (p : LBPool) : LBPool := { p with bins := ∅, lastUpdated := 0 }

/-- The pool without what trades move. -/
def fixed (p : LBPool) : LBPool :=
  { p.still with
    activeId := 0, volatilityAccumulator := 0, volatilityReference := 0, idReference := 0, timeOfLastUpdate := 0 }

theorem clock_of_still (h : q.still = p.still) : q.clock = p.clock :=
  show q.still.clock = p.still.clock from congrArg clock h

theorem fixed_of_still (h : q.still = p.still) : q.fixed = p.fixed :=
  show q.still.fixed = p.still.fixed from congrArg fixed h

@[simp] theorem still_updateBin (id x y : Nat) : (p.updateBin id x y).still = p.still := by
  unfold updateBin; split <;> rfl

@[simp] theorem fixed_updateBin (id x y : Nat) : (p.updateBin id x y).fixed = p.fixed := fixed_of_still (still_updateBin ..)

theorem still_foldl {α : Type} {step : LBPool → α → LBPool} (hstep : ∀ p a, (step p a).still = p.still) (as : List α) (p : LBPool) :
    (as.foldl step p).still = p.still := by
  induction as generalizing p with
  | nil => rfl
  | cons a as ih => rw [List.foldl_cons, ih, hstep]

/-- What only moves the bins. -/
def Liquidity : LBEvent → Prop
  | .depositedToBins .. | .withdrawnFromBins .. | .flashLoan .. | .depositedToBinV20 .. | .withdrawnFromBinV20 .. => True
  | .swap .. | .compositionFees .. | .staticFeeParametersSet .. | .swapV20 .. => False

theorem still_applyLiquidityV20 {name : String} {side : Nat → Nat → Nat} {ts id amountX amountY : Nat} :
    (p.applyLiquidityV20 name side ts id amountX amountY).1.still = p.still := by
  unfold applyLiquidityV20
  repeat' split
  all_goals first | rfl | exact still_updateBin ..

theorem still_applyEvent {now ts : Nat} {e : LBEvent} (h : Liquidity e) : (p.applyEvent now ts e).1.still = p.still := by
  cases e with
  | depositedToBins ids amounts =>
    exact still_foldl (fun q e => by rw [depositBin_eq, still_updateBin]) (ids.zip amounts) p
  | withdrawnFromBins ids amounts =>
    exact still_foldl (fun q e => by rw [withdrawBin_eq, still_updateBin]) (ids.zip amounts) p
  | flashLoan id totalFees protocolFees =>
    change (p.applyFlashLoan now id totalFees protocolFees).1.still = _
    unfold applyFlashLoan
    dsimp only
    repeat' split
    all_goals first | rfl | exact still_updateBin ..
  | depositedToBinV20 id amountX amountY => exact still_applyLiquidityV20
  | withdrawnFromBinV20 id amountX amountY => exact still_applyLiquidityV20
  | swap | compositionFees | staticFeeParametersSet | swapV20 => exact h.elim

theorem fixed_applySwap (now ts id amountsIn amountsOut acc : Nat) :
    (p.applySwap now ts id amountsIn amountsOut acc).fixed = p.fixed := by
  have hbin := fixed_updateBin (p := p) id
    (Fixed.satAdd 128 (p.bin id).1 (decodeAmounts amountsIn).1 - (decodeAmounts amountsOut).1)
    (Fixed.satAdd 128 (p.bin id).2 (decodeAmounts amountsIn).2 - (decodeAmounts amountsOut).2)
  rw [← hbin]
  rfl

theorem fixed_writtenV20 (ts id : Nat) (swapForY : Bool) (amountIn amountOut : Nat) :
    (p.writtenV20 ts id swapForY amountIn amountOut).fixed = p.fixed := by
  have hbin := fixed_updateBin (p := p) id (p.swapSidesV20 id swapForY amountIn amountOut).1
    (p.swapSidesV20 id swapForY amountIn amountOut).2
  rw [← hbin]
  rfl

/-- Logs of liquidity move the bins and nothing else. -/
theorem still_replay {calls : List (Nat × Log)} (h : ∀ c ∈ calls, ∃ t e, LoggedAt t e c.2 ∧ Liquidity e) :
    (p.replay calls).still = p.still := by
  induction calls generalizing p with
  | nil => rfl
  | cons c calls ih =>
    obtain ⟨t, e, ⟨hlog, -⟩, hliquidity⟩ := h c List.mem_cons_self
    have hstep : (p.applyLog c.1 c.2).1.still = p.still := by
      unfold applyLog
      rw [hlog]
      exact still_applyEvent hliquidity
    exact (ih fun c' hc' => h c' (List.mem_cons_of_mem c hc')).trans hstep

/-- A swap's logs leave what trades do not move. -/
theorem fixed_replay {t : Nat} {swapForY : Bool} {c : FeeClock} {fs : List Fill} {ls : List Log} (h : FillRecords t swapForY c fs ls)
    {calls : List (Nat × Log)} (hcalls : calls.map Prod.snd = ls) : (p.replay calls).fixed = p.fixed := by
  induction h generalizing p calls with
  | nil =>
    rw [List.map_eq_nil_iff.1 hcalls]
    rfl
  | @cons c f fs l ls hl ht hls ih =>
    obtain ⟨⟨now, l⟩, rest, rfl, rfl, hrest⟩ := List.map_eq_cons_iff.1 hcalls
    have hstep : (p.applyLog now l).1.fixed = p.fixed := by
      unfold applyLog
      cases hl with
      | v21 amountsIn amountsOut h =>
        rw [h]
        exact fixed_applySwap ..
      | v20 h =>
        rw [h]
        have hwritten := fixed_writtenV20 (p := p) (l.timestamp now) f.id swapForY f.kept f.amountOut
        dsimp only [applyEvent]
        rw [applySwapV20_eq (f.id_lt.trans (by norm_num)) f.kept_lt f.amountOut_lt, ← hwritten]
        cases Fixed.narrow 32 _ <;> rfl
    exact (ih hrest).trans hstep

end LBPool

theorem FillRecords.swapRecords {t : Nat} {swapForY : Bool} {c : FeeClock} {fs : List Fill} {ls : List Log}
    (h : FillRecords t swapForY c fs ls) : SwapRecords t c (fs.map Fill.id) ls := by
  induction h with
  | nil c => exact .nil c
  | @cons c f fs l ls hl ht _ ih =>
    refine .cons ?_ ih
    cases hl with
    | v21 amountsIn amountsOut h => exact .v21 amountsIn amountsOut h ht
    | v20 h => exact .v20 swapForY f.kept f.amountOut (f.id_lt.trans (by norm_num)) f.kept_lt f.amountOut_lt h ht

/-! ## Operations and histories -/

section Follows
variable {t : Nat} {a : Address} {p q : LBPool} {pair pair' : LBPair} {op : PairOperation} {calls : List (Nat × Log)}

/-- What is left to show when an operation does not set the fee parameters. -/
theorem Follows.of_fixed (h : Follows a p pair) (hdoes : pair.Does t op pair') (hparams : op.staticFee pair.staticFee = pair.staticFee)
    (hfixed : q.fixed = p.fixed) (hstored : q.Stored) (hreserves : q.reserves = pair'.held) (hclock : q.clock = pair'.clock) :
    Follows a q pair' where
  address := (show q.fixed.address = p.fixed.address from congrArg LBPool.address hfixed).trans h.address
  stored := hstored
  reserves := hreserves
  clock := hclock
  staticFee := by
    rw [hdoes.staticFee, hparams, ← h.staticFee]
    exact show q.fixed.staticFee = p.fixed.staticFee from congrArg LBPool.staticFee hfixed
  version := (congrArg LBPool.version hfixed).trans (h.version.trans hdoes.version.symm)
  tokenX := (congrArg LBPool.tokenX hfixed).trans (h.tokenX.trans hdoes.tokenX.symm)
  tokenY := (congrArg LBPool.tokenY hfixed).trans (h.tokenY.trans hdoes.tokenY.symm)
  binStep := (congrArg LBPool.binStep hfixed).trans (h.binStep.trans hdoes.binStep.symm)
  hooks := by
    rw [hdoes.version, hdoes.hooks, ← h.hooks]
    exact show q.fixed.hooksParameters = p.fixed.hooksParameters from congrArg LBPool.hooksParameters hfixed

/-- Logs that only move bins. -/
theorem Follows.of_liquidity (h : Follows a p pair) (hdoes : pair.Does t op pair') (hparams : op.staticFee pair.staticFee = pair.staticFee)
    (hclock : op.clock t pair.clock = pair.clock) (hlogs : ∀ l ∈ calls.map Prod.snd, ∃ t e, LoggedAt t e l ∧ LBPool.Liquidity e)
    (hreserves : (p.replay calls).reserves = pair'.held) : Follows a (p.replay calls) pair' := by
  have hstill : (p.replay calls).still = p.still := LBPool.still_replay fun c hc => hlogs c.2 (List.mem_map_of_mem hc)
  refine h.of_fixed hdoes hparams (LBPool.fixed_of_still hstill) (LBPool.stored_replay h.stored calls) hreserves ?_
  rw [LBPool.clock_of_still hstill, h.clock, hdoes.clock, hclock]

theorem liquidity_of_forall₂ {α : Type} {e : α → LBEvent} (he : ∀ a, LBPool.Liquidity (e a)) {as : List α} {ls : List Log}
    (h : List.Forall₂ (fun a l => LoggedAt t (e a) l) as ls) : ∀ l ∈ ls, ∃ t e, LoggedAt t e l ∧ LBPool.Liquidity e := by
  induction h with
  | nil => simp
  | cons hl _ ih => exact List.forall_mem_cons.2 ⟨⟨t, _, hl, he _⟩, ih⟩

/-- **An operation is followed**: with its logs the pool has what the pair then has. -/
theorem Follows.operation (h : Follows a p pair) (hsane : pair.Sane) (ht : t ≠ 0) (hdoes : pair.Does t op pair')
    (hlogs : Reported t pair.clock op (calls.map Prod.snd)) : Follows a (p.replay calls) pair' := by
  obtain ⟨hentries, hregular⟩ := hlogs.entries pair.active
  have hcalls : LBPool.callEntries calls = op.entries := by
    rw [← hentries, List.flatMap_map]
    rfl
  have hreserves : (p.replay calls).reserves = pair'.held := by
    rw [hdoes.held, ← h.reserves, ← hcalls]
    refine LBPool.reserves_replay (fun c hc => hregular c.2 (List.mem_map_of_mem hc)) ?_
    rw [hcalls, h.reserves]
    exact hdoes.covered
  have hfilter : 0 < p.filterPeriod := by
    have : p.filterPeriod = pair.staticFee.filterPeriod := congrArg StaticFeeParameters.filterPeriod h.staticFee
    rw [this]
    exact hsane.1
  have hmax : p.maxVolatilityAccumulator < 2 ^ 32 := by
    have : p.maxVolatilityAccumulator = pair.staticFee.maxVolatilityAccumulator :=
      congrArg StaticFeeParameters.maxVolatilityAccumulator h.staticFee
    rw [this]
    exact hsane.2
  have hstored := LBPool.stored_replay h.stored calls
  have hclock := hdoes.clock
  generalize hls : calls.map Prod.snd = ls at hlogs
  cases hlogs with
  | @swap swapForY first rest _ hrecords =>
    refine h.of_fixed hdoes rfl (LBPool.fixed_replay hrecords hls) hstored hreserves ?_
    rw [← h.clock] at hrecords hclock
    exact (LBPool.clock_replay_operation ht hls hfilter hmax (.swap hrecords.swapRecords)).trans hclock.symm
  | mint hl =>
    refine h.of_liquidity hdoes rfl rfl ?_ hreserves
    rw [hls]
    exact List.forall_mem_singleton.2 ⟨t, _, hl, trivial⟩
  | mintWithFees hl hl' =>
    obtain ⟨⟨now, l⟩, rest, rfl, rfl, hrest⟩ := List.map_eq_cons_iff.1 hls
    have hstill : ((p.applyLog now l).1.replay rest).still = (p.applyLog now l).1.still := by
      refine LBPool.still_replay fun c hc => ?_
      have hmem := List.mem_map_of_mem (f := Prod.snd) hc
      rw [hrest] at hmem
      exact List.mem_singleton.1 hmem ▸ ⟨t, _, hl', trivial⟩
    have hfees : (p.applyLog now l).1.fixed = p.fixed := by
      unfold LBPool.applyLog
      rw [hl.1]
      rfl
    refine h.of_fixed hdoes rfl ((LBPool.fixed_of_still hstill).trans hfees) hstored hreserves ?_
    have hone : (p.replay [(now, l)]).clock = p.clock.operate t .mintWithCompositionFees :=
      LBPool.clock_replay_operation ht rfl hfilter hmax (.mint (h.clock ▸ hl.1) hl.2)
    rw [hclock, ← h.clock]
    exact (LBPool.clock_of_still hstill).trans hone
  | mintV20 hls' =>
    refine h.of_liquidity hdoes rfl rfl ?_ hreserves
    rw [hls]
    exact liquidity_of_forall₂ (fun _ => by trivial) hls'
  | burn hl =>
    refine h.of_liquidity hdoes rfl rfl ?_ hreserves
    rw [hls]
    exact List.forall_mem_singleton.2 ⟨t, _, hl, trivial⟩
  | burnV20 hls' =>
    refine h.of_liquidity hdoes rfl rfl ?_ hreserves
    rw [hls]
    exact liquidity_of_forall₂ (fun _ => by trivial) hls'
  | flashLoan hl =>
    refine h.of_liquidity hdoes rfl rfl ?_ hreserves
    rw [hls]
    exact List.forall_mem_singleton.2 ⟨t, _, hl, trivial⟩
  | @setStaticFeeParameters params l hl =>
    obtain ⟨⟨now, l⟩, rest, rfl, rfl, hrest⟩ := List.map_eq_cons_iff.1 hls
    obtain rfl := List.map_eq_nil_iff.1 hrest
    have happly : p.replay [(now, l)] = { p with
        baseFactor := params.baseFactor, filterPeriod := params.filterPeriod, decayPeriod := params.decayPeriod,
        reductionFactor := params.reductionFactor, variableFeeControl := params.variableFeeControl,
        protocolShare := params.protocolShare, maxVolatilityAccumulator := params.maxVolatilityAccumulator } := by
      change (p.applyLog now l).1 = _
      unfold LBPool.applyLog
      rw [hl.1]
      rfl
    refine ⟨?_, hstored, hreserves, ?_, ?_, ?_, ?_, ?_, ?_, ?_⟩
    · rw [happly, ← h.address]
    · rw [hclock, ← h.clock, happly]
      rfl
    · rw [hdoes.staticFee, happly]
      rfl
    · rw [hdoes.version, happly, ← h.version]
    · rw [hdoes.tokenX, happly, ← h.tokenX]
    · rw [hdoes.tokenY, happly, ← h.tokenY]
    · rw [hdoes.binStep, happly, ← h.binStep]
    · rw [hdoes.version, hdoes.hooks, happly, ← h.hooks]

/-- **A history is followed.** -/
theorem Follows.history {ls : List Log} (hhistory : LBPair.History t pair ls pair') (ht : t ≠ 0) (hsane : pair.Sane)
    (h : Follows a p pair) (hcalls : calls.map Prod.snd = ls) : Follows a (p.replay calls) pair' ∧ pair'.Sane := by
  induction hhistory generalizing p calls with
  | nil =>
    rw [List.map_eq_nil_iff.1 hcalls]
    exact ⟨h, hsane⟩
  | @cons pair next pair' op ls ls' hdoes hlogs _ ih =>
    obtain ⟨calls₁, calls₂, rfl, h₁, h₂⟩ := List.map_eq_append_iff.1 hcalls
    rw [← h₁] at hlogs
    have hnext := ih hdoes.sane (h.operation hsane ht hdoes hlogs) h₂
    unfold LBPool.replay at hnext ⊢
    rwa [List.foldl_append]

end Follows

end EvmDexPool.LB
