import EvmDexPool.Lib.Ladder
import EvmDexPool.LB.Events
import EvmDexPool.LB.SwapOut

/-!
# Trades on a Liquidity Book pair, one after the other

The pair books what it quotes bin by bin, with a log for each bin that took something, and the pool follows by its logs. What
stays in a bin lies between the net input and the whole of it, as the protocol's part of the fee leaves the pair. Trades leave the
bins in their order about the active one (`Trade.ordered`) and none of them worth less at its own price (`Trade.worth`), so nobody
takes one token out of the pair without putting the other in (`binTrades_noGain`).
-/

namespace EvmDexPool.LB.LBPool

open Std

variable {p q : LBPool} {swapForY : Bool} {t amountIn : Nat}

/-- The bins a pair can have: the ones below the active bin hold no X and the ones above it no Y. -/
structure Ordered (p : LBPool) : Prop extends Sound p where
  ids : ∀ (id : Nat) (r : Nat × Nat), p.bins[id]? = some r → id < 2 ^ 32
  order : ∀ b id, after b p.activeId id → outSide (!b) (p.bin id) = 0

/-- What all the bins hold of a token. -/
def total (p : LBPool) (b : Bool) : Nat := Ranges.sumRange p.bins (fun _ => true) fun _ => outSide b

/-- A pair of amounts with `amount` on the side that `swapForY` pays. -/
def paidSide (swapForY : Bool) (amount : Nat) : Nat × Nat := if swapForY then (amount, 0) else (0, amount)

/-- The log, of either version, of a bin that kept `kept` and paid `amountOut`. -/
inductive BinLogged (swapForY : Bool) (id kept amountOut acc : Nat) (l : Log) : Prop
  | v21 (amountsIn amountsOut : B256) (h : l.payload = .event (.lb (.swap id amountsIn amountsOut acc)))
      (hin : decodeAmounts amountsIn = paidSide swapForY kept) (hout : decodeAmounts amountsOut = paidSide (!swapForY) amountOut)
  | v20 (h : l.payload = .event (.lb (.swapV20 id swapForY kept amountOut acc)))

/-- The log of a flow, the fee staying in the bin as far as it is not the protocol's. -/
def Logged (p : LBPool) (swapForY : Bool) (f : BinFlow) (c : Nat × Log) : Prop :=
  ∃ kept acc, f.amountIn - f.fee ≤ kept ∧ kept ≤ f.amountIn ∧ outSide (!swapForY) (p.bin f.id) + kept < 2 ^ 128 ∧
    acc < 2 ^ 32 ∧ BinLogged swapForY f.id kept f.amountOut acc c.2

/-- A trade at the pair's own quote for `amountIn`, all of which the bins take, and the logs of it. -/
def Trade (p : LBPool) (swapForY : Bool) (t amountIn : Nat) (calls : List (Nat × Log)) : Prop :=
  0 < amountIn ∧ amountIn < 2 ^ 128 ∧ p.NoOverflow swapForY t amountIn ∧
    ∃ s rounds, p.Quotes swapForY t amountIn s rounds ∧ s.amountInLeft = 0 ∧
      List.Forall₂ (p.Logged swapForY) ((rounds.map flow).filter fun f => 0 < f.amountIn) calls

/-- Trades one after the other, the pool following each by its logs before the next is quoted. -/
inductive Trades : LBPool → LBPool → Prop
  | done (p : LBPool) : Trades p p
  | trade {p q : LBPool} {swapForY : Bool} {t amountIn : Nat} {calls : List (Nat × Log)} (h : p.Trade swapForY t amountIn calls)
      (hrest : Trades (p.replay calls) q) : Trades p q

/-! ## One log -/

@[simp] theorem outSide_traded (r : Nat × Nat) (net out : Nat) :
    outSide swapForY (traded swapForY r net out) = outSide swapForY r - out := by
  cases swapForY <;> simp [outSide, traded]

@[simp] theorem outSide_not_traded (r : Nat × Nat) (net out : Nat) :
    outSide (!swapForY) (traded swapForY r net out) = outSide (!swapForY) r + net := by
  cases swapForY <;> simp [outSide, traded]

theorem outSide_lt {r : Nat × Nat} : (r.1 < 2 ^ 128 ∧ r.2 < 2 ^ 128) ↔
    outSide swapForY r < 2 ^ 128 ∧ outSide (!swapForY) r < 2 ^ 128 := by
  cases swapForY <;> simp [outSide, and_comm]

/-- The pool with one bin rewritten and made the active one. -/
structure Rewritten (p q : LBPool) (id : Nat) (r : Nat × Nat) : Prop where
  bins : q.bins = (p.updateBin id r.1 r.2).bins
  active : q.activeId = id
  step : q.binStep = p.binStep

theorem Rewritten.bin {id : Nat} {r : Nat × Nat} (h : Rewritten p q id r) (k : Nat) : q.bin k = if k = id then r else p.bin k := by
  have hbin := p.updateBin_bin id r.1 r.2 k
  unfold LBPool.bin at hbin ⊢
  rw [h.bins, hbin]

theorem Rewritten.mem {id k : Nat} {r s : Nat × Nat} (h : Rewritten p q id r) (hk : q.bins[k]? = some s) :
    k = id ∨ ∃ s, p.bins[k]? = some s := by
  rw [h.bins, updateBin_getElem?] at hk
  by_cases hid : k = id
  · exact .inl hid
  · rw [if_neg hid] at hk
    exact .inr ⟨s, hk⟩

/-- A bin's log rewrites it as the trade did. -/
theorem BinLogged.rewrites {id kept amountOut acc : Nat} {l : Log} (h : BinLogged swapForY id kept amountOut acc l)
    (hid : id < 2 ^ 32) (hacc : acc < 2 ^ 32) (hfit : outSide (!swapForY) (p.bin id) + kept < 2 ^ 128)
    (hout : amountOut ≤ outSide swapForY (p.bin id)) (hlt : outSide swapForY (p.bin id) < 2 ^ 128) (now : Nat) :
    Rewritten p (p.applyLog now l).1 id (traded swapForY (p.bin id) kept amountOut) := by
  have hkept : kept < 2 ^ 128 := by omega
  have hpaid : amountOut < 2 ^ 128 := by omega
  cases h with
  | v21 amountsIn amountsOut hlog hin hpays =>
    have happly : (p.applyLog now l).1 = p.applySwap now (l.timestamp now) id amountsIn amountsOut acc := by
      unfold applyLog
      rw [hlog]
      rfl
    rw [happly]
    refine ⟨?_, rfl, ?_⟩
    · rw [applySwap_bins, hin, hpays]
      cases swapForY with
      | true =>
        have hfit : (p.bin id).1 + kept < 2 ^ 128 := hfit
        have hlt : (p.bin id).2 < 2 ^ 128 := hlt
        simp [paidSide, traded, Fixed.satAdd_of_lt hfit, Fixed.satAdd_of_lt (show (p.bin id).2 + 0 < 2 ^ 128 from hlt)]
      | false =>
        have hfit : (p.bin id).2 + kept < 2 ^ 128 := hfit
        have hlt : (p.bin id).1 < 2 ^ 128 := hlt
        simp [paidSide, traded, Fixed.satAdd_of_lt hfit, Fixed.satAdd_of_lt (show (p.bin id).1 + 0 < 2 ^ 128 from hlt)]
    · change (p.updateBin id _ _).binStep = p.binStep
      rw [updateBin_eq]
  | v20 hlog =>
    have happly : (p.applyLog now l).1 = { p.writtenV20 (l.timestamp now) id swapForY kept amountOut with
        volatilityAccumulator := acc, timeOfLastUpdate := l.timestamp now, lastUpdated := now } := by
      unfold applyLog
      rw [hlog]
      change (p.applySwapV20 now (l.timestamp now) id swapForY kept amountOut acc).1 = _
      rw [applySwapV20_eq hid hkept hpaid, Fixed.narrow_of_lt hacc]
    have hsides : p.swapSidesV20 id swapForY kept amountOut = traded swapForY (p.bin id) kept amountOut := by
      unfold swapSidesV20 traded
      cases swapForY with
      | true => rw [if_pos rfl, if_pos rfl, Fixed.satAdd_of_lt (show (p.bin id).1 + kept < 2 ^ 128 from hfit)]
      | false =>
        rw [if_neg Bool.false_ne_true, if_neg Bool.false_ne_true, Fixed.satAdd_of_lt (show (p.bin id).2 + kept < 2 ^ 128 from hfit)]
    rw [happly]
    refine ⟨?_, rfl, ?_⟩
    · rw [← hsides]
      rfl
    · change (p.updateBin id _ _).binStep = p.binStep
      rw [updateBin_eq]

/-! ## The logs of a trade -/

theorem Affords.mono {price net net' out : Nat} (h : Affords swapForY price net out) (hle : net ≤ net') :
    Affords swapForY price net' out := by
  have hin := Nat.mul_le_mul_right price hle
  have hout := Nat.mul_le_mul_right (2 ^ 128) hle
  unfold Affords at h ⊢
  cases swapForY with
  | true => exact h.trans hin
  | false => exact h.trans hout

/-- What is asked of the flows of a trade: what they take out is there, and they pay for it. -/
structure Flows (p : LBPool) (swapForY : Bool) (fs : List BinFlow) : Prop where
  apart : fs.Pairwise fun f g => f.id ≠ g.id
  mem : ∀ f ∈ fs, ∃ r, p.bins[f.id]? = some r
  solvent : ∀ f ∈ fs, f.amountOut ≤ p.reserveOut swapForY f.id ∧
    Affords swapForY (binPrice f.id p.binStep) (f.amountIn - f.fee) f.amountOut

/-- What the logs of flows from `p` leave: the bins of the flows traded, the others as they were. -/
structure Traded (p : LBPool) (swapForY : Bool) (fs : List BinFlow) (q r : LBPool) : Prop where
  bins : ∀ f ∈ fs, ∃ kept, f.amountIn - f.fee ≤ kept ∧ outSide (!swapForY) (p.bin f.id) + kept < 2 ^ 128 ∧
    r.bin f.id = traded swapForY (p.bin f.id) kept f.amountOut
  others : ∀ k, (∀ f ∈ fs, f.id ≠ k) → r.bin k = q.bin k
  mem : ∀ (k : Nat) s, r.bins[k]? = some s → (∃ f ∈ fs, f.id = k) ∨ ∃ s, q.bins[k]? = some s
  active : r.activeId = ((fs.getLast?).map BinFlow.id).getD q.activeId
  step : r.binStep = q.binStep

/-- **The logs of flows, one after the other.** Their bins are different ones, so each finds its bin as the quote did. -/
theorem Flows.traded (hp : p.Ordered) {fs : List BinFlow} {calls : List (Nat × Log)}
    (hlogs : List.Forall₂ (p.Logged swapForY) fs calls) (h : Flows p swapForY fs) (hq : ∀ f ∈ fs, q.bin f.id = p.bin f.id) :
    Traded p swapForY fs q (q.replay calls) := by
  induction hlogs generalizing q with
  | nil => exact ⟨by simp, fun _ _ => rfl, fun _ s hs => .inr ⟨s, hs⟩, rfl, rfl⟩
  | @cons f c fs calls hlogged hlogs ih =>
    obtain ⟨hne, hapart⟩ := List.pairwise_cons.1 h.apart
    obtain ⟨kept, acc, hnet, -, hfit, hacc, hlog⟩ := hlogged
    have hf := hq f List.mem_cons_self
    have hsolvent := (h.solvent f List.mem_cons_self).1
    have hlt := hp.toSound.reserveOut_lt swapForY f.id
    unfold reserveOut at hsolvent hlt
    obtain ⟨r, hr⟩ := h.mem f List.mem_cons_self
    have hrewritten := hlog.rewrites (p := q) (hp.ids f.id r hr) hacc (by rwa [hf]) (by rwa [hf]) (by rwa [hf]) c.1
    rw [hf] at hrewritten
    have hflows : Flows p swapForY fs :=
      ⟨hapart, fun g hg => h.mem g (List.mem_cons_of_mem f hg), fun g hg => h.solvent g (List.mem_cons_of_mem f hg)⟩
    have hrest := ih hflows (q := (q.applyLog c.1 c.2).1) (by
        intro g hg
        rw [hrewritten.bin, if_neg (hne g hg).symm]
        exact hq g (List.mem_cons_of_mem f hg))
    change Traded p swapForY (f :: fs) q ((q.applyLog c.1 c.2).1.replay calls)
    refine ⟨?_, ?_, ?_, ?_, hrest.step.trans hrewritten.step⟩
    · intro g hg
      rcases List.mem_cons.1 hg with rfl | hg
      · refine ⟨kept, hnet, hfit, ?_⟩
        rw [hrest.others g.id fun g' hg' => (hne g' hg').symm, hrewritten.bin, if_pos rfl]
      · exact hrest.bins g hg
    · intro k hk
      rw [hrest.others k fun g hg => hk g (List.mem_cons_of_mem f hg), hrewritten.bin, if_neg (hk f List.mem_cons_self).symm]
    · intro k s hs
      rcases hrest.mem k s hs with ⟨g, hg, hid⟩ | ⟨s', hs'⟩
      · exact .inl ⟨g, List.mem_cons_of_mem f hg, hid⟩
      · rcases hrewritten.mem hs' with rfl | hin
        · exact .inl ⟨f, List.mem_cons_self, rfl⟩
        · exact .inr hin
    · rw [hrest.active, hrewritten.active, List.getLast?_cons]
      cases fs.getLast? <;> rfl

/-! ## A trade -/

section Rounds
variable {σ : Type} {visit : σ → Nat → Nat → Except Fault σ} {left : σ → Nat} {s₀ : σ}

theorem Walks.rounds {l : List (Nat × σ × σ)} {s : σ} {id : Nat} (h : Walks p swapForY visit left s₀ l s id) :
    ∀ e ∈ l, p.roundAt swapForY visit e.2.1 e.1 = .ok e.2.2 := by
  induction h with
  | start => simp
  | next _ hround _ _ ih =>
    intro e he
    rcases List.mem_append.1 he with he | he
    · exact ih e he
    · rw [List.mem_singleton.1 he]
      exact hround

theorem Walks.left_ne_zero {l : List (Nat × σ × σ)} {s : σ} {id : Nat} (h : Walks p swapForY visit left s₀ l s id)
    (h₀ : left s₀ ≠ 0) : left s ≠ 0 := by
  cases h with
  | start => exact h₀
  | next _ _ hleft _ => exact hleft

end Rounds

/-- Only a bin that the pair has takes anything. -/
theorem flow_mem {e : Nat × SwapOut × SwapOut} (h : p.roundAt swapForY (p.swapOutBin swapForY t) e.2.1 e.1 = .ok e.2.2)
    (hpos : 0 < (flow e).amountIn) : ∃ r, p.bins[e.1]? = some r := by
  by_cases hr : 0 < p.reserveOut swapForY e.1
  · exact reserveOut_pos hr
  · rw [roundAt, if_neg hr] at h
    unfold flow at hpos
    rw [Except.ok.inj h, Nat.sub_self] at hpos
    exact absurd hpos (Nat.lt_irrefl 0)

/-- The flows of a trade that ends in bin `id`: the bins before it have sold all they had. -/
structure Finished (p : LBPool) (swapForY : Bool) (fs : List BinFlow) (id : Nat) : Prop extends Flows p swapForY fs where
  last : (fs.getLast?).map BinFlow.id = some id
  onPath : ∀ f ∈ fs, p.onPath swapForY f.id ∧ (f.id = id ∨ after swapForY f.id id)
  whole : ∀ k, p.onPath swapForY k → after swapForY k id → 0 < p.reserveOut swapForY k →
    ∃ f ∈ fs, f.id = k ∧ f.amountOut = p.reserveOut swapForY k

/-- Nothing is sold for nothing. -/
theorem Affords.pos {price net out : Nat} (h : Affords swapForY price net out) (hprice : 0 < price) (hout : 0 < out) : 0 < net := by
  by_contra hnet
  obtain rfl : net = 0 := by omega
  unfold Affords at h
  cases swapForY with
  | true => simp at h; omega
  | false =>
    have := Nat.mul_pos hout hprice
    simp at h
    omega

theorem after_not (a c : Nat) : after (!swapForY) a c = after swapForY c a := by cases swapForY <;> rfl

theorem after_of_onPath {a c : Nat} (ha : p.onPath swapForY a) (h : after swapForY a c) : after swapForY p.activeId c := by
  simp only [LBPool.onPath, Bool.or_eq_true, decide_eq_true_eq] at ha
  rcases ha with rfl | ha
  · exact h
  · exact after_trans ha h

theorem after_of_not_onPath {k : Nat} (h : ¬p.onPath swapForY k) : after swapForY k p.activeId := by
  simp only [LBPool.onPath, Bool.or_eq_true, decide_eq_true_eq, not_or] at h
  rcases after_total swapForY k p.activeId with hk | hk | hk
  · exact hk
  · exact absurd hk h.1
  · exact absurd hk h.2

theorem Finished.ends {fs : List BinFlow} {id : Nat} (h : Finished p swapForY fs id) : p.onPath swapForY id := by
  obtain ⟨f, hf, rfl⟩ := Option.map_eq_some_iff.1 h.last
  exact (h.onPath f (List.mem_of_getLast? hf)).1

theorem Trade.follows (hp : p.Ordered) {calls : List (Nat × Log)} (h : p.Trade swapForY t amountIn calls) :
    ∃ fs id, Finished p swapForY fs id ∧ Traded p swapForY fs p (p.replay calls) := by
  obtain ⟨hpos, hlt, hno, s, rounds, ⟨-, hfin⟩, hspent, hlogs⟩ := h
  have haccounted := finishes_accounted hp.toSound hlt hno hfin
  have hflows : Flows p swapForY ((rounds.map flow).filter fun f => 0 < f.amountIn) := by
    obtain ⟨l₀, s₀, id, hw, hround, rfl, -⟩ := hfin
    refine ⟨?_, ?_, ?_⟩
    · refine (List.pairwise_map.1 haccounted.ordered).filter _ |>.imp fun {f g} hafter he => ?_
      rw [he, after_irrefl] at hafter
      cases hafter
    · intro f hf
      obtain ⟨hf, htook⟩ := List.mem_filter.1 hf
      obtain ⟨e, he, rfl⟩ := List.mem_map.1 hf
      refine @flow_mem p swapForY t e ?_ (of_decide_eq_true htook)
      rcases List.mem_append.1 he with he | he
      · exact hw.rounds e he
      · rw [List.mem_singleton.1 he]
        exact hround
    · intro f hf
      obtain ⟨-, hout, haff, -⟩ := haccounted.solvent f (List.mem_filter.1 hf).1
      exact ⟨hout, haff⟩
  obtain ⟨l₀, s₀, id, hw, hround, rfl, -⟩ := hfin
  have hstanding := OutWalks.standing hp.toSound hlt hno hw
  refine ⟨_, id, ⟨hflows, ?_, ?_, ?_⟩, hflows.traded hp hlogs fun _ _ => rfl⟩
  · -- Something was left before the last round and nothing after it, so the last bin has its log.
    have htook : 0 < (flow (id, s₀, s)).amountIn := by
      have hleft : s₀.amountInLeft ≠ 0 := hw.left_ne_zero hpos.ne'
      change 0 < s₀.amountInLeft - s.amountInLeft
      omega
    rw [List.map_append, List.map_singleton, List.filter_append, List.filter_cons_of_pos (by simpa using htook)]
    simp [flow]
  · intro f hf
    obtain ⟨hf, -⟩ := List.mem_filter.1 hf
    refine ⟨haccounted.onPath f hf, ?_⟩
    rw [List.map_append, List.mem_append] at hf
    rcases hf with hf | hf
    · exact .inr (hstanding.passed f hf).2
    · rw [List.mem_singleton.1 hf]
      exact .inl rfl
  · intro k hk hafter hr
    obtain ⟨f, hf, hid, hout⟩ := hstanding.whole k hk hafter hr
    refine ⟨f, List.mem_filter.2 ⟨?_, ?_⟩, hid, hout⟩
    · rw [List.map_append]
      exact List.mem_append_left _ hf
    · obtain ⟨-, -, haff, -⟩ := hstanding.settled.solvent f hf
      have hnet := haff.pos (hid ▸ hp.toSound.price_pos hr) (hout ▸ hr)
      rw [decide_eq_true_iff]
      omega

/-- **A trade leaves the bins in order.** It has emptied the bins it passed of what it buys, and paid only into those and the one
it ends in. -/
theorem Finished.ordered (hp : p.Ordered) {fs : List BinFlow} {id : Nat} (h : Finished p swapForY fs id)
    (ht : Traded p swapForY fs p q) : q.Ordered := by
  have hmem : ∀ (k : Nat) s, q.bins[k]? = some s → ∃ s, p.bins[k]? = some s := by
    intro k s hs
    rcases ht.mem k s hs with ⟨f, hf, rfl⟩ | hin
    · exact h.mem f hf
    · exact hin
  have hactive : q.activeId = id := by rw [ht.active, h.last, Option.getD_some]
  have hbin : ∀ (k : Nat) s, q.bins[k]? = some s → q.bin k = s := fun k s hs => by simp [LBPool.bin, hs]
  refine ⟨⟨?_, ?_⟩, ?_, ?_⟩
  · intro k s hs
    rw [← hbin k s hs, @outSide_lt swapForY]
    by_cases hin : ∃ f ∈ fs, f.id = k
    · obtain ⟨f, hf, rfl⟩ := hin
      obtain ⟨kept, -, hfit, hr⟩ := ht.bins f hf
      have hlt := hp.toSound.reserveOut_lt swapForY f.id
      rw [hr, outSide_traded, outSide_not_traded]
      exact ⟨(Nat.sub_le _ _).trans_lt hlt, hfit⟩
    · rw [ht.others k fun f hf he => hin ⟨f, hf, he⟩]
      exact ⟨hp.toSound.reserveOut_lt swapForY k, hp.toSound.reserveOut_lt (!swapForY) k⟩
  · intro k s hs
    obtain ⟨s', hs'⟩ := hmem k s hs
    rw [ht.step]
    exact hp.prices k s' hs'
  · intro k s hs
    obtain ⟨s', hs'⟩ := hmem k s hs
    exact hp.ids k s' hs'
  · intro b k hafter
    rw [hactive] at hafter
    by_cases hb : b = swapForY
    · -- Further on than the trade came, all is as it was.
      subst hb
      have hout : ∀ f ∈ fs, f.id ≠ k := by
        rintro f hf rfl
        rcases (h.onPath f hf).2 with he | hbefore
        · rw [he, after_irrefl] at hafter
          cases hafter
        · have := after_trans hafter hbefore
          rw [after_irrefl] at this
          cases this
      rw [ht.others k hout]
      exact hp.order b k (after_of_onPath h.ends hafter)
    · -- Behind it, there is nothing left of what it bought.
      obtain rfl : b = !swapForY := Bool.eq_not.2 hb
      rw [after_not] at hafter
      rw [Bool.not_not]
      by_cases hsold : p.onPath swapForY k ∧ 0 < p.reserveOut swapForY k
      · obtain ⟨f, hf, rfl, hout⟩ := h.whole k hsold.1 hafter hsold.2
        obtain ⟨kept, -, -, hr⟩ := ht.bins f hf
        rw [hr, outSide_traded, hout]
        exact Nat.sub_self _
      · have hnone : outSide swapForY (p.bin k) = 0 := by
          by_cases hon : p.onPath swapForY k
          · exact Nat.eq_zero_of_not_pos fun hr => hsold ⟨hon, hr⟩
          · have horder := hp.order (!swapForY) k (by rw [after_not]; exact after_of_not_onPath hon)
            rwa [Bool.not_not] at horder
        by_cases hin : ∃ f ∈ fs, f.id = k
        · obtain ⟨f, hf, rfl⟩ := hin
          obtain ⟨kept, -, -, hr⟩ := ht.bins f hf
          rw [hr, outSide_traded, hnone, Nat.zero_sub]
        · rw [ht.others k fun f hf he => hin ⟨f, hf, he⟩, hnone]

/-- **A trade leaves no bin worth less** at the bin's own price. -/
theorem Finished.worth {fs : List BinFlow} {id : Nat} (h : Finished p swapForY fs id) (ht : Traded p swapForY fs p q) (k : Nat) :
    binSum (binPrice k p.binStep) (p.bin k) ≤ binSum (binPrice k p.binStep) (q.bin k) := by
  by_cases hin : ∃ f ∈ fs, f.id = k
  · obtain ⟨f, hf, rfl⟩ := hin
    obtain ⟨kept, hnet, -, hr⟩ := ht.bins f hf
    obtain ⟨hout, haff⟩ := h.solvent f hf
    rw [hr]
    exact binSum_traded (haff.mono hnet) hout
  · rw [ht.others k fun f hf he => hin ⟨f, hf, he⟩]

/-! ## What trades come to -/

theorem total_eq_sum {s : Finset Nat} (hs : ∀ (k : Nat) r, p.bins[k]? = some r → k ∈ s) (b : Bool) :
    p.total b = ∑ k ∈ s, outSide b (p.bin k) := by
  unfold total
  rw [Ranges.sumRange_eq_sum hs]
  refine Finset.sum_congr rfl fun k _ => ?_
  unfold LBPool.bin
  cases p.bins[k]? with
  | none => cases b <;> rfl
  | some r => rfl

/-- Bins in order are goods on a ladder. -/
theorem Ordered.standing (hp : p.Ordered) : Ladder.Standing (fun k => (p.bin k).1) (fun k => (p.bin k).2) p.activeId where
  below k hk := hp.order true k (by simpa [after] using hk)
  above k hk := hp.order false k (by simpa [after] using hk)

/-- Between two states of the bins of which none has become worth less, one token is paid for with the other. -/
theorem Ordered.paid (hp : p.Ordered) (hq : q.Ordered)
    (hworth : ∀ k, binSum (binPrice k p.binStep) (p.bin k) ≤ binSum (binPrice k p.binStep) (q.bin k)) {b : Bool}
    (hless : q.total b < p.total b) : p.total (!b) < q.total (!b) := by
  have hmem : ∀ {m : ExtTreeMap Nat (Nat × Nat)} {k : Nat} {r : Nat × Nat}, m[k]? = some r → k ∈ m.keys.toFinset := by
    intro m k r hr
    rw [List.mem_toFinset, ExtTreeMap.mem_keys, ExtTreeMap.mem_iff_isSome_getElem?, hr]
    rfl
  have htotal := @total_eq_sum p (p.bins.keys.toFinset ∪ q.bins.keys.toFinset) fun k r hr => Finset.mem_union_left _ (hmem hr)
  have htotal' := @total_eq_sum q (p.bins.keys.toFinset ∪ q.bins.keys.toFinset) fun k r hr => Finset.mem_union_right _ (hmem hr)
  have hprice : ∀ k, (p.bin k).1 ≠ 0 → 0 < binPrice k p.binStep := by
    intro k hk
    exact @Sound.price_pos p false hp.toSound k (Nat.pos_of_ne_zero hk)
  rw [htotal, htotal'] at hless ⊢
  cases b with
  | false => exact hp.standing.upper_paid hq.standing (fun k _ => hworth k) (fun k _ => hprice k) (fun _ _ _ => by norm_num) hless
  | true => exact hp.standing.lower_paid hq.standing (fun k _ => hworth k) (fun k _ => hprice k) (fun _ _ _ => by norm_num) hless

theorem Trade.keeps (hp : p.Ordered) {calls : List (Nat × Log)} (h : p.Trade swapForY t amountIn calls) :
    (p.replay calls).Ordered ∧ (p.replay calls).binStep = p.binStep ∧
      ∀ k, binSum (binPrice k p.binStep) (p.bin k) ≤ binSum (binPrice k p.binStep) ((p.replay calls).bin k) := by
  obtain ⟨fs, id, hfinished, htraded⟩ := h.follows hp
  exact ⟨hfinished.ordered hp htraded, htraded.step, hfinished.worth htraded⟩

theorem Trades.keep (h : Trades p q) (hp : p.Ordered) : q.Ordered ∧ q.binStep = p.binStep ∧
    ∀ k, binSum (binPrice k p.binStep) (p.bin k) ≤ binSum (binPrice k p.binStep) (q.bin k) := by
  induction h with
  | done => exact ⟨hp, rfl, fun _ => le_rfl⟩
  | trade htrade _ ih =>
    obtain ⟨hordered, hstep, hworth⟩ := htrade.keeps hp
    obtain ⟨hq, hstep', hworth'⟩ := ih hordered
    rw [hstep] at hworth' hstep'
    exact ⟨hq, hstep', fun k => (hworth k).trans (hworth' k)⟩

/-- **Trades make nothing out of nothing.** Over any trades at a pair's own quotes, in either direction and with any logs of
either version for them, no bin comes to be worth less at its price, the bins stay in order about the active one, and the pair
holds less of one token only if it holds more of the other. -/
theorem binTrades_noGain (hp : p.Ordered) (h : Trades p q) : q.Ordered ∧
    (∀ k, binSum (binPrice k p.binStep) (p.bin k) ≤ binSum (binPrice k p.binStep) (q.bin k)) ∧
    ∀ b, q.total b < p.total b → p.total (!b) < q.total (!b) := by
  obtain ⟨hq, -, hworth⟩ := h.keep hp
  exact ⟨hq, hworth, fun b hless => hp.paid hq hworth hless⟩

/-- On a pair with one bin a trade is one round. -/
theorem Trade.only (hone : ∀ (k : Nat) r, p.bins[k]? = some r → k = p.activeId) (kept out fee : Nat) {acc now : Nat} {l : Log}
    (hpos : 0 < amountIn) (hlt : amountIn < 2 ^ 128) (hsells : 0 < p.reserveOut swapForY p.activeId)
    (hfit : p.grossCost swapForY t p.activeId (p.reserveOut swapForY p.activeId) < 2 ^ 128)
    (hround : p.swapOutBin swapForY t ⟨amountIn, 0, 0⟩ p.activeId (p.reserveOut swapForY p.activeId) = .ok ⟨0, out, fee⟩)
    (hkept : amountIn - fee ≤ kept ∧ kept ≤ amountIn) (hword : outSide (!swapForY) (p.bin p.activeId) + kept < 2 ^ 128)
    (hacc : acc < 2 ^ 32) (hlog : BinLogged swapForY p.activeId kept out acc l) : p.Trade swapForY t amountIn [(now, l)] := by
  have hwalk : p.roundAt swapForY (p.swapOutBin swapForY t) ⟨amountIn, 0, 0⟩ p.activeId = .ok ⟨0, out, fee⟩ := by
    rw [roundAt, if_pos hsells, hround]
  have hrun : p.simulateSwapOutAt amountIn swapForY t = .ok ⟨0, out, fee⟩ := by
    unfold simulateSwapOutAt
    rw [binLoop_succ, ← roundAt, hwalk, ok_bind, if_pos rfl]
  refine ⟨hpos, hlt, noOverflow_only hone hfit ⟨_, hround⟩, ⟨0, out, fee⟩,
    [(p.activeId, ⟨amountIn, 0, 0⟩, ⟨0, out, fee⟩)], ⟨hrun, [], _, _, .start, hwalk, rfl, .inl rfl⟩, rfl, ?_⟩
  have htook : flow (p.activeId, ⟨amountIn, 0, 0⟩, ⟨0, out, fee⟩) = ⟨p.activeId, amountIn, fee, out⟩ := rfl
  rw [List.map_singleton, htook, List.filter_cons_of_pos (by simpa using hpos)]
  exact .cons ⟨kept, acc, hkept.1, hkept.2, hword, hacc, hlog⟩ .nil

theorem oneBinPool_ordered : (oneBinPool (2 ^ 90)).Ordered := by
  refine ⟨oneBinPool_sound (by norm_num), ?_, ?_⟩
  · intro id r hb
    rw [(oneBinPool_bins hb).1]
    norm_num
  · intro b id hafter
    cases hb : (oneBinPool (2 ^ 90)).bins[id]? with
    | none =>
      unfold LBPool.bin
      rw [hb]
      cases b <;> rfl
    | some r =>
      rw [(oneBinPool_bins hb).1] at hafter
      have hsame : after b 8386608 8386608 = true := hafter
      rw [after_irrefl] at hsame
      cases hsame

/-- X sold for a thousand of Y, of which a tenth of the fee left the pair. -/
def soldLog : Log := ⟨0, .event (.lb (.swap 8386608 441272926583 (1000 * 2 ^ 128) 0)), none, none, none, none, none, false⟩

/-- Five hundred of Y paid for X. -/
def boughtLog : Log := ⟨0, .event (.lb (.swapV20 8386608 false 500 218325243909 0)), none, none, none, none, none, false⟩

/-- X sold and some of it bought back: the pair holds less of Y, and so more of X. -/
theorem binTrades_noGain_back : (oneBinPool (2 ^ 90)).total false <
    (((oneBinPool (2 ^ 90)).replay [(0, soldLog)]).replay [(0, boughtLog)]).total false := by
  have hsold : (oneBinPool (2 ^ 90)).Trade true 0 441493673419 [(0, soldLog)] :=
    .only (fun _ _ h => (oneBinPool_bins h).1) 441272926583 1000 2207468368 (by norm_num) (by norm_num) (by decide +kernel)
      (by decide +kernel) (by decide +kernel) (by norm_num) (by decide +kernel)
      (show 0 < 2 ^ 32 by norm_num) (.v21 _ _ rfl (by decide +kernel) (by decide +kernel))
  have hone : ∀ (k : Nat) r, ((oneBinPool (2 ^ 90)).replay [(0, soldLog)]).bins[k]? = some r → k = 8386608 := by
    intro k r hk
    obtain ⟨fs, id, hfinished, htraded⟩ := hsold.follows oneBinPool_ordered
    rcases htraded.mem k r hk with ⟨f, hf, rfl⟩ | ⟨s, hs⟩
    · obtain ⟨s, hs⟩ := hfinished.mem f hf
      exact (oneBinPool_bins hs).1
    · exact (oneBinPool_bins hs).1
  have hbought : ((oneBinPool (2 ^ 90)).replay [(0, soldLog)]).Trade false 0 500 [(0, boughtLog)] :=
    .only hone 500 218325243909 3 (by norm_num) (by norm_num) (by decide +kernel) (by decide +kernel) (by decide +kernel)
      (by norm_num) (by decide +kernel) (show 0 < 2 ^ 32 by norm_num) (.v20 rfl)
  obtain ⟨-, -, hpaid⟩ := binTrades_noGain oneBinPool_ordered (.trade hsold (.trade hbought (.done _)))
  exact hpaid true (by decide +kernel)

end EvmDexPool.LB.LBPool
