import EvmDexPool.LB.RoundTrip

/-!
# What an exact-input quote takes and gives

Every bin the walk leaves behind was taken whole, so what is left is the input less the whole costs
of the bins before (`wholeCost`), and the last bin takes what it can. A walk upwards that comes to
the last `u32` with something left looks for `id + 1` and does not return (`WalksOff`), nor does one that
comes to a bin whose id has no exponent in `i32` (`MeetsUnpriced`). Every other does.
-/

namespace EvmDexPool.LB.LBPool

variable {p : LBPool} {swapForY : Bool} {t amountIn : Nat}

/-- What one bin took and gave (`amount_in_bin`, `fee_bin`, `amount_out_bin`). -/
structure BinFlow where
  id : Nat
  amountIn : Nat
  fee : Nat
  amountOut : Nat

/-- The flow of a round, from the totals around it. -/
def flow (v : Nat × SwapOut × SwapOut) : BinFlow :=
  ⟨v.1, v.2.1.amountInLeft - v.2.2.amountInLeft, v.2.2.totalFee - v.2.1.totalFee,
    v.2.2.amountOut - v.2.1.amountOut⟩

/-- The output at the bin's price is worth no more than the net input. -/
def Affords (swapForY : Bool) (price net out : Nat) : Prop :=
  if swapForY then out * 2 ^ 128 ≤ net * price else out * price ≤ net * 2 ^ 128

/-- The constant sum of a bin. -/
def binSum (price : Nat) (r : Nat × Nat) : Nat := price * r.1 + 2 ^ 128 * r.2

/-- A bin's reserves after a trade. -/
def traded (swapForY : Bool) (r : Nat × Nat) (net out : Nat) : Nat × Nat :=
  if swapForY then (r.1 + net, r.2 - out) else (r.1 - out, r.2 + net)

theorem affords_of_le {price net out : Nat} (hnet : net < 2 ^ 128) (hp : price < 2 ^ 256)
    (h : out ≤ binOutput swapForY net price) : Affords swapForY price net out := by
  unfold Affords
  cases swapForY with
  | true =>
    rw [binOutput, if_pos rfl, mulShiftRoundDown_eq hnet hp, Nat.le_div_iff_mul_le (by norm_num)] at h
    rwa [if_pos rfl]
  | false =>
    rw [binOutput, if_neg Bool.false_ne_true, shiftDivRoundDown_eq hnet] at h
    rw [if_neg Bool.false_ne_true]
    exact (Nat.mul_le_mul_right _ h).trans (Nat.div_mul_le_self _ _)

/-- A trade the bin affords does not lower its constant sum. -/
theorem binSum_traded {price net out : Nat} {r : Nat × Nat} (h : Affords swapForY price net out)
    (hr : out ≤ outSide swapForY r) : binSum price r ≤ binSum price (traded swapForY r net out) := by
  obtain ⟨x, y⟩ := r
  unfold Affords at h
  unfold binSum traded
  cases swapForY with
  | true =>
    obtain ⟨d, rfl⟩ := Nat.exists_eq_add_of_le (show out ≤ y from hr)
    simp only [if_true, Nat.add_sub_cancel_left] at h ⊢
    rw [Nat.mul_add, Nat.mul_add, Nat.mul_comm price net, Nat.mul_comm _ out]
    omega
  | false =>
    obtain ⟨d, rfl⟩ := Nat.exists_eq_add_of_le (show out ≤ x from hr)
    simp only [Bool.false_eq_true, if_false, Nat.add_sub_cancel_left] at h ⊢
    rw [Nat.mul_add, Nat.mul_add, Nat.mul_comm price out, Nat.mul_comm _ net]
    omega

/-! ## A visit -/

/-- What a visit of a bin that can be priced does: `fee` is part of the amount, the rest affords the
output, and a bin that leaves something was taken whole. -/
theorem swapOutBin_flow (hp : p.Sound) {s s' : SwapOut} {id : Nat} (hr : 0 < p.reserveOut swapForY id)
    (hleft : s.amountInLeft < 2 ^ 128) (hfit : p.grossCost swapForY t id (p.reserveOut swapForY id) < 2 ^ 128)
    (h : p.swapOutBin swapForY t s id (p.reserveOut swapForY id) = .ok s') :
    ∃ net fee out, s.amountInLeft = s'.amountInLeft + (net + fee) ∧ s'.amountOut = s.amountOut + out ∧
      s'.totalFee = s.totalFee + fee ∧ out ≤ p.reserveOut swapForY id ∧
      Affords swapForY (binPrice id p.binStep) net out ∧
      net + fee ≤ p.grossCost swapForY t id (p.reserveOut swapForY id) ∧
      (s'.amountInLeft ≠ 0 →
        out = p.reserveOut swapForY id ∧ net + fee = p.grossCost swapForY t id (p.reserveOut swapForY id)) := by
  rw [swapOutBin_eq (priced_of_swapOutBin h)] at h
  obtain ⟨m, hm, h⟩ := bind_eq_ok.1 h
  obtain ⟨hmlt, rfl⟩ := toU128_eq_ok.1 hm
  unfold grossCost at hfit ⊢
  rw [Fixed.satAdd_of_lt hfit] at h
  split at h
  · rename_i hwhole
    obtain ⟨out, hout, h⟩ := bind_eq_ok.1 h
    obtain ⟨fee, hfee, h⟩ := bind_eq_ok.1 h
    obtain ⟨-, rfl⟩ := addU128_eq_ok.1 hout
    obtain ⟨-, rfl⟩ := addU128_eq_ok.1 hfee
    cases h
    refine ⟨_, _, _, (Nat.sub_add_cancel hwhole).symm, rfl, rfl, le_rfl, ?_, le_rfl, fun _ => ⟨rfl, rfl⟩⟩
    exact affords_of_le hmlt (binPrice_lt _ _) ((netCost_le_iff hp le_rfl hr hmlt).1 le_rfl)
  · rename_i hpart
    obtain ⟨b, hb, h⟩ := bind_eq_ok.1 h
    obtain ⟨out, hout, h⟩ := bind_eq_ok.1 h
    obtain ⟨fee, hfee, h⟩ := bind_eq_ok.1 h
    obtain ⟨-, rfl⟩ := toU128_eq_ok.1 hb
    obtain ⟨-, rfl⟩ := addU128_eq_ok.1 hout
    obtain ⟨-, rfl⟩ := addU128_eq_ok.1 hfee
    cases h
    have hle := getFeeAmountFrom_le (feeAt_le p t id) s.amountInLeft
    refine ⟨s.amountInLeft - getFeeAmountFrom s.amountInLeft (p.feeAt t id), _, _, by dsimp only; omega, rfl, rfl,
      Nat.min_le_right _ _, ?_, by omega, fun h => absurd rfl h⟩
    exact affords_of_le (by omega) (binPrice_lt _ _) (Nat.min_le_left _ _)

@[simp] theorem grossCost_zero (id : Nat) : p.grossCost swapForY t id 0 = 0 := by
  have hfee := precision_sub_pos (feeAt_le p t id)
  have hzero : getFeeAmount 0 (p.feeAt t id) = 0 := by
    unfold getFeeAmount
    rw [Nat.zero_mul, Nat.zero_add]
    exact Nat.div_eq_of_lt (by omega)
  have hnet : p.netCost swapForY id 0 = 0 := by
    unfold netCost binInput shiftDivRoundUp shiftDivRoundDown mulShiftRoundUp mulShiftRoundDown
    cases swapForY <;> simp
  rw [grossCost, hnet, hzero]

/-- What the bin asks for all it has to sell. -/
def wholeCost (p : LBPool) (swapForY : Bool) (t id : Nat) (r : Nat × Nat) : Nat :=
  p.grossCost swapForY t id (outSide swapForY r)

theorem wholeCost_empty (id : Nat) : p.wholeCost swapForY t id (0, 0) = 0 := by
  unfold wholeCost outSide
  rw [ite_self, grossCost_zero]

theorem wholeCost_bin (id : Nat) :
    p.wholeCost swapForY t id (p.bin id) = p.grossCost swapForY t id (p.reserveOut swapForY id) := rfl

/-- A round takes what its flow says; a bin with nothing to sell takes nothing. -/
theorem roundAt_flow (hp : p.Sound) {s s' : SwapOut} {id : Nat} (hleft : s.amountInLeft < 2 ^ 128)
    (hfit : 0 < p.reserveOut swapForY id → p.grossCost swapForY t id (p.reserveOut swapForY id) < 2 ^ 128)
    (h : p.roundAt swapForY (p.swapOutBin swapForY t) s id = .ok s') :
    ∃ net fee out, s.amountInLeft = s'.amountInLeft + (net + fee) ∧ s'.amountOut = s.amountOut + out ∧
      s'.totalFee = s.totalFee + fee ∧ out ≤ p.reserveOut swapForY id ∧
      Affords swapForY (binPrice id p.binStep) net out ∧
      net + fee ≤ p.grossCost swapForY t id (p.reserveOut swapForY id) ∧
      (s'.amountInLeft ≠ 0 →
        out = p.reserveOut swapForY id ∧ net + fee = p.grossCost swapForY t id (p.reserveOut swapForY id)) := by
  unfold roundAt at h
  split at h
  · rename_i hr
    exact swapOutBin_flow hp hr hleft (hfit hr) h
  · rename_i hr
    cases h
    obtain hr : p.reserveOut swapForY id = 0 := by omega
    rw [hr, grossCost_zero]
    refine ⟨0, 0, 0, rfl, rfl, rfl, le_rfl, ?_, le_rfl, fun _ => ⟨rfl, rfl⟩⟩
    unfold Affords
    split <;> simp

/-! ## The run -/

/-- The rounds of an exact-input quote. -/
def OutWalks (p : LBPool) (swapForY : Bool) (t amountIn : Nat) : List (Nat × SwapOut × SwapOut) → SwapOut → Nat → Prop :=
  Walks p swapForY (p.swapOutBin swapForY t) SwapOut.amountInLeft ⟨amountIn, 0, 0⟩

/-- Every `u128` value of the run fits: the whole costs of the bins it prices, and what a visit narrows and adds. -/
def NoOverflow (p : LBPool) (swapForY : Bool) (t amountIn : Nat) : Prop :=
  ∀ l s id, p.OutWalks swapForY t amountIn l s id → 0 < p.reserveOut swapForY id → Priced id →
    p.grossCost swapForY t id (p.reserveOut swapForY id) < 2 ^ 128 ∧
      ∃ s', p.swapOutBin swapForY t s id (p.reserveOut swapForY id) = .ok s'

theorem priced_of_roundAt {s s' : SwapOut} {id : Nat} (h : p.roundAt swapForY (p.swapOutBin swapForY t) s id = .ok s')
    (hr : 0 < p.reserveOut swapForY id) : Priced id := by
  rw [roundAt, if_pos hr] at h
  exact priced_of_swapOutBin h

/-- The whole bin of a round fits. -/
theorem NoOverflow.fits (hno : p.NoOverflow swapForY t amountIn) {l : List (Nat × SwapOut × SwapOut)} {s s' : SwapOut}
    {id : Nat} (hw : p.OutWalks swapForY t amountIn l s id)
    (hround : p.roundAt swapForY (p.swapOutBin swapForY t) s id = .ok s') (hr : 0 < p.reserveOut swapForY id) :
    p.grossCost swapForY t id (p.reserveOut swapForY id) < 2 ^ 128 :=
  (hno l s id hw hr (priced_of_roundAt hround hr)).1

/-- The books of a run: nothing of the input is lost, no bin gives more than it affords. -/
structure Settled (p : LBPool) (swapForY : Bool) (amountIn : Nat) (s : SwapOut) (l : List BinFlow) : Prop where
  conserved : s.amountInLeft + (l.map BinFlow.amountIn).sum = amountIn
  paid : s.amountOut = (l.map BinFlow.amountOut).sum ∧ s.totalFee = (l.map BinFlow.fee).sum
  solvent : ∀ f ∈ l, f.fee ≤ f.amountIn ∧ f.amountOut ≤ p.reserveOut swapForY f.id ∧
    Affords swapForY (binPrice f.id p.binStep) (f.amountIn - f.fee) f.amountOut ∧
    binSum (binPrice f.id p.binStep) (p.bin f.id) ≤
      binSum (binPrice f.id p.binStep) (traded swapForY (p.bin f.id) (f.amountIn - f.fee) f.amountOut)
  ordered : (l.map BinFlow.id).Pairwise fun a b => after swapForY a b

theorem settled_start : Settled p swapForY amountIn ⟨amountIn, 0, 0⟩ [] :=
  ⟨rfl, ⟨rfl, rfl⟩, nofun, .nil⟩

/-- A round later, the books still add up. -/
theorem Settled.round (hp : p.Sound) {s s' : SwapOut} {l : List BinFlow} {id : Nat} (h : Settled p swapForY amountIn s l)
    (hbefore : ∀ f ∈ l, after swapForY f.id id) (hleft : s.amountInLeft < 2 ^ 128)
    (hfit : 0 < p.reserveOut swapForY id → p.grossCost swapForY t id (p.reserveOut swapForY id) < 2 ^ 128)
    (hround : p.roundAt swapForY (p.swapOutBin swapForY t) s id = .ok s') :
    Settled p swapForY amountIn s' (l ++ [flow (id, s, s')]) := by
  obtain ⟨net, fee, out, hin, hout, hfee, hle, haff, -, -⟩ := roundAt_flow hp hleft hfit hround
  have hflow : flow (id, s, s') = ⟨id, net + fee, fee, out⟩ := by
    unfold flow
    rw [hin, hout, hfee]
    simp
  rw [hflow]
  obtain ⟨hcons, ⟨hpaid, hfees⟩, hsolv, hord⟩ := h
  refine ⟨?_, ⟨?_, ?_⟩, fun f hf => ?_, ?_⟩
  · rw [List.map_append, List.sum_append, List.map_singleton, List.sum_singleton]
    dsimp only
    omega
  · rw [List.map_append, List.sum_append, List.map_singleton, List.sum_singleton, hout, hpaid]
  · rw [List.map_append, List.sum_append, List.map_singleton, List.sum_singleton, hfee, hfees]
  · rcases List.mem_append.1 hf with hf | hf
    · exact hsolv f hf
    · rw [List.mem_singleton.1 hf]
      dsimp only
      rw [Nat.add_sub_cancel]
      exact ⟨Nat.le_add_left _ _, hle, haff, binSum_traded haff hle⟩
  · rw [List.map_append, List.map_singleton, List.pairwise_append]
    refine ⟨hord, List.pairwise_singleton _ _, fun a ha b hb => ?_⟩
    obtain ⟨f, hf, rfl⟩ := List.mem_map.1 ha
    rw [List.mem_singleton.1 hb]
    exact hbefore f hf

/-- What holds where the walk stands: the bins behind it were all taken whole. -/
structure Standing (p : LBPool) (swapForY : Bool) (t amountIn : Nat) (l : List BinFlow) (s : SwapOut) (id : Nat) : Prop where
  settled : Settled p swapForY amountIn s l
  passed : ∀ f ∈ l, p.onPath swapForY f.id ∧ after swapForY f.id id
  left : s.amountInLeft + p.sumBefore swapForY (p.wholeCost swapForY t) id = amountIn
  whole : ∀ k, p.onPath swapForY k → after swapForY k id → 0 < p.reserveOut swapForY k →
    ∃ f ∈ l, f.id = k ∧ f.amountOut = p.reserveOut swapForY k

theorem OutWalks.standing (hp : p.Sound) (ha : amountIn < 2 ^ 128) (hno : p.NoOverflow swapForY t amountIn)
    {l : List (Nat × SwapOut × SwapOut)} {s : SwapOut} {id : Nat} (h : p.OutWalks swapForY t amountIn l s id) :
    Standing p swapForY t amountIn (l.map flow) s id := by
  induction h with
  | start =>
    exact ⟨settled_start, nofun, by rw [sumBefore_active, Nat.add_zero], fun k hk hb => absurd hb (onPath_not_after hk)⟩
  | @next l s s' id n hw hround hleft hnext ih =>
    have hfit := hno.fits hw hround
    have hlt : s.amountInLeft < 2 ^ 128 := by have := ih.left; omega
    obtain ⟨net, fee, out, hin, hout, hfee, -, -, -, hwhole⟩ := roundAt_flow hp hlt hfit hround
    obtain ⟨hall, hcost⟩ := hwhole hleft
    have han := (next_some hnext).2.1
    rw [List.map_append, List.map_singleton]
    refine ⟨ih.settled.round hp (fun f hf => (ih.passed f hf).2) hlt hfit hround, fun f hf => ?_, ?_,
      fun k hk hb hr => ?_⟩
    · rcases List.mem_append.1 hf with hf | hf
      · exact ⟨(ih.passed f hf).1, after_trans (ih.passed f hf).2 han⟩
      · rw [List.mem_singleton.1 hf]
        exact ⟨hw.onPath, han⟩
    · rw [sumBefore_next wholeCost_empty hw.onPath hnext, wholeCost_bin]
      have := ih.left
      omega
    · rcases before_next hnext hr hb with hb | rfl
      · obtain ⟨f, hf, hfk⟩ := ih.whole k hk hb hr
        exact ⟨f, List.mem_append_left _ hf, hfk⟩
      · refine ⟨_, List.mem_append_right _ (List.mem_singleton_self _), rfl, ?_⟩
        change s'.amountOut - s.amountOut = _
        omega

/-! ## The end of the run -/

/-- The books of a whole quote, with the bins it came to. -/
structure Accounted (p : LBPool) (swapForY : Bool) (amountIn : Nat) (s : SwapOut) (l : List BinFlow) : Prop
    extends Settled p swapForY amountIn s l where
  onPath : ∀ f ∈ l, p.onPath swapForY f.id
  exhausted : 0 < s.amountInLeft → ∀ k, p.onPath swapForY k → 0 < p.reserveOut swapForY k →
    ∃ f ∈ l, f.id = k ∧ f.amountOut = p.reserveOut swapForY k

/-- The quote of these flows. -/
def Quotes (p : LBPool) (swapForY : Bool) (t amountIn : Nat) (s : SwapOut) (l : List (Nat × SwapOut × SwapOut)) : Prop :=
  p.simulateSwapOutAt amountIn swapForY t = .ok s ∧
    Finishes p swapForY (p.swapOutBin swapForY t) SwapOut.amountInLeft ⟨amountIn, 0, 0⟩ l s

/-- Going up with more than all the bins ask for, and one of them at the last `u32`. -/
def WalksOff (p : LBPool) (swapForY : Bool) (t amountIn : Nat) : Prop :=
  swapForY = false ∧ (p.activeId = 2 ^ 32 - 1 ∨ ∃ r, p.bins[2 ^ 32 - 1]? = some r) ∧
    p.sumPath swapForY (p.wholeCost swapForY t) < amountIn

/-- One of the bins that the input comes to, while the ones before have not used it up, has no price. -/
def MeetsUnpriced (p : LBPool) (swapForY : Bool) (t amountIn : Nat) : Prop :=
  ∃ id, p.onPath swapForY id ∧ 0 < p.reserveOut swapForY id ∧ ¬Priced id ∧
    (id = p.activeId ∨ p.sumBefore swapForY (p.wholeCost swapForY t) id < amountIn)

/-- Where a walk stands past the active bin, it has something left. -/
theorem outWalks_reached {l : List (Nat × SwapOut × SwapOut)} {s : SwapOut} {id : Nat}
    (h : p.OutWalks swapForY t amountIn l s id) : id = p.activeId ∨ 0 < s.amountInLeft := by
  cases h with
  | start => exact .inl rfl
  | next _ _ hleft _ => exact .inr (Nat.pos_of_ne_zero hleft)

section Run
variable (hp : p.Sound) (ha : amountIn < 2 ^ 128) (hno : p.NoOverflow swapForY t amountIn)
include hp ha hno

theorem finishes_accounted {s : SwapOut} {l : List (Nat × SwapOut × SwapOut)}
    (h : Finishes p swapForY (p.swapOutBin swapForY t) SwapOut.amountInLeft ⟨amountIn, 0, 0⟩ l s) :
    Accounted p swapForY amountIn s (l.map flow) := by
  obtain ⟨l₀, s₀, id, hw, hround, rfl, hend⟩ := h
  have hst := OutWalks.standing hp ha hno hw
  have hfit := hno.fits hw hround
  have hlt : s₀.amountInLeft < 2 ^ 128 := by have := hst.left; omega
  obtain ⟨net, fee, out, hin, hout, -, -, -, -, hwhole⟩ := roundAt_flow hp hlt hfit hround
  rw [List.map_append, List.map_singleton]
  refine ⟨hst.settled.round hp (fun f hf => (hst.passed f hf).2) hlt hfit hround, fun f hf => ?_, fun hpos k hk hr => ?_⟩
  · rcases List.mem_append.1 hf with hf | hf
    · exact (hst.passed f hf).1
    · rw [List.mem_singleton.1 hf]
      exact hw.onPath
  · have hnone := hend.resolve_left hpos.ne'
    obtain ⟨r, hb⟩ := reserveOut_pos hr
    rcases after_total swapForY k id with h1 | rfl | h1
    · obtain ⟨f, hf, hfk⟩ := hst.whole k hk h1 hr
      exact ⟨f, List.mem_append_left _ hf, hfk⟩
    · refine ⟨_, List.mem_append_right _ (List.mem_singleton_self _), rfl, ?_⟩
      have := (hwhole hpos.ne').1
      change s.amountOut - s₀.amountOut = _
      omega
    · exact absurd h1 (next_none hnone hb)

/-- A run that ends has spent its input or come to the last bin, so it was not one that walks off. -/
theorem finishes_not_walksOff {s : SwapOut} {l : List (Nat × SwapOut × SwapOut)}
    (h : Finishes p swapForY (p.swapOutBin swapForY t) SwapOut.amountInLeft ⟨amountIn, 0, 0⟩ l s) :
    ¬p.WalksOff swapForY t amountIn := by
  rintro ⟨rfl, hlast, hmore⟩
  obtain ⟨l₀, s₀, id, hw, hround, -, hend⟩ := h
  have hst := OutWalks.standing hp ha hno hw
  have hlt : s₀.amountInLeft < 2 ^ 128 := by have := hst.left; omega
  obtain ⟨net, fee, out, hin, -, -, -, -, hle, -⟩ := roundAt_flow hp hlt (hno.fits hw hround) hround
  have hpath := sumBefore_le_path wholeCost_empty hw.onPath (f := p.wholeCost false t)
  rw [wholeCost_bin] at hpath
  have hleft := hst.left
  have hnone := hend.resolve_left (by omega)
  have hid : id + 1 < 2 ^ 32 := by
    by_contra hid
    rw [nextNonEmptyBin, if_neg Bool.false_ne_true, if_neg hid] at hnone
    cases hnone
  rcases hlast with hact | ⟨r, hr⟩
  · have hon := hw.onPath
    simp only [LBPool.onPath, after, Bool.false_eq_true, if_false, Bool.or_eq_true, decide_eq_true_eq] at hon
    omega
  · have := next_none hnone hr
    simp only [after, Bool.false_eq_true, if_false, decide_eq_true_eq] at this
    omega

/-- A run that ends has visited every bin it came to, so they all had prices. -/
theorem finishes_priced {s : SwapOut} {l : List (Nat × SwapOut × SwapOut)}
    (h : Finishes p swapForY (p.swapOutBin swapForY t) SwapOut.amountInLeft ⟨amountIn, 0, 0⟩ l s) :
    ¬p.MeetsUnpriced swapForY t amountIn := by
  rintro ⟨k, hk, hr, hunpriced, hreached⟩
  obtain ⟨l₀, s₀, id, hw, hround, -, hend⟩ := h
  rcases after_total swapForY k id with hbefore | rfl | hafter
  · obtain ⟨l₁, s₁, s₂, -, hround₁⟩ := hw.at hk hr hbefore
    exact hunpriced (priced_of_roundAt hround₁ hr)
  · exact hunpriced (priced_of_roundAt hround hr)
  · -- past the last bin there is none, or the input is used up
    obtain ⟨r, hb⟩ := reserveOut_pos hr
    rcases hend with hleft | hnone
    · have hst := OutWalks.standing hp ha hno hw
      have hlt : s₀.amountInLeft < 2 ^ 128 := by have := hst.left; omega
      obtain ⟨net, fee, out, hin, -, -, -, -, hle, -⟩ := roundAt_flow hp hlt (hno.fits hw hround) hround
      have hsum := sumBefore_after (f := p.wholeCost swapForY t) wholeCost_empty hw.onPath hafter
      rw [wholeCost_bin] at hsum
      have hstand := hst.left
      rcases hreached with rfl | hlt
      · exact onPath_not_after hw.onPath hafter
      · omega
    · exact next_none hnone hb hafter

/-- A run that neither walks off nor meets a bin without a price ends. -/
theorem swapOut_returns (hact : p.activeId < 2 ^ 32) (hids : ∀ k r, p.bins[k]? = some r → k < 2 ^ 32)
    (h : ¬p.WalksOff swapForY t amountIn) (hmeets : ¬p.MeetsUnpriced swapForY t amountIn) : ∃ s, p.simulateSwapOutAt amountIn swapForY t = .ok s := by
  cases hrun : p.simulateSwapOutAt amountIn swapForY t with
  | ok s => exact ⟨s, rfl⟩
  | error e =>
    exfalso
    rcases binLoop_fails .start hrun with rfl | ⟨l, s, id, hw, hround | ⟨s', hround, hleft, hnext⟩⟩
    · exact simulateSwapOutAt_ne_diverges amountIn hrun
    · unfold roundAt at hround
      split at hround
      · rename_i hr
        have hpriced : Priced id := by
          by_contra hunpriced
          have hleft := (OutWalks.standing hp ha hno hw).left
          exact hmeets ⟨id, hw.onPath, hr, hunpriced, (outWalks_reached hw).imp_right fun h0 => by omega⟩
        obtain ⟨s', hs'⟩ := (hno l s id hw hr hpriced).2
        rw [hs'] at hround
        cases hround
      · cases hround
    · obtain ⟨rfl, hid, -⟩ := next_error hnext
      have hst := OutWalks.standing hp ha hno hw
      have hlt : s.amountInLeft < 2 ^ 128 := by have := hst.left; omega
      obtain ⟨net, fee, out, hin, -, -, -, -, -, hwhole⟩ :=
        roundAt_flow hp hlt (hno.fits hw hround) hround
      obtain ⟨-, hcost⟩ := hwhole hleft
      have hmem := hw.mem
      obtain rfl : id = 2 ^ 32 - 1 := by
        rcases hmem with rfl | ⟨r, hr⟩
        · omega
        · have := hids id r hr
          omega
      have hpath := sumPath_last (f := p.wholeCost false t) wholeCost_empty hw.onPath fun k r hk hafter => by
        have := hids k r hk
        simp only [after, Bool.false_eq_true, if_false, decide_eq_true_eq] at hafter
        omega
      rw [wholeCost_bin] at hpath
      refine h ⟨rfl, hmem.imp_left Eq.symm, ?_⟩
      have hsum := hst.left
      omega

end Run

/-- **An exact-input quote conserves its input and keeps its bins solvent**, where no `u128` value
overflows, exactly when it does not walk off the last id and meets no bin without a price. -/
theorem swapOut_accounted (hp : p.Sound) (hact : p.activeId < 2 ^ 32) (hids : ∀ k r, p.bins[k]? = some r → k < 2 ^ 32)
    (ha : amountIn < 2 ^ 128) (hno : p.NoOverflow swapForY t amountIn) :
    (∃ s l, p.Quotes swapForY t amountIn s l ∧ Accounted p swapForY amountIn s (l.map flow)) ↔
      ¬p.WalksOff swapForY t amountIn ∧ ¬p.MeetsUnpriced swapForY t amountIn := by
  constructor
  · rintro ⟨s, l, ⟨-, hfin⟩, -⟩
    exact ⟨finishes_not_walksOff hp ha hno hfin, finishes_priced hp ha hno hfin⟩
  · rintro ⟨h, hmeets⟩
    obtain ⟨s, hs⟩ := swapOut_returns hp ha hno hact hids h hmeets
    obtain ⟨l, hfin⟩ := binLoop_finishes .start hs
    exact ⟨s, l, ⟨hs, hfin⟩, finishes_accounted hp ha hno hfin⟩

/-! ## One bin -/

/-- With the active bin alone there is one round. -/
theorem OutWalks.only (hone : ∀ k r, p.bins[k]? = some r → k = p.activeId) {l : List (Nat × SwapOut × SwapOut)}
    {s : SwapOut} {id : Nat} (h : p.OutWalks swapForY t amountIn l s id) : s = ⟨amountIn, 0, 0⟩ ∧ id = p.activeId := by
  cases h with
  | start => exact ⟨rfl, rfl⟩
  | next hw _ _ hnext =>
    exfalso
    obtain ⟨⟨r, hr⟩, han, -⟩ := next_some hnext
    have hid : _ = p.activeId := hw.mem.elim (fun h => h) fun ⟨_, hb⟩ => hone _ _ hb
    rw [hone _ r hr, hid, after_irrefl] at han
    cases han

theorem noOverflow_only (hone : ∀ k r, p.bins[k]? = some r → k = p.activeId)
    (hfit : p.grossCost swapForY t p.activeId (p.reserveOut swapForY p.activeId) < 2 ^ 128)
    (hok : ∃ s', p.swapOutBin swapForY t ⟨amountIn, 0, 0⟩ p.activeId (p.reserveOut swapForY p.activeId) = .ok s') :
    p.NoOverflow swapForY t amountIn := by
  intro l s id hw _ _
  obtain ⟨rfl, rfl⟩ := OutWalks.only hone hw
  exact ⟨hfit, hok⟩

theorem oneBinPool_noOverflow : (oneBinPool (2 ^ 90)).NoOverflow true 0 441493673419 :=
  noOverflow_only (fun _ _ h => (oneBinPool_bins h).1) (by decide +kernel)
    ⟨⟨0, 1000, 2207468368⟩, by decide +kernel⟩

theorem swapOut_accounted_one :
    (∃ s l, (oneBinPool (2 ^ 90)).Quotes true 0 441493673419 s l ∧
      Accounted (oneBinPool (2 ^ 90)) true 441493673419 s (l.map flow)) ↔
      ¬(oneBinPool (2 ^ 90)).WalksOff true 0 441493673419 ∧ ¬(oneBinPool (2 ^ 90)).MeetsUnpriced true 0 441493673419 :=
  swapOut_accounted (oneBinPool_sound (by norm_num)) (by decide)
    (fun k r h => by rw [(oneBinPool_bins h).1]; norm_num) (by norm_num) oneBinPool_noOverflow

/-- The pair with its X in the bin at the last `u32`, where a deposit to an id past it is booked. -/
def lastBinPool : LBPool :=
  { oneBinPool 0 with activeId := 8388608, bins := (∅ : Std.ExtTreeMap Nat (Nat × Nat)).insert (2 ^ 32 - 1) (7, 0) }

theorem lastBinPool_bins {id : Nat} {r : Nat × Nat} (h : lastBinPool.bins[id]? = some r) :
    id = 2 ^ 32 - 1 ∧ r = (7, 0) := by
  change ((∅ : Std.ExtTreeMap Nat (Nat × Nat)).insert (2 ^ 32 - 1) (7, 0))[id]? = some r at h
  rw [Ranges.lookup_insert] at h
  split at h
  · exact ⟨‹_›, (Option.some.inj h).symm⟩
  · simp at h

theorem lastBinPool_sound : lastBinPool.Sound := by
  constructor
  · intro id r hb
    obtain ⟨-, rfl⟩ := lastBinPool_bins hb
    exact ⟨by norm_num, by norm_num⟩
  · intro id r hb
    obtain ⟨rfl, -⟩ := lastBinPool_bins hb
    change getPriceFromId (2 ^ 32 - 1) 100 ≠ .ok 0
    decide +kernel

theorem lastBinPool_noOverflow : lastBinPool.NoOverflow false 0 100 := by
  have hpos : ∀ id, 0 < lastBinPool.reserveOut false id → id = 2 ^ 32 - 1 := fun id hr => by
    obtain ⟨r, hb⟩ := reserveOut_pos hr
    exact (lastBinPool_bins hb).1
  have hfirst : ∀ l s id, lastBinPool.OutWalks false 0 100 l s id → s = ⟨100, 0, 0⟩ := by
    intro l s id hw
    induction hw with
    | start => rfl
    | @next l s s' id n hw hround _ hnext ih =>
      unfold roundAt at hround
      split at hround
      · rw [hpos id ‹_›] at hnext
        cases hnext
      · cases hround
        exact ih
  intro l s id hw hr _
  obtain rfl := hpos id hr
  obtain rfl := hfirst l s _ hw
  exact ⟨by decide +kernel, ⟨92, 7, 1⟩, by decide +kernel⟩

/-- The pair with its X in an active bin whose exponent `i32` cannot hold. -/
def unpricedBinPool : LBPool :=
  { oneBinPool 0 with activeId := 2 ^ 31, bins := (∅ : Std.ExtTreeMap Nat (Nat × Nat)).insert (2 ^ 31) (7, 0) }

theorem unpricedBinPool_bins {id : Nat} {r : Nat × Nat} (h : unpricedBinPool.bins[id]? = some r) :
    id = 2 ^ 31 ∧ r = (7, 0) := by
  change ((∅ : Std.ExtTreeMap Nat (Nat × Nat)).insert (2 ^ 31) (7, 0))[id]? = some r at h
  rw [Ranges.lookup_insert] at h
  split at h
  · exact ⟨‹_›, (Option.some.inj h).symm⟩
  · simp at h

theorem unpricedBinPool_sound : unpricedBinPool.Sound := by
  constructor
  · intro id r hb
    obtain ⟨-, rfl⟩ := unpricedBinPool_bins hb
    exact ⟨by norm_num, by norm_num⟩
  · intro id r hb
    obtain ⟨rfl, -⟩ := unpricedBinPool_bins hb
    rw [getPriceFromId_of_not (by decide)]
    nofun

theorem unpricedBinPool_noOverflow : unpricedBinPool.NoOverflow false 0 100 := by
  intro l s id _ hr hpriced
  obtain ⟨r, hb⟩ := reserveOut_pos hr
  obtain ⟨rfl, -⟩ := unpricedBinPool_bins hb
  exact absurd hpriced (by decide)

/-- In the one pair a hundred of Y buys the seven of X, and then the walk looks for bin `2^32`; in the
other the exponent of the active bin overflows. -/
theorem swapOut_accounted_fails :
    (lastBinPool.Sound ∧ lastBinPool.NoOverflow false 0 100 ∧
      lastBinPool.simulateSwapOutAt 100 false 0 = .error .overflow ∧
      ¬∃ s l, lastBinPool.Quotes false 0 100 s l ∧ Accounted lastBinPool false 100 s (l.map flow)) ∧
    unpricedBinPool.Sound ∧ unpricedBinPool.NoOverflow false 0 100 ∧
      unpricedBinPool.simulateSwapOutAt 100 false 0 = .error .overflow ∧
      ¬∃ s l, unpricedBinPool.Quotes false 0 100 s l ∧ Accounted unpricedBinPool false 100 s (l.map flow) := by
  have hlast : lastBinPool.simulateSwapOutAt 100 false 0 = .error .overflow := by decide +kernel
  have hunpriced : unpricedBinPool.simulateSwapOutAt 100 false 0 = .error .overflow := by decide +kernel
  refine ⟨⟨lastBinPool_sound, lastBinPool_noOverflow, hlast, ?_⟩, unpricedBinPool_sound, unpricedBinPool_noOverflow,
    hunpriced, ?_⟩
  · rintro ⟨s, l, ⟨hok, -⟩, -⟩
    rw [hlast] at hok
    cases hok
  · rintro ⟨s, l, ⟨hok, -⟩, -⟩
    rw [hunpriced] at hok
    cases hok

end EvmDexPool.LB.LBPool
