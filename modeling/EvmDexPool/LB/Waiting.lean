import EvmDexPool.LB.SwapOut

/-!
# Waiting lowers the fee

From the filter period on, time only lets the volatility reference decay, so a later quote charges
no more in any bin (`feeAt_anti`). The two walks then make the same rounds until the earlier one has
spent its input. What the later one has left over is not less but more: it went further for less, and
keeps the rest when the bins run out (`waiting_leaves_more`).
-/

namespace EvmDexPool.LB.LBPool

variable {p : LBPool} {swapForY : Bool} {t t' : Nat}

/-- Past the filter period the fee does not rise with time. -/
theorem feeAt_anti (h : p.timeOfLastUpdate + p.filterPeriod ≤ t) (htt : t ≤ t') (id : Nat) :
    p.feeAt t' id ≤ p.feeAt t id := by
  have hfilter : ∀ u, t ≤ u → p.updateReferences u =
      (if u - p.timeOfLastUpdate < p.decayPeriod then
        p.volatilityAccumulator * p.reductionFactor / 10000 % 2 ^ 32 else 0, p.activeId) := fun u hu => by
    unfold updateReferences
    rw [if_pos (show u - p.timeOfLastUpdate ≥ p.filterPeriod by omega)]
  unfold feeAt
  rw [hfilter t le_rfl, hfilter t' htt]
  refine getTotalFee_mono ?_
  unfold computeVolatilityAccumulator
  dsimp only
  have href : (if t' - p.timeOfLastUpdate < p.decayPeriod then
      p.volatilityAccumulator * p.reductionFactor / 10000 % 2 ^ 32 else 0) ≤
      if t - p.timeOfLastUpdate < p.decayPeriod then
        p.volatilityAccumulator * p.reductionFactor / 10000 % 2 ^ 32 else 0 := by
    split
    · rw [if_pos (by omega)]
    · exact Nat.zero_le _
  omega

/-! ## What a round buys -/

theorem swapOutBin_grows {s s' : SwapOut} {id r : Nat} (h : p.swapOutBin swapForY t s id r = .ok s') :
    s.amountOut ≤ s'.amountOut ∧ (s'.amountInLeft ≠ 0 → s'.amountOut = s.amountOut + r) := by
  rw [swapOutBin_eq (priced_of_swapOutBin h)] at h
  obtain ⟨m, -, h⟩ := bind_eq_ok.1 h
  split at h
  · obtain ⟨out, ho, h⟩ := bind_eq_ok.1 h
    obtain ⟨f, -, h⟩ := bind_eq_ok.1 h
    obtain ⟨-, rfl⟩ := addU128_eq_ok.1 ho
    cases h
    exact ⟨Nat.le_add_right _ _, fun _ => rfl⟩
  · obtain ⟨b, -, h⟩ := bind_eq_ok.1 h
    obtain ⟨out, ho, h⟩ := bind_eq_ok.1 h
    obtain ⟨f, -, h⟩ := bind_eq_ok.1 h
    obtain ⟨-, rfl⟩ := addU128_eq_ok.1 ho
    cases h
    exact ⟨Nat.le_add_right _ _, fun h => absurd rfl h⟩

/-- A round that leaves something has bought the whole bin. -/
theorem roundAt_whole {s s' : SwapOut} {id : Nat} (h : p.roundAt swapForY (p.swapOutBin swapForY t) s id = .ok s')
    (hleft : s'.amountInLeft ≠ 0) : s'.amountOut = s.amountOut + p.reserveOut swapForY id := by
  unfold roundAt at h
  split at h
  · exact (swapOutBin_grows h).2 hleft
  · cases h
    omega

section
variable (hfee : ∀ id, p.feeAt t' id ≤ p.feeAt t id)
include hfee

theorem grossCost_anti (id out : Nat) : p.grossCost swapForY t' id out ≤ p.grossCost swapForY t id out :=
  Nat.add_le_add_left (getFeeAmount_fee_mono (hfee id) (feeAt_le p t id)) _

/-! ## An exact output -/

/-- In the same state the later quote asks for no more. -/
theorem swapInBin_waits {s s' u u' : SwapIn} {id r : Nat} (hin : s'.amountIn ≤ s.amountIn)
    (hout : s'.amountOutLeft = s.amountOutLeft) (hu : p.swapInBin swapForY t s id r = .ok u)
    (hu' : p.swapInBin swapForY t' s' id r = .ok u') :
    u'.amountIn ≤ u.amountIn ∧ u'.amountOutLeft = u.amountOutLeft := by
  obtain ⟨-, -, -, rfl⟩ := swapInBin_eq_ok.1 hu
  obtain ⟨-, -, -, rfl⟩ := swapInBin_eq_ok.1 hu'
  rw [hout]
  exact ⟨Nat.add_le_add hin (grossCost_anti hfee _ _), rfl⟩

theorem swapIn_waits : ∀ {fuel : Nat} {s s' e e' : SwapIn} {id : Nat}, s'.amountIn ≤ s.amountIn →
    s'.amountOutLeft = s.amountOutLeft →
    p.binLoop swapForY (p.swapInBin swapForY t) SwapIn.amountOutLeft fuel s id = .ok e →
    p.binLoop swapForY (p.swapInBin swapForY t') SwapIn.amountOutLeft fuel s' id = .ok e' →
    e'.amountIn ≤ e.amountIn ∧ e'.amountOutLeft = e.amountOutLeft
  | 0, _, _, _, _, _, _, _, h, _ => by cases h
  | fuel + 1, s, s', e, e', id, hin, hout, h, h' => by
    rw [binLoop_succ] at h h'
    obtain ⟨u, hu, h⟩ := bind_eq_ok.1 h
    obtain ⟨u', hu', h'⟩ := bind_eq_ok.1 h'
    have hround : u'.amountIn ≤ u.amountIn ∧ u'.amountOutLeft = u.amountOutLeft := by
      split at hu
      · rw [if_pos ‹_›] at hu'
        exact swapInBin_waits hfee hin hout hu hu'
      · rw [if_neg ‹_›] at hu'
        cases hu
        cases hu'
        exact ⟨hin, hout⟩
    rw [hround.2] at h'
    split at h
    · rw [if_pos ‹_›] at h'
      cases h
      cases h'
      exact hround
    · rw [if_neg ‹_›] at h'
      obtain ⟨o, hnext, h⟩ := bind_eq_ok.1 h
      rw [hnext, ok_bind] at h'
      cases o with
      | none =>
        cases h
        cases h'
        exact hround
      | some n => exact swapIn_waits hround.1 hround.2 h h'

/-! ## An exact input -/

/-- With no less to spend the later quote has no less left and buys no less. -/
theorem swapOutBin_waits {s s' u u' : SwapOut} {id r : Nat} (hlt : s'.amountInLeft < 2 ^ 128)
    (hin : s.amountInLeft ≤ s'.amountInLeft) (hout : s.amountOut ≤ s'.amountOut)
    (hu : p.swapOutBin swapForY t s id r = .ok u) (hu' : p.swapOutBin swapForY t' s' id r = .ok u') :
    u.amountInLeft ≤ u'.amountInLeft ∧ u.amountOut ≤ u'.amountOut ∧ u'.amountInLeft ≤ s'.amountInLeft := by
  have hid := priced_of_swapOutBin hu
  rw [swapOutBin_eq hid] at hu hu'
  obtain ⟨m, hm, hu⟩ := bind_eq_ok.1 hu
  rw [hm, ok_bind] at hu'
  have hmax : getFeeAmount m (p.feeAt t' id) ≤ getFeeAmount m (p.feeAt t id) :=
    getFeeAmount_fee_mono (hfee id) (feeAt_le p t id)
  have hcost : Fixed.satAdd 128 m (getFeeAmount m (p.feeAt t' id)) ≤
      Fixed.satAdd 128 m (getFeeAmount m (p.feeAt t id)) := by
    unfold Fixed.satAdd
    omega
  split at hu
  · -- a bin the earlier quote takes whole, the later one can
    rw [if_pos (by omega)] at hu'
    obtain ⟨out, ho, hu⟩ := bind_eq_ok.1 hu
    obtain ⟨f, hf, hu⟩ := bind_eq_ok.1 hu
    obtain ⟨out', ho', hu'⟩ := bind_eq_ok.1 hu'
    obtain ⟨f', hf', hu'⟩ := bind_eq_ok.1 hu'
    obtain ⟨-, rfl⟩ := addU128_eq_ok.1 ho
    obtain ⟨-, rfl⟩ := addU128_eq_ok.1 ho'
    cases hu
    cases hu'
    dsimp only
    omega
  · obtain ⟨b, hb, hu⟩ := bind_eq_ok.1 hu
    obtain ⟨out, ho, hu⟩ := bind_eq_ok.1 hu
    obtain ⟨f, hf, hu⟩ := bind_eq_ok.1 hu
    obtain ⟨-, rfl⟩ := toU128_eq_ok.1 hb
    obtain ⟨-, rfl⟩ := addU128_eq_ok.1 ho
    cases hu
    split at hu'
    · obtain ⟨out', ho', hu'⟩ := bind_eq_ok.1 hu'
      obtain ⟨f', hf', hu'⟩ := bind_eq_ok.1 hu'
      obtain ⟨-, rfl⟩ := addU128_eq_ok.1 ho'
      cases hu'
      dsimp only
      omega
    · obtain ⟨b', hb', hu'⟩ := bind_eq_ok.1 hu'
      obtain ⟨out', ho', hu'⟩ := bind_eq_ok.1 hu'
      obtain ⟨f', hf', hu'⟩ := bind_eq_ok.1 hu'
      obtain ⟨-, rfl⟩ := toU128_eq_ok.1 hb'
      obtain ⟨-, rfl⟩ := addU128_eq_ok.1 ho'
      cases hu'
      have hnet := sub_getFeeAmountFrom_mono hin (hfee id) (feeAt_le p t id)
      have hbuy : p.bought swapForY id _ ≤ p.bought swapForY id _ :=
        binOutput_mono hnet (by omega) (binPrice_lt _ _)
      dsimp only
      omega

/-- The later walk ends no poorer and no earlier. -/
theorem swapOut_waits : ∀ {fuel : Nat} {s s' e e' : SwapOut} {id : Nat}, s'.amountInLeft < 2 ^ 128 →
    s.amountInLeft ≤ s'.amountInLeft → s.amountOut ≤ s'.amountOut →
    p.binLoop swapForY (p.swapOutBin swapForY t) SwapOut.amountInLeft fuel s id = .ok e →
    p.binLoop swapForY (p.swapOutBin swapForY t') SwapOut.amountInLeft fuel s' id = .ok e' →
    e.amountInLeft ≤ e'.amountInLeft ∧ e.amountOut ≤ e'.amountOut
  | 0, _, _, _, _, _, _, _, _, h, _ => by cases h
  | fuel + 1, s, s', e, e', id, hlt, hin, hout, h, h' => by
    rw [binLoop_succ] at h h'
    obtain ⟨u, hu, h⟩ := bind_eq_ok.1 h
    obtain ⟨u', hu', h'⟩ := bind_eq_ok.1 h'
    obtain ⟨hleft, hbuy, hless⟩ :
        u.amountInLeft ≤ u'.amountInLeft ∧ u.amountOut ≤ u'.amountOut ∧ u'.amountInLeft ≤ s'.amountInLeft := by
      split at hu
      · rw [if_pos ‹_›] at hu'
        exact swapOutBin_waits hfee hlt hin hout hu hu'
      · rw [if_neg ‹_›] at hu'
        cases hu
        cases hu'
        exact ⟨hin, hout, le_rfl⟩
    by_cases h0' : u'.amountInLeft = 0
    · rw [if_pos (by omega)] at h
      rw [if_pos h0'] at h'
      cases h
      cases h'
      exact ⟨hleft, hbuy⟩
    rw [if_neg h0'] at h'
    obtain ⟨o, hnext, h'⟩ := bind_eq_ok.1 h'
    by_cases h0 : u.amountInLeft = 0
    · -- the earlier quote is done, the later one can only buy more
      rw [if_pos h0] at h
      cases h
      refine ⟨by omega, hbuy.trans ?_⟩
      cases o with
      | none => exact (congrArg SwapOut.amountOut (Except.ok.inj h')).le
      | some n =>
        exact binLoop_invariant (P := fun e => u'.amountOut ≤ e.amountOut)
          (fun _ _ _ _ hle hv => hle.trans (swapOutBin_grows hv).1) fuel le_rfl h'
    · rw [if_neg h0, hnext, ok_bind] at h
      cases o with
      | none =>
        cases h
        cases h'
        exact ⟨hleft, hbuy⟩
      | some n => exact swapOut_waits (by omega) hleft hbuy h h'

end

/-! ## What is left over -/

theorem reservesBefore (p : LBPool) (swapForY : Bool) (id : Nat) :
    p.sumBefore swapForY (fun _ => outSide swapForY) id = p.reserveBefore swapForY id := rfl

/-- A walk that has not spent its input has bought every bin behind it. -/
theorem walks_bought {amountIn : Nat} {l : List (Nat × SwapOut × SwapOut)} {s : SwapOut} {id : Nat}
    (h : p.OutWalks swapForY t amountIn l s id) : s.amountOut = p.reserveBefore swapForY id := by
  induction h with
  | start => exact reserveBefore_active.symm
  | @next l s s' id n hw hround hleft hnext ih =>
    rw [reserveBefore_next hw.onPath hnext, ← ih]
    exact (roundAt_whole hround hleft)

/-- Input is left over only when the bins have run out. -/
theorem left_exhausted {amountIn : Nat} {s : SwapOut} (h : p.simulateSwapOutAt amountIn swapForY t = .ok s)
    (hleft : 0 < s.amountInLeft) : s.amountOut = p.sumPath swapForY fun _ => outSide swapForY := by
  obtain ⟨l, l₀, s₀, id, hw, hround, -, hend⟩ := binLoop_finishes .start h
  have hnone := hend.resolve_left hleft.ne'
  rw [sumPath_last (fun _ => by cases swapForY <;> rfl) hw.onPath fun k r hk => next_none hnone hk, reservesBefore,
    ← walks_bought hw]
  exact roundAt_whole hround hleft.ne'

/-- **Waiting makes a quote buy more, ask less, and leave more over.** Past the filter period the later
exact-input quote gives no less and leaves no less, more than nothing only when it has bought every bin
from the active one on; the later exact-output quote asks no more for the same output. -/
theorem waiting_improves {amount : Nat} (h : p.timeOfLastUpdate + p.filterPeriod ≤ t) (htt : t ≤ t')
    (ha : amount < 2 ^ 128) :
    (∀ s s', p.simulateSwapOutAt amount swapForY t = .ok s → p.simulateSwapOutAt amount swapForY t' = .ok s' →
      s.amountOut ≤ s'.amountOut ∧ s.amountInLeft ≤ s'.amountInLeft ∧
        (0 < s'.amountInLeft → s'.amountOut = p.sumPath swapForY fun _ => outSide swapForY)) ∧
    ∀ s s', p.simulateSwapInAt amount swapForY t = .ok s → p.simulateSwapInAt amount swapForY t' = .ok s' →
      s'.amountIn ≤ s.amountIn ∧ s'.amountOutLeft = s.amountOutLeft := by
  have hfee := feeAt_anti h htt
  refine ⟨fun s s' hs hs' => ?_, fun s s' hs hs' => swapIn_waits hfee le_rfl rfl hs hs'⟩
  obtain ⟨hleft, hout⟩ := swapOut_waits hfee ha le_rfl le_rfl hs hs'
  exact ⟨hout, hleft, left_exhausted hs'⟩

/-- A million of Y at parity, half of its volatility still to decay at time 100 and all of it gone at 600. -/
def restlessPool : LBPool :=
  { oneBinPool 0 with
    activeId := 8388608
    bins := (∅ : Std.ExtTreeMap Nat (Nat × Nat)).insert 8388608 (0, 1000000)
    volatilityAccumulator := 100000 }

theorem restlessPool_bins {id : Nat} {r : Nat × Nat} (h : restlessPool.bins[id]? = some r) :
    id = 8388608 ∧ r = (0, 1000000) := by
  change ((∅ : Std.ExtTreeMap Nat (Nat × Nat)).insert 8388608 (0, 1000000))[id]? = some r at h
  rw [Ranges.lookup_insert] at h
  split at h
  · exact ⟨‹_›, (Option.some.inj h).symm⟩
  · simp at h

theorem restlessPool_sound : restlessPool.Sound := by
  constructor
  · intro id r hb
    obtain ⟨-, rfl⟩ := restlessPool_bins hb
    exact ⟨by norm_num, by norm_num⟩
  · intro id r hb
    obtain ⟨rfl, -⟩ := restlessPool_bins hb
    change getPriceFromId 8388608 100 ≠ .ok 0
    decide +kernel

/-- Half of the bin, at 100 and at 600. -/
theorem waiting_improves_half :
    ∃ s s', restlessPool.simulateSwapOutAt 507615 true 100 = .ok s ∧
      restlessPool.simulateSwapOutAt 507615 true 600 = .ok s' ∧ s.amountOut ≤ s'.amountOut := by
  have hearly : restlessPool.simulateSwapOutAt 507615 true 100 = .ok ⟨0, 500000, 7615⟩ := by decide +kernel
  have hlate : restlessPool.simulateSwapOutAt 507615 true 600 = .ok ⟨0, 505076, 2539⟩ := by decide +kernel
  exact ⟨_, _, hearly, hlate,
    ((waiting_improves (by decide) (by decide) (by norm_num)).1 _ _ hearly hlate).1⟩

/-- The whole bin costs 1015229 at 100 and 10203 less at 600, which is left over. -/
theorem waiting_leaves_more :
    ¬ ∀ (p : LBPool) (swapForY : Bool) (t t' amount : Nat) (s s' : SwapOut), p.Sound →
      p.timeOfLastUpdate + p.filterPeriod ≤ t → t ≤ t' → p.NoOverflow swapForY t amount →
      p.NoOverflow swapForY t' amount → p.simulateSwapOutAt amount swapForY t = .ok s →
      p.simulateSwapOutAt amount swapForY t' = .ok s' → s'.amountInLeft ≤ s.amountInLeft := by
  intro h
  have hone := fun k r (hb : restlessPool.bins[k]? = some r) => (restlessPool_bins hb).1
  have hmore := h restlessPool true 100 600 1015229 ⟨0, 1000000, 15229⟩ ⟨10203, 1000000, 5026⟩ restlessPool_sound
    (by decide) (by decide) (noOverflow_only hone (by decide +kernel) ⟨⟨0, 1000000, 15229⟩, by decide +kernel⟩)
    (noOverflow_only hone (by decide +kernel) ⟨⟨10203, 1000000, 5026⟩, by decide +kernel⟩) (by decide +kernel)
    (by decide +kernel)
  exact absurd hmore (by decide)

end EvmDexPool.LB.LBPool
