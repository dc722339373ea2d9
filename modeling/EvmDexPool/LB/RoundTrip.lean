import EvmDexPool.LB.Walk

/-!
# Exact output, then exact input

`simulate_swap_in_at` prices an output bin by bin; feeding the input it asks for to
`simulate_swap_out_at` walks the same bins. In every bin but the last both take the whole
reserve, for the same input and fee. In the last one the net input is recovered exactly from the
gross one (`sub_getFeeAmountFrom_gross`) and buys at least what was asked (`binInput_le_iff`).

The forward quote however prices the *whole* reserve of every bin it enters, also of the last,
and narrows that to `u128` with `to()`, and it adds up what it buys, which may be more than was
asked: `Buyable` says when neither goes wrong, and the round trip holds exactly then
(`swapIn_then_swapOut`).
-/

namespace EvmDexPool.LB.LBPool

variable {p : LBPool} {swapForY : Bool} {t : Nat}

/-- The pools the quotes are about: `u128` reserves and nonzero bin prices. -/
structure Sound (p : LBPool) : Prop where
  reserves : ∀ (id : Nat) (r : Nat × Nat), p.bins[id]? = some r → r.1 < 2 ^ 128 ∧ r.2 < 2 ^ 128
  prices : ∀ (id : Nat) (r : Nat × Nat), p.bins[id]? = some r → getPriceFromId id p.binStep ≠ .ok 0

theorem Sound.reserveOut_lt (h : p.Sound) (swapForY : Bool) (id : Nat) : p.reserveOut swapForY id < 2 ^ 128 := by
  cases hb : p.bins[id]? with
  | none => rw [reserveOut_none hb]; norm_num
  | some r =>
    obtain ⟨h1, h2⟩ := h.reserves id r hb
    cases swapForY <;> simpa [reserveOut, bin, hb, outSide]

theorem Sound.price_pos (h : p.Sound) {id : Nat} (hr : 0 < p.reserveOut swapForY id) :
    0 < binPrice id p.binStep := by
  cases hb : p.bins[id]? with
  | none => rw [reserveOut_none hb] at hr; omega
  | some r => exact binPrice_pos (h.prices id r hb)

/-! ## What a bin asks for an output -/

/-- The net input bin `id` asks for `out`. -/
def netCost (p : LBPool) (swapForY : Bool) (id out : Nat) : Nat :=
  binInput swapForY out (binPrice id p.binStep)

/-- The same with the fee of a quote at `t` added. -/
def grossCost (p : LBPool) (swapForY : Bool) (t id out : Nat) : Nat :=
  p.netCost swapForY id out + getFeeAmount (p.netCost swapForY id out) (p.feeAt t id)

/-- The output bin `id` pays for a net input. -/
def bought (p : LBPool) (swapForY : Bool) (id inp : Nat) : Nat :=
  binOutput swapForY inp (binPrice id p.binStep)

theorem feeAt_le (p : LBPool) (t id : Nat) : p.feeAt t id ≤ MAX_FEE := getTotalFee_le _ _ _ _

theorem netCost_mono (hp : p.Sound) {id a b : Nat} (h : a ≤ b) (hb : b ≤ p.reserveOut swapForY id)
    (hr : 0 < p.reserveOut swapForY id) : p.netCost swapForY id a ≤ p.netCost swapForY id b :=
  binInput_mono h (hb.trans_lt (hp.reserveOut_lt swapForY id)) (hp.price_pos hr) (binPrice_lt _ _)

theorem netCost_pos (hp : p.Sound) (id : Nat) {a : Nat} (h : 0 < a) (ha : a ≤ p.reserveOut swapForY id) :
    0 < p.netCost swapForY id a :=
  binInput_pos h (ha.trans_lt (hp.reserveOut_lt swapForY id)) (hp.price_pos (h.trans_le ha)) (binPrice_lt _ _)

theorem netCost_le_iff (hp : p.Sound) {id a k : Nat} (ha : a ≤ p.reserveOut swapForY id)
    (hr : 0 < p.reserveOut swapForY id) (hk : k < 2 ^ 128) :
    p.netCost swapForY id a ≤ k ↔ a ≤ p.bought swapForY id k :=
  binInput_le_iff (ha.trans_lt (hp.reserveOut_lt swapForY id)) hk (hp.price_pos hr) (binPrice_lt _ _)

theorem grossCost_mono (hp : p.Sound) {id a b : Nat} (h : a ≤ b) (hb : b ≤ p.reserveOut swapForY id)
    (hr : 0 < p.reserveOut swapForY id) : p.grossCost swapForY t id a ≤ p.grossCost swapForY t id b := by
  have h1 := netCost_mono hp h hb hr
  have h2 := getFeeAmount_mono (feeAt_le p t id) h1
  unfold grossCost
  omega

/-! ## The two bins -/

theorem toU128_eq_ok {n m : Nat} : toU128 n = .ok m ↔ n < 2 ^ 128 ∧ m = n := by
  unfold toU128; split <;> simp_all [eq_comm]

theorem addU128_eq_ok {a b c : Nat} : addU128 a b = .ok c ↔ a + b < 2 ^ 128 ∧ c = a + b := by
  unfold addU128; split <;> simp_all [eq_comm]

theorem toU128_of_lt {n : Nat} (h : n < 2 ^ 128) : toU128 n = .ok n := if_pos h

theorem toU128_of_le {n : Nat} (h : ¬ n < 2 ^ 128) : toU128 n = .error .panic := if_neg h

theorem addU128_of_lt {a b : Nat} (h : a + b < 2 ^ 128) : addU128 a b = .ok (a + b) := if_pos h

theorem addU128_of_le {a b : Nat} (h : ¬ a + b < 2 ^ 128) : addU128 a b = .error .overflow := if_neg h

theorem swapInBin_eq {id : Nat} (hid : Priced id) (s : SwapIn) (r : Nat) : p.swapInBin swapForY t s id r =
    toU128 (p.netCost swapForY id (min r s.amountOutLeft)) >>= fun m =>
      addU128 m (getFeeAmount m (p.feeAt t id)) >>= fun withFee =>
        addU128 s.amountIn withFee >>= fun amountIn =>
          addU128 s.totalFee (getFeeAmount m (p.feeAt t id)) >>= fun totalFee =>
            .ok ⟨amountIn, s.amountOutLeft - min r s.amountOutLeft, totalFee⟩ := by
  rw [swapInBin, getPriceFromId_of_priced hid, ok_bind]
  rfl

/-- What the exact-output quote does in a bin. -/
theorem swapInBin_eq_ok {s s' : SwapIn} {id r : Nat} :
    p.swapInBin swapForY t s id r = .ok s' ↔ Priced id ∧
      s.amountIn + p.grossCost swapForY t id (min r s.amountOutLeft) < 2 ^ 128 ∧
      s.totalFee + (p.grossCost swapForY t id (min r s.amountOutLeft) -
        p.netCost swapForY id (min r s.amountOutLeft)) < 2 ^ 128 ∧
      s' = ⟨s.amountIn + p.grossCost swapForY t id (min r s.amountOutLeft),
        s.amountOutLeft - min r s.amountOutLeft,
        s.totalFee + (p.grossCost swapForY t id (min r s.amountOutLeft) -
          p.netCost swapForY id (min r s.amountOutLeft))⟩ := by
  by_cases hid : Priced id
  · rw [swapInBin_eq hid, and_iff_right hid]
    simp only [grossCost, bind_eq_ok, toU128_eq_ok, addU128_eq_ok, Nat.add_sub_cancel_left]
    constructor
    · rintro ⟨_, ⟨-, rfl⟩, _, ⟨-, rfl⟩, _, ⟨h3, rfl⟩, _, ⟨h4, rfl⟩, h⟩
      exact ⟨h3, h4, (Except.ok.inj h).symm⟩
    · rintro ⟨h3, h4, rfl⟩
      exact ⟨_, ⟨by omega, rfl⟩, _, ⟨by omega, rfl⟩, _, ⟨h3, rfl⟩, _, ⟨h4, rfl⟩, rfl⟩
  · rw [swapInBin, getPriceFromId_of_not hid, error_bind]
    exact iff_of_false (fun h => by cases h) fun h => hid h.1

/-- What the exact-input quote does in a bin that has a price. -/
theorem swapOutBin_eq {id : Nat} (hid : Priced id) (s : SwapOut) (r : Nat) : p.swapOutBin swapForY t s id r =
    toU128 (p.netCost swapForY id r) >>= fun m =>
      if Fixed.satAdd 128 m (getFeeAmount m (p.feeAt t id)) ≤ s.amountInLeft then
        addU128 s.amountOut r >>= fun amountOut =>
          addU128 s.totalFee (getFeeAmount m (p.feeAt t id)) >>= fun totalFee =>
            .ok ⟨s.amountInLeft - Fixed.satAdd 128 m (getFeeAmount m (p.feeAt t id)), amountOut, totalFee⟩
      else
        toU128 (p.bought swapForY id (s.amountInLeft - getFeeAmountFrom s.amountInLeft (p.feeAt t id))) >>=
          fun out => addU128 s.amountOut (min out r) >>= fun amountOut =>
            addU128 s.totalFee (getFeeAmountFrom s.amountInLeft (p.feeAt t id)) >>= fun totalFee =>
              .ok ⟨0, amountOut, totalFee⟩ := by
  rw [swapOutBin, getPriceFromId_of_priced hid, ok_bind]
  rfl

/-- In a bin without one it overflows. -/
theorem swapOutBin_of_not {id : Nat} (hid : ¬Priced id) (s : SwapOut) (r : Nat) :
    p.swapOutBin swapForY t s id r = .error .overflow := by
  rw [swapOutBin, getPriceFromId_of_not hid, error_bind]

theorem priced_of_swapOutBin {s s' : SwapOut} {id r : Nat} (h : p.swapOutBin swapForY t s id r = .ok s') : Priced id := by
  by_contra hid
  rw [swapOutBin_of_not hid] at h
  cases h

/-- The exact-input quote takes a whole bin when the input covers it. -/
theorem swapOutBin_whole {s : SwapOut} {id r : Nat} (hid : Priced id) (hfit : p.grossCost swapForY t id r < 2 ^ 128)
    (hleft : p.grossCost swapForY t id r ≤ s.amountInLeft) (hout : s.amountOut + r < 2 ^ 128)
    (hfee : s.totalFee + (p.grossCost swapForY t id r - p.netCost swapForY id r) < 2 ^ 128) :
    p.swapOutBin swapForY t s id r = .ok ⟨s.amountInLeft - p.grossCost swapForY t id r, s.amountOut + r,
      s.totalFee + (p.grossCost swapForY t id r - p.netCost swapForY id r)⟩ := by
  unfold grossCost at *
  rw [Nat.add_sub_cancel_left] at *
  rw [swapOutBin_eq hid, toU128_of_lt (by omega), ok_bind, Fixed.satAdd_of_lt hfit, if_pos hleft, addU128_of_lt hout,
    ok_bind, addU128_of_lt hfee, ok_bind]

/-- The input for a part `y` of bin `id` covers the saturated price of the whole bin only if it is
that price, or if it is all a `u128` holds. -/
theorem grossCost_covers (hp : p.Sound) {id y : Nat} (hr : 0 < p.reserveOut swapForY id)
    (hy : y ≤ p.reserveOut swapForY id)
    (hle : Fixed.satAdd 128 (p.netCost swapForY id (p.reserveOut swapForY id))
      (getFeeAmount (p.netCost swapForY id (p.reserveOut swapForY id)) (p.feeAt t id)) ≤
        p.grossCost swapForY t id y) :
    p.netCost swapForY id y = p.netCost swapForY id (p.reserveOut swapForY id) ∨
      2 ^ 128 - 1 ≤ p.grossCost swapForY t id y := by
  have hnet := netCost_mono hp hy le_rfl hr
  have hmono := getFeeAmount_mono (feeAt_le p t id) hnet
  unfold grossCost Fixed.satAdd at *
  omega

/-- A partly taken bin: the net input comes back and buys what it was the cost of, and less than
the bin holds. -/
theorem grossCost_part (hp : p.Sound) {id y : Nat} (hr : 0 < p.reserveOut swapForY id)
    (hlt : p.grossCost swapForY t id y < Fixed.satAdd 128 (p.netCost swapForY id (p.reserveOut swapForY id))
      (getFeeAmount (p.netCost swapForY id (p.reserveOut swapForY id)) (p.feeAt t id))) :
    p.grossCost swapForY t id y - getFeeAmountFrom (p.grossCost swapForY t id y) (p.feeAt t id) =
        p.netCost swapForY id y ∧
      p.bought swapForY id (p.netCost swapForY id y) < p.reserveOut swapForY id := by
  have hfee := feeAt_le p t id
  refine ⟨sub_getFeeAmountFrom_gross hfee _, ?_⟩
  by_contra hb
  have hny : p.netCost swapForY id y < 2 ^ 128 := by
    unfold grossCost Fixed.satAdd at hlt; omega
  have hnet := (netCost_le_iff hp le_rfl hr hny).2 (not_lt.1 hb)
  have hmono := getFeeAmount_mono hfee hnet
  unfold grossCost Fixed.satAdd at hlt
  omega

/-- In the last bin the input is the gross cost of what is left to buy: the bin sells it unless
the input for its whole reserve or the output bought so far leaves `u128`. -/
theorem swapOutBin_last (hp : p.Sound) {s : SwapOut} {id y : Nat} (hid : Priced id) (hr : 0 < p.reserveOut swapForY id)
    (hy : y ≤ p.reserveOut swapForY id) (hleft : s.amountInLeft = p.grossCost swapForY t id y)
    (hsum : s.totalFee + s.amountInLeft < 2 ^ 128) (hfirst : s.amountInLeft = 2 ^ 128 - 1 → s.amountOut = 0) :
    (∃ out fee, p.swapOutBin swapForY t s id (p.reserveOut swapForY id) = .ok ⟨0, out, fee⟩ ∧
        s.amountOut + y ≤ out ∧ p.netCost swapForY id (p.reserveOut swapForY id) < 2 ^ 128 ∧
        s.amountOut + min (p.reserveOut swapForY id)
          (p.bought swapForY id (p.netCost swapForY id y)) < 2 ^ 128) ∨
    (∃ e, p.swapOutBin swapForY t s id (p.reserveOut swapForY id) = .error e ∧
      ¬ (p.netCost swapForY id (p.reserveOut swapForY id) < 2 ^ 128 ∧
        s.amountOut + min (p.reserveOut swapForY id)
          (p.bought swapForY id (p.netCost swapForY id y)) < 2 ^ 128)) := by
  have hR := hp.reserveOut_lt swapForY id
  have hfee := feeAt_le p t id
  have hcov := grossCost_covers (t := t) hp hr hy
  have hpart := grossCost_part (t := t) (y := y) hp hr
  have hgross := grossCost_mono (t := t) hp hy le_rfl hr
  have hny : p.netCost swapForY id y < 2 ^ 128 := by unfold grossCost at hleft; omega
  have hbuy := (netCost_le_iff hp hy hr hny).1 le_rfl
  have hwhole : p.netCost swapForY id y = p.netCost swapForY id (p.reserveOut swapForY id) →
      p.reserveOut swapForY id ≤ p.bought swapForY id (p.netCost swapForY id y) :=
    fun h => (netCost_le_iff hp le_rfl hr hny).1 h.ge
  have hfm := fun h => getFeeAmount_lt (a := p.netCost swapForY id (p.reserveOut swapForY id)) hfee h
  have hfl := getFeeAmountFrom_le hfee s.amountInLeft
  rw [swapOutBin_eq hid]
  rw [← hleft] at *
  unfold grossCost at hgross
  -- from here on only the sizes of the amounts matter
  generalize p.netCost swapForY id (p.reserveOut swapForY id) = m at *
  generalize p.reserveOut swapForY id = r at *
  by_cases hm : m < 2 ^ 128
  · have hfm := hfm hm
    rw [toU128_of_lt hm, ok_bind]
    generalize getFeeAmount m (p.feeAt t id) = fm at *
    by_cases hle : Fixed.satAdd 128 m fm ≤ s.amountInLeft
    · -- the whole bin
      have hzero : s.amountInLeft - Fixed.satAdd 128 m fm = 0 := by unfold Fixed.satAdd at *; omega
      have hfees : s.totalFee + fm < 2 ^ 128 := by unfold Fixed.satAdd at hle; omega
      have hout : s.amountOut + min r (p.bought swapForY id (p.netCost swapForY id y)) < 2 ^ 128 ↔
          s.amountOut + r < 2 ^ 128 := by
        rcases hcov hle with h | h
        · have := hwhole h
          omega
        · have := hfirst (by omega)
          omega
      rw [if_pos hle, hout, hzero]
      by_cases ho : s.amountOut + r < 2 ^ 128
      · rw [addU128_of_lt ho, ok_bind, addU128_of_lt hfees, ok_bind]
        exact .inl ⟨s.amountOut + r, s.totalFee + fm, rfl, by omega, hm, ho⟩
      · rw [addU128_of_le ho, error_bind]
        exact .inr ⟨.overflow, rfl, fun h => ho h.2⟩
    · -- part of the bin
      obtain ⟨hback, hlt⟩ := hpart (not_le.1 hle)
      have hfees : s.totalFee + getFeeAmountFrom s.amountInLeft (p.feeAt t id) < 2 ^ 128 := by omega
      rw [if_neg hle, hback, toU128_of_lt (hlt.trans hR), ok_bind, Nat.min_comm r]
      by_cases ho : s.amountOut + min (p.bought swapForY id (p.netCost swapForY id y)) r < 2 ^ 128
      · rw [addU128_of_lt ho, ok_bind, addU128_of_lt hfees, ok_bind]
        exact .inl ⟨_, _, rfl, by omega, hm, ho⟩
      · rw [addU128_of_le ho, error_bind]
        exact .inr ⟨.overflow, rfl, fun h => ho h.2⟩
  · rw [toU128_of_le hm, error_bind]
    exact .inr ⟨.panic, rfl, fun h => hm h.1⟩

/-! ## The walk in lock step -/

/-- The exact-output quote adds to its input, and strictly so while something is left to buy. -/
theorem swapInBin_progress (hp : p.Sound) {s s' : SwapIn} {id : Nat} (hr : 0 < p.reserveOut swapForY id)
    (h : p.swapInBin swapForY t s id (p.reserveOut swapForY id) = .ok s') :
    s.amountIn ≤ s'.amountIn ∧ (0 < s.amountOutLeft → s.amountIn < s'.amountIn) := by
  obtain ⟨-, -, -, rfl⟩ := swapInBin_eq_ok.1 h
  refine ⟨Nat.le_add_right _ _, fun h0 => ?_⟩
  have := netCost_pos (a := min (p.reserveOut swapForY id) s.amountOutLeft) hp id
    (by omega) (Nat.min_le_left _ _)
  simp only [grossCost]
  omega

theorem swapIn_progress (hp : p.Sound) {fuel : Nat} {s s' : SwapIn} {id : Nat}
    (h : p.binLoop swapForY (p.swapInBin swapForY t) SwapIn.amountOutLeft fuel s id = .ok s') :
    s.amountIn ≤ s'.amountIn ∧ (s'.amountOutLeft < s.amountOutLeft → s.amountIn < s'.amountIn) := by
  refine binLoop_invariant (P := fun s' => s.amountIn ≤ s'.amountIn ∧
    (s'.amountOutLeft < s.amountOutLeft → s.amountIn < s'.amountIn)) (fun s₁ id s₂ hr hP hv => ?_) fuel
    ⟨le_rfl, by omega⟩ h
  have := swapInBin_progress hp hr hv
  omega

theorem swapIn_lt {fuel : Nat} {s s' : SwapIn} {id : Nat} (hs : s.amountIn < 2 ^ 128)
    (h : p.binLoop swapForY (p.swapInBin swapForY t) SwapIn.amountOutLeft fuel s id = .ok s') :
    s'.amountIn < 2 ^ 128 := by
  refine binLoop_invariant (P := fun s' => s'.amountIn < 2 ^ 128) (fun s₁ id s₂ _ _ hv => ?_) fuel hs h
  obtain ⟨-, hfit, -, rfl⟩ := swapInBin_eq_ok.1 hv
  exact hfit

/-- Bin `id` can be quoted for what is left of `x` when the walk gets there: pricing its whole
reserve stays within `u128`, and so does the output so far with what the rounded-up input for the
last part of `x` buys. -/
def BuyableAt (p : LBPool) (swapForY : Bool) (x id : Nat) : Prop :=
  p.netCost swapForY id (p.reserveOut swapForY id) < 2 ^ 128 ∧
  (x ≤ p.reserveBefore swapForY id + p.reserveOut swapForY id →
    p.reserveBefore swapForY id + min (p.reserveOut swapForY id)
      (p.bought swapForY id (p.netCost swapForY id (x - p.reserveBefore swapForY id))) < 2 ^ 128)

/-- Every bin that the amount `x` reaches can be quoted for it: the active bin, and each later one
that the reserves before it do not already cover. -/
def Buyable (p : LBPool) (swapForY : Bool) (x : Nat) : Prop :=
  ∀ id, p.onPath swapForY id → 0 < p.reserveOut swapForY id →
    (p.reserveBefore swapForY id < x ∨ id = p.activeId) → p.BuyableAt swapForY x id

/-- The same for the bins from `id₀` on. -/
def BuyableFrom (p : LBPool) (swapForY : Bool) (x id₀ : Nat) : Prop :=
  ∀ id, p.onPath swapForY id → 0 < p.reserveOut swapForY id → (id = id₀ ∨ after swapForY id₀ id) →
    (p.reserveBefore swapForY id < x ∨ id = p.activeId) → p.BuyableAt swapForY x id

theorem buyableFrom_active {x : Nat} : p.BuyableFrom swapForY x p.activeId ↔ p.Buyable swapForY x := by
  constructor
  · intro h id hid hr hx
    refine h id hid hr ?_ hx
    simpa [onPath] using hid
  · intro h id hid hr _ hx
    exact h id hid hr hx

/-- Bins past one that covers the rest of `x` do not matter. -/
theorem buyableFrom_last {x id : Nat} (hid : p.onPath swapForY id)
    (hx : x ≤ p.reserveBefore swapForY id + p.reserveOut swapForY id) :
    p.BuyableFrom swapForY x id ↔ (0 < p.reserveOut swapForY id →
      (p.reserveBefore swapForY id < x ∨ id = p.activeId) → p.BuyableAt swapForY x id) := by
  constructor
  · intro h hr hv
    exact h id hid hr (.inl rfl) hv
  · intro h k hk hr hk' hv
    rcases hk' with rfl | hk'
    · exact h hr hv
    · have := reserveBefore_after hid hk'
      rcases hv with hv | rfl
      · omega
      · exact absurd hk' (onPath_not_after hid)

theorem buyableFrom_next {x id n : Nat} (hid : p.onPath swapForY id)
    (hn : p.nextNonEmptyBin swapForY id = .ok (some n)) :
    p.BuyableFrom swapForY x id ↔ (0 < p.reserveOut swapForY id →
      (p.reserveBefore swapForY id < x ∨ id = p.activeId) → p.BuyableAt swapForY x id) ∧
      p.BuyableFrom swapForY x n := by
  obtain ⟨-, han, hnext⟩ := next_some hn
  constructor
  · intro h
    refine ⟨fun hr hv => h id hid hr (.inl rfl) hv, fun k hk hr hk' hv => h k hk hr (.inr ?_) hv⟩
    rcases hk' with rfl | hk'
    · exact han
    · exact after_trans han hk'
  · rintro ⟨h1, h2⟩ k hk hr hk' hv
    rcases hk' with rfl | hk'
    · exact h1 hr hv
    · refine h2 k hk hr ?_ hv
      cases hb : p.bins[k]? with
      | none => rw [reserveOut_none hb] at hr; omega
      | some r => exact hnext k r hb hk'

/-- Both walks stand at bin `id`; the exact-output one has still `s.amountOutLeft` to buy and ends
having asked for `amountIn` in all, so the exact-input one has `amountIn - s.amountIn` left to
spend and has bought the bins before `id`. -/
theorem swapOut_lockstep (hp : p.Sound) {x amountIn fee : Nat} (hx : x < 2 ^ 128) (hin : amountIn < 2 ^ 128) :
    ∀ (fuel : Nat) (s : SwapIn) (id : Nat), p.onPath swapForY id →
      p.reserveBefore swapForY id + s.amountOutLeft = x → (0 < s.amountOutLeft ∨ id = p.activeId) →
      (s.amountIn = 0 → p.reserveBefore swapForY id = 0) → s.totalFee ≤ s.amountIn →
      p.binLoop swapForY (p.swapInBin swapForY t) SwapIn.amountOutLeft fuel s id = .ok ⟨amountIn, 0, fee⟩ →
      ((∃ out fee', p.binLoop swapForY (p.swapOutBin swapForY t) SwapOut.amountInLeft fuel
          ⟨amountIn - s.amountIn, p.reserveBefore swapForY id, s.totalFee⟩ id = .ok ⟨0, out, fee'⟩ ∧ x ≤ out) ↔
        p.BuyableFrom swapForY x id) := by
  intro fuel
  induction fuel with
  | zero => intro _ _ _ _ _ _ _ h; simp [binLoop] at h
  | succ fuel ih =>
    intro s id hid hsum hvis hzero hfees h
    have hR := hp.reserveOut_lt swapForY id
    rw [binLoop_succ, bind_eq_ok] at h
    obtain ⟨s₁, hs₁, h⟩ := h
    by_cases hlast : s.amountOutLeft ≤ p.reserveOut swapForY id
    · rw [buyableFrom_last hid (by omega), binLoop_succ]
      by_cases hr : 0 < p.reserveOut swapForY id
      · -- the last bin
        rw [if_pos hr] at hs₁ ⊢
        obtain ⟨hpriced, hfit, -, rfl⟩ := swapInBin_eq_ok.1 hs₁
        rw [Nat.min_eq_right hlast] at h hfit
        simp only [Nat.sub_self, if_true, Except.ok.injEq, SwapIn.mk.injEq, true_and] at h
        obtain ⟨h, -⟩ := h
        have hy : x - p.reserveBefore swapForY id = s.amountOutLeft := by omega
        have hv : p.reserveBefore swapForY id < x ∨ id = p.activeId := by omega
        have hl : amountIn - s.amountIn = p.grossCost swapForY t id s.amountOutLeft := by omega
        have hcond : p.BuyableAt swapForY x id ↔
            p.netCost swapForY id (p.reserveOut swapForY id) < 2 ^ 128 ∧
              p.reserveBefore swapForY id + min (p.reserveOut swapForY id)
                (p.bought swapForY id (p.netCost swapForY id s.amountOutLeft)) < 2 ^ 128 := by
          unfold BuyableAt
          rw [hy]
          exact and_congr_right fun _ => ⟨fun h => h (by omega), fun h _ => h⟩
        rcases swapOutBin_last hp (s := ⟨amountIn - s.amountIn, p.reserveBefore swapForY id, s.totalFee⟩)
          hpriced hr hlast hl (by simp only; omega) (by simp only; intro hm; exact hzero (by omega)) with
          ⟨out, fee', hrun, hout, hb⟩ | ⟨e, hrun, hb⟩
        · rw [hrun]
          refine iff_of_true ⟨out, fee', rfl, by simp only at hout; omega⟩ fun _ _ => hcond.2 hb
        · rw [hrun]
          refine iff_of_false (by rintro ⟨_, _, hc, -⟩; cases hc) fun hc => hb (hcond.1 (hc hr hv))
      · -- nothing to sell here and nothing left to buy
        rw [if_neg hr] at hs₁ ⊢
        simp only [Except.ok.injEq] at hs₁
        subst hs₁
        rw [if_pos (by omega)] at h
        simp only [Except.ok.injEq] at h
        subst h
        refine iff_of_true ⟨p.reserveBefore swapForY id, fee, ?_, by simp only at hsum; omega⟩
          fun h0 => absurd h0 hr
        simp [bind, Except.bind]
    · -- a bin taken whole, or passed over: both walks go on to the same next bin
      have hs₁' : s₁.amountOutLeft = s.amountOutLeft - p.reserveOut swapForY id ∧
          (if 0 < p.reserveOut swapForY id then
            p.swapInBin swapForY t s id (p.reserveOut swapForY id) else .ok s) = .ok s₁ := by
        refine ⟨?_, hs₁⟩
        split at hs₁
        · obtain ⟨-, -, -, rfl⟩ := swapInBin_eq_ok.1 hs₁
          rw [Nat.min_eq_left (by omega)]
        · simp only [Except.ok.injEq] at hs₁
          subst hs₁
          omega
      rw [if_neg (by omega)] at h
      obtain ⟨o, hn, h⟩ := bind_eq_ok.1 h
      cases o with
      | none =>
        simp only [Except.ok.injEq] at h
        subst h
        simp only at hs₁'
        omega
      | some n =>
        simp only at h
        have hnext := reserveBefore_next hid hn
        have hon : p.onPath swapForY n := onPath_after hid (next_some hn).2.1
        have hprog := swapIn_progress hp h
        have hlt : s₁.amountIn < amountIn := hprog.2 (by simp only; omega)
        -- the exact-input walk makes the same round
        have hround : (if 0 < p.reserveOut swapForY id then
              p.swapOutBin swapForY t ⟨amountIn - s.amountIn, p.reserveBefore swapForY id, s.totalFee⟩ id
                (p.reserveOut swapForY id)
            else .ok ⟨amountIn - s.amountIn, p.reserveBefore swapForY id, s.totalFee⟩) =
            .ok ⟨amountIn - s₁.amountIn, p.reserveBefore swapForY n, s₁.totalFee⟩ ∧
            s₁.totalFee ≤ s₁.amountIn ∧ (s₁.amountIn = 0 → p.reserveBefore swapForY n = 0) ∧
            (0 < p.reserveOut swapForY id → p.netCost swapForY id (p.reserveOut swapForY id) < 2 ^ 128) := by
          split at hs₁
          · next hr =>
            have hpos := (swapInBin_progress hp hr hs₁).2 (by omega)
            obtain ⟨hpriced, hfit, hfit', rfl⟩ := swapInBin_eq_ok.1 hs₁
            rw [Nat.min_eq_left (by omega)] at *
            have hng : p.netCost swapForY id (p.reserveOut swapForY id) ≤
              p.grossCost swapForY t id (p.reserveOut swapForY id) := Nat.le_add_right _ _
            rw [if_pos hr, swapOutBin_whole hpriced (by omega) (by simp only at *; omega) (by simp only; omega) hfit']
            simp only at *
            rw [hnext, Nat.sub_sub]
            exact ⟨rfl, by omega, by omega, fun _ => by omega⟩
          · next hr =>
            simp only [Except.ok.injEq] at hs₁
            subst hs₁
            rw [if_neg hr, hnext, show p.reserveOut swapForY id = 0 by omega, Nat.add_zero]
            exact ⟨rfl, hfees, hzero, fun h0 => absurd h0 (by omega)⟩
        obtain ⟨hround, hfees', hzero', hfits⟩ := hround
        have hgo := ih s₁ n hon (by omega) (.inl (by omega)) hzero' hfees' h
        rw [buyableFrom_next hid hn, ← hgo, binLoop_succ, hround]
        have hat : 0 < p.reserveOut swapForY id → (p.reserveBefore swapForY id < x ∨ id = p.activeId) →
            p.BuyableAt swapForY x id := fun hr _ => ⟨hfits hr, fun hx' => by omega⟩
        have hleft : ¬ amountIn - s₁.amountIn = 0 := by omega
        simp only [bind, Except.bind, hn, hleft, if_false, and_iff_right hat]

/-- **Exact output, then exact input**: when the input quoted for `x` is fed back at the same
timestamp, the quote spends all of it and buys at least `x`, exactly when every bin the amount
reaches is `Buyable`. -/
theorem swapIn_then_swapOut (hp : p.Sound) {x amountIn fee : Nat} (hx : x < 2 ^ 128)
    (h : p.simulateSwapInAt x swapForY t = .ok ⟨amountIn, 0, fee⟩) :
    (∃ out fee', p.simulateSwapOutAt amountIn swapForY t = .ok ⟨0, out, fee'⟩ ∧ x ≤ out) ↔
      p.Buyable swapForY x := by
  have hlock := swapOut_lockstep (x := x) hp hx (swapIn_lt (by norm_num) h) _ ⟨0, x, 0⟩ p.activeId
    (by simp [onPath]) (by rw [reserveBefore_active, Nat.zero_add]) (.inr rfl)
    (fun _ => reserveBefore_active) le_rfl h
  rw [buyableFrom_active] at hlock
  simp only [reserveBefore_active, Nat.sub_zero] at hlock
  exact hlock

/-! ## The walks end -/

section Faults
variable {e : Fault} (hpanic : e ≠ .panic) (hoverflow : e ≠ .overflow)

include hpanic in
theorem toU128_ne (n : Nat) : toU128 n ≠ .error e := by
  unfold toU128; split <;> simp [hpanic.symm]

include hoverflow in
theorem addU128_ne (a b : Nat) : addU128 a b ≠ .error e := by
  unfold addU128; split <;> simp [hoverflow.symm]

include hpanic hoverflow

/-- A bin can only panic or overflow. -/
theorem swapOutBin_ne (s : SwapOut) (id r : Nat) : p.swapOutBin swapForY t s id r ≠ .error e := by
  unfold swapOutBin
  refine bind_ne_error (getPriceFromId_ne hoverflow _ _) fun _ => bind_ne_error (toU128_ne hpanic _) fun _ => ?_
  dsimp only
  split
  · exact bind_ne_error (addU128_ne hoverflow _ _) fun _ => bind_ne_error (addU128_ne hoverflow _ _) fun _ => by simp
  · exact bind_ne_error (toU128_ne hpanic _) fun _ => bind_ne_error (addU128_ne hoverflow _ _) fun _ =>
      bind_ne_error (addU128_ne hoverflow _ _) fun _ => by simp

theorem swapInBin_ne (s : SwapIn) (id r : Nat) : p.swapInBin swapForY t s id r ≠ .error e := by
  unfold swapInBin
  exact bind_ne_error (getPriceFromId_ne hoverflow _ _) fun _ => bind_ne_error (toU128_ne hpanic _) fun _ => bind_ne_error (addU128_ne hoverflow _ _) fun _ =>
    bind_ne_error (addU128_ne hoverflow _ _) fun _ => bind_ne_error (addU128_ne hoverflow _ _) fun _ => by simp

end Faults

theorem simulateSwapOutAt_ne_diverges (amountIn : Nat) :
    p.simulateSwapOutAt amountIn swapForY t ≠ .error .diverges :=
  binLoop_ne_diverges (swapOutBin_ne nofun nofun) _ _

theorem simulateSwapInAt_ne_diverges (amountOut : Nat) :
    p.simulateSwapInAt amountOut swapForY t ≠ .error .diverges :=
  binLoop_ne_diverges (swapInBin_ne nofun nofun) _ _

/-! ## One bin -/

theorem oneBinPool_sound {reserveY : Nat} (h : reserveY < 2 ^ 128) : (oneBinPool reserveY).Sound := by
  constructor
  · intro id r hb
    obtain ⟨-, rfl⟩ := oneBinPool_bins hb
    exact ⟨by norm_num, h⟩
  · intro id r hb
    obtain ⟨rfl, -⟩ := oneBinPool_bins hb
    change getPriceFromId 8386608 100 ≠ .ok 0
    decide +kernel

theorem swapIn_then_swapOut_one :
    (∃ out fee', (oneBinPool (2 ^ 90)).simulateSwapOutAt 441493673419 true 0 = .ok ⟨0, out, fee'⟩ ∧ 1000 ≤ out) ↔
      (oneBinPool (2 ^ 90)).Buyable true 1000 :=
  swapIn_then_swapOut (oneBinPool_sound (by norm_num)) (by norm_num) (by decide +kernel :
    (oneBinPool (2 ^ 90)).simulateSwapInAt 1000 true 0 = .ok ⟨441493673419, 0, 2207468368⟩)

/-- One unit of Y costs 441493675 of X here, but the input for the bin's whole reserve does not fit
`u128`, so the forward quote panics. -/
theorem swapIn_then_swapOut_panics :
    ¬ ∀ (p : LBPool) (swapForY : Bool) (t x amountIn fee : Nat), p.Sound → x < 2 ^ 128 →
      p.simulateSwapInAt x swapForY t = .ok ⟨amountIn, 0, fee⟩ →
      ∃ out fee', p.simulateSwapOutAt amountIn swapForY t = .ok ⟨0, out, fee'⟩ ∧ x ≤ out := by
  intro h
  obtain ⟨out, fee', hrun, -⟩ := h (oneBinPool (2 ^ 101)) true 0 1 441493675 2207469
    (oneBinPool_sound (by norm_num)) (by norm_num) (by decide +kernel)
  have hpanic : (oneBinPool (2 ^ 101)).simulateSwapOutAt 441493675 true 0 = .error .panic := by decide +kernel
  rw [hpanic] at hrun
  cases hrun

end EvmDexPool.LB.LBPool
