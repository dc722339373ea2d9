import EvmDexPool.V3.SwapMath

/-!
# Price updates against the trader (`v3/sqrt_price_math.rs`)

A price that an input moves has moved no further than the input pays for, one that an output moves at least
as far as pays for it. For token 1 coming in, `sqrt_price_x96 + quotient` wraps before it is narrowed to
160 bits: a sum past `2^256` comes back as a price on the wrong side (`roundsAgainst_iff`).
-/

namespace EvmDexPool.V3

open Fixed

/-- The exact token 0 amount between two prices, rounded. -/
def exactAmount0 (a b liquidity : Nat) (roundUp : Bool) : Nat :=
  if roundUp then liquidity * 2 ^ 96 * (max a b - min a b) ⌈/⌉ (a * b)
  else liquidity * 2 ^ 96 * (max a b - min a b) / (a * b)

/-- The exact token 1 amount between two prices, rounded. -/
def exactAmount1 (a b liquidity : Nat) (roundUp : Bool) : Nat :=
  if roundUp then liquidity * (max a b - min a b) ⌈/⌉ 2 ^ 96 else liquidity * (max a b - min a b) / 2 ^ 96

structure RoundsAgainst (price liquidity amount : Nat) (zeroForOne : Bool) : Prop where
  input : ∀ next, getNextSqrtPriceFromInput price liquidity amount zeroForOne = .ok next →
    OnSide zeroForOne price next ∧ ∃ d, inputDelta zeroForOne price next liquidity = .ok d ∧ d ≤ amount
  output : ∀ next, getNextSqrtPriceFromOutput price liquidity amount zeroForOne = .ok next →
    OnSide zeroForOne price next ∧ ∃ d, outputDelta zeroForOne price next liquidity = .ok d ∧ amount ≤ d
  returns : Returns (getNextSqrtPriceFromInput price liquidity amount zeroForOne) ∧
    Returns (getNextSqrtPriceFromOutput price liquidity amount zeroForOne)
  amount0 : ∀ a b roundUp, 0 < a → a < 2 ^ 160 → 0 < b → b < 2 ^ 160 →
    getAmount0Delta a b liquidity roundUp = .ok (exactAmount0 a b liquidity roundUp)
  amount1 : ∀ a b roundUp, a < 2 ^ 160 → b < 2 ^ 160 →
    getAmount1Delta a b liquidity roundUp = .ok (exactAmount1 a b liquidity roundUp)

/-! ## The amounts -/

/-- Two ceilings one after the other are one. -/
theorem ceilDiv_ceilDiv {n a b : Nat} (ha : 0 < a) (hb : 0 < b) : (n ⌈/⌉ b) ⌈/⌉ a = n ⌈/⌉ (a * b) := by
  have hiff : ∀ k, (n ⌈/⌉ b) ⌈/⌉ a ≤ k ↔ n ⌈/⌉ (a * b) ≤ k := fun k => by
    rw [ceilDiv_le_iff ha, ceilDiv_le_iff hb, ceilDiv_le_iff (Nat.mul_pos ha hb), ← Nat.mul_assoc, Nat.mul_comm b]
  exact le_antisymm ((hiff _).2 le_rfl) ((hiff _).1 le_rfl)

section Amounts
variable {a b liquidity : Nat} (hl : liquidity < 2 ^ 128)
include hl

theorem getAmount0Delta_eq (roundUp : Bool) (ha : 0 < a) (ha' : a < 2 ^ 160) (hb : 0 < b) (hb' : b < 2 ^ 160) :
    getAmount0Delta a b liquidity roundUp = .ok (exactAmount0 a b liquidity roundUp) := by
  wlog hab : a ≤ b generalizing a b
  · have hswap : exactAmount0 a b liquidity roundUp = exactAmount0 b a liquidity roundUp := by
      unfold exactAmount0
      rw [max_comm, min_comm, Nat.mul_comm a b]
    rw [getAmount0Delta_comm, hswap]
    exact this hb hb' ha ha' (by omega)
  unfold exactAmount0
  rw [max_eq_right hab, min_eq_left hab]
  cases roundUp with
  | true => rw [getAmount0Delta_up hab hb' hl ha, if_pos rfl, ceilDiv_ceilDiv ha hb]
  | false =>
    rw [getAmount0Delta_down hab hb' hl ha, if_neg Bool.false_ne_true, Nat.div_div_eq_div_mul, Nat.mul_comm b]

theorem getAmount1Delta_exact (roundUp : Bool) (ha : a < 2 ^ 160) (hb : b < 2 ^ 160) :
    getAmount1Delta a b liquidity roundUp = .ok (exactAmount1 a b liquidity roundUp) := by
  unfold exactAmount1
  rcases le_total a b with hab | hab
  · rw [getAmount1Delta_eq hab hb hl, max_eq_right hab, min_eq_left hab]
  · rw [getAmount1Delta_comm, getAmount1Delta_eq hab ha hl, max_eq_left hab, min_eq_right hab]

end Amounts

/-! ## Nothing panics -/

theorem mulDiv_returns (a b d : Nat) : Returns (mulDiv a b d) := by
  unfold mulDiv
  dsimp only
  split
  · exact returns_msg _
  split
  · exact returns_ok _
  · exact returns_ok _

theorem mulDivRoundingUp_returns (a b d : Nat) : Returns (mulDivRoundingUp a b d) := by
  unfold mulDivRoundingUp
  refine returns_bind (mulDiv_returns a b d) fun r _ => ?_
  split
  · exact returns_ok _
  split
  · exact returns_msg _
  · exact returns_ok _

theorem mulDivQ96_returns (a b : Nat) : Returns (mulDivQ96 a b) := by
  unfold mulDivQ96
  dsimp only
  split
  · exact returns_msg _
  · exact returns_ok _

theorem getAmount0Delta_returns (a b liquidity : Nat) (roundUp : Bool) : Returns (getAmount0Delta a b liquidity roundUp) := by
  unfold getAmount0Delta
  dsimp only
  split
  · exact returns_msg _
  rename_i h0
  split
  · refine returns_bind (mulDivRoundingUp_returns _ _ _) fun q _ => ?_
    rw [udivCeil_ok.2 ⟨Nat.pos_of_ne_zero h0, rfl⟩]
    exact returns_ok _
  · refine returns_bind (mulDiv_returns _ _ _) fun q _ => ?_
    rw [udiv_ok.2 ⟨Nat.pos_of_ne_zero h0, rfl⟩]
    exact returns_ok _

theorem getAmount1Delta_returns (a b liquidity : Nat) (roundUp : Bool) : Returns (getAmount1Delta a b liquidity roundUp) := by
  unfold getAmount1Delta
  exact returns_bind (mulDivQ96_returns _ _) fun _ _ => returns_ok _

theorem inputDelta_returns (zeroForOne : Bool) (price stop liquidity : Nat) :
    Returns (inputDelta zeroForOne price stop liquidity) := by
  unfold inputDelta
  split
  · exact getAmount0Delta_returns _ _ _ _
  · exact getAmount1Delta_returns _ _ _ _

theorem outputDelta_returns (zeroForOne : Bool) (price stop liquidity : Nat) :
    Returns (outputDelta zeroForOne price stop liquidity) := by
  unfold outputDelta
  split
  · exact getAmount1Delta_returns _ _ _ _
  · exact getAmount0Delta_returns _ _ _ _

theorem tryU160_returns (x : Nat) : Returns (tryU160 x) := by
  unfold tryU160
  split
  · exact returns_ok _
  · exact returns_msg _

theorem toU160_returns {x : Nat} (h : x < 2 ^ 160) : Returns (toU160 x) := by
  rw [toU160_ok.2 ⟨h, rfl⟩]
  exact returns_ok _

section Returns
variable {price liquidity amount : Nat} (hp : price < 2 ^ 160) (hp0 : 0 < price) (hl : liquidity < 2 ^ 128)
  (hl0 : 0 < liquidity) (ha : amount < 2 ^ 255)

include hp hp0 hl in
/-- The narrowing of the token 0 price is of one that is no higher than before. -/
theorem amount0RoundingUp_returns (ha : amount < 2 ^ 255) (add : Bool) :
    Returns (getNextSqrtPriceFromAmount0RoundingUp price liquidity amount add) := by
  have hnum : liquidity * 2 ^ 96 % 2 ^ 256 = liquidity * 2 ^ 96 := Nat.mod_eq_of_lt (by omega)
  have hN : liquidity * 2 ^ 96 < 2 ^ 224 := by omega
  unfold getNextSqrtPriceFromAmount0RoundingUp
  rw [hnum]
  clear hnum hl
  generalize liquidity * 2 ^ 96 = N at *
  split
  · exact returns_ok _
  rename_i ha0
  dsimp only
  split
  · split
    · rename_i hfit
      refine returns_bind (mulDivRoundingUp_returns _ _ _) fun q hq => toU160_returns ?_
      obtain ⟨hden, -, rfl⟩ := mulDivRoundingUp_ok (by omega) (by omega) wadd_lt hq
      refine lt_of_le_of_lt ((ceilDiv_le_iff hden).2 ?_) hp
      exact Nat.mul_le_mul_right _ hfit.2
    · have hfloor := Nat.lt_mul_div_succ N hp0
      have hle : N / price ≤ N := Nat.div_le_self _ _
      have hsum : wadd 256 (N / price) amount = N / price + amount := wadd_of_lt (by omega)
      have hden : 0 < N / price + amount := Nat.add_pos_right _ (Nat.pos_of_ne_zero ha0)
      rw [udiv_ok.2 ⟨hp0, rfl⟩, ok_bind, hsum, udivCeil_ok.2 ⟨hden, rfl⟩, ok_bind]
      refine toU160_returns (lt_of_le_of_lt ((ceilDiv_le_iff hden).2 ?_) hp)
      calc N ≤ price * (N / price + 1) := hfloor.le
        _ ≤ (N / price + amount) * price := by rw [Nat.mul_comm]; exact Nat.mul_le_mul_right _ (by omega)
  · split
    · exact returns_msg _
    · exact returns_bind (mulDivRoundingUp_returns _ _ _) fun q _ => tryU160_returns q

include hp hl0 in
theorem amount1RoundingDown_returns (add : Bool) :
    Returns (getNextSqrtPriceFromAmount1RoundingDown price liquidity amount add) := by
  unfold getNextSqrtPriceFromAmount1RoundingDown
  split
  · refine returns_bind ?_ fun q _ => tryU160_returns _
    split
    · rw [udiv_ok.2 ⟨hl0, rfl⟩]
      exact returns_ok _
    · exact mulDiv_returns _ _ _
  · refine returns_bind ?_ fun q _ => ?_
    · split
      · rw [udivCeil_ok.2 ⟨hl0, rfl⟩]
        exact returns_ok _
      · exact mulDivRoundingUp_returns _ _ _
    · split
      · exact toU160_returns (by omega)
      · exact returns_msg _

include hp hl ha

theorem getNextSqrtPriceFromInput_returns (zeroForOne : Bool) :
    Returns (getNextSqrtPriceFromInput price liquidity amount zeroForOne) := by
  unfold getNextSqrtPriceFromInput
  split
  · exact returns_msg _
  split
  · exact amount0RoundingUp_returns hp (by omega) hl ha true
  · exact amount1RoundingDown_returns hp (by omega) true

theorem getNextSqrtPriceFromOutput_returns (zeroForOne : Bool) :
    Returns (getNextSqrtPriceFromOutput price liquidity amount zeroForOne) := by
  unfold getNextSqrtPriceFromOutput
  split
  · exact returns_msg _
  split
  · exact amount1RoundingDown_returns hp (by omega) false
  · exact amount0RoundingUp_returns hp (by omega) hl ha false

end Returns

/-- **A step comes back**, between any two prices: only the negation of the least amount is out of range. -/
theorem computeSwapStep_noFault {price target liquidity fee : Nat} {remaining : Int} (hp : price < 2 ^ 160)
    (hl : liquidity < 2 ^ 128) (hrate : 0 ≤ remaining → fee ≤ MAX_FEE) (hr : -2 ^ 255 < remaining ∧ remaining < 2 ^ 255) :
    Returns (computeSwapStep price target liquidity remaining fee) := by
  unfold computeSwapStep
  dsimp only
  split
  · rename_i hin
    unfold exactInStep
    refine returns_bind (mulDiv_returns _ _ _) fun less hless => returns_bind (inputDelta_returns _ _ _ _) fun x _ => ?_
    have hword : MAX_FEE < 2 ^ 256 := by decide
    rw [show wsub 256 MAX_FEE fee = MAX_FEE - fee from wsub_of_le (hrate hin) hword] at hless
    obtain ⟨-, -, hless⟩ := mulDiv_ok (by omega) (by omega) hword hless
    change less = lessFee remaining.toNat fee at hless
    have hlessle := lessFee_le remaining.toNat fee
    split
    · exact returns_bind (mulDivRoundingUp_returns _ _ _) fun _ _ => returns_bind (outputDelta_returns _ _ _ _) fun _ _ =>
        returns_ok _
    · exact returns_bind (getNextSqrtPriceFromInput_returns hp hl (by omega) _) fun _ _ =>
        returns_bind (outputDelta_returns _ _ _ _) fun _ _ => returns_ok _
  · rw [if_neg (by omega)]
    unfold exactOutStep
    refine returns_bind (outputDelta_returns _ _ _ _) fun x _ => ?_
    split
    · exact returns_bind (inputDelta_returns _ _ _ _) fun _ _ => returns_bind (mulDivRoundingUp_returns _ _ _) fun _ _ =>
        returns_ok _
    · exact returns_bind (getNextSqrtPriceFromOutput_returns hp hl (by omega) _) fun _ _ =>
        returns_bind (inputDelta_returns _ _ _ _) fun _ _ => returns_bind (mulDivRoundingUp_returns _ _ _) fun _ _ =>
          returns_ok _

/-! ## Rounding against the trader -/

section Rounding
variable {price liquidity amount : Nat} (hp : price < 2 ^ 160) (hp0 : 0 < price) (hl : liquidity < 2 ^ 128)
  (hl0 : 0 < liquidity) (ha : amount < 2 ^ 255)

include hl ha

/-- The exact move of the price by token 1 coming in, and what the code makes of it. -/
theorem getNextSqrtPriceFromInput_up_wraps (hp0 : 0 < price) (hl0 : 0 < liquidity) :
    getNextSqrtPriceFromInput price liquidity amount false =
      if amount * 2 ^ 96 / liquidity < 2 ^ 256 then tryU160 (wadd 256 price (amount * 2 ^ 96 / liquidity))
      else .error (.error "MulDiv overflow") := by
  unfold getNextSqrtPriceFromInput
  rw [if_neg (by omega), if_neg Bool.false_ne_true, getNextSqrtPriceFromAmount1RoundingDown, if_pos rfl]
  by_cases hsmall : amount ≤ U160_MAX
  · have hlt : amount * 2 ^ 96 < 2 ^ 256 := by
      unfold U160_MAX at hsmall
      omega
    have hq : amount * 2 ^ 96 / liquidity < 2 ^ 256 := lt_of_le_of_lt (Nat.div_le_self _ _) hlt
    dsimp only
    rw [if_pos hsmall, Nat.mod_eq_of_lt hlt, udiv_ok.2 ⟨hl0, rfl⟩, ok_bind, if_pos hq]
  · dsimp only
    rw [if_neg hsmall, mulDiv_eq (by omega) (by decide) (by omega)]
    unfold Q96
    by_cases hq : amount * 2 ^ 96 / liquidity < 2 ^ 256
    · rw [if_pos ⟨hl0, hq⟩, if_pos hq, ok_bind]
    · rw [if_neg (fun h => hq h.2), if_neg hq, error_bind]

include hp hp0 hl0

theorem input_down {next : Nat} (h : getNextSqrtPriceFromInput price liquidity amount true = .ok next) :
    OnSide true price next ∧ ∃ d, inputDelta true price next liquidity = .ok d ∧ d ≤ amount := by
  obtain ⟨hle, hreach, -⟩ := getNextSqrtPriceFromInput_down hl hp ha h
  have hnext : 0 < next := by
    rcases Nat.eq_zero_or_pos next with rfl | hpos
    · rw [Nat.zero_mul] at hreach
      exact absurd hreach (Nat.not_le.2 (Nat.mul_pos (by omega) hp0))
    · exact hpos
  refine ⟨hle, _, getAmount0Delta_eq hl true hnext (by omega) hp0 hp, ?_⟩
  unfold exactAmount0
  rw [if_pos rfl, max_eq_right hle, min_eq_left hle, ceilDiv_le_iff (Nat.mul_pos hnext hp0)]
  generalize liquidity * 2 ^ 96 = N at *
  rw [Nat.mul_sub]
  have hexpand : next * (N + amount * price) = N * next + next * price * amount := by ring
  omega

omit hp0 hl0 in
theorem output_down {next : Nat} (h : getNextSqrtPriceFromOutput price liquidity amount true = .ok next) :
    OnSide true price next ∧ ∃ d, outputDelta true price next liquidity = .ok d ∧ amount ≤ d := by
  obtain ⟨hle, hreach, -⟩ := getNextSqrtPriceFromOutput_down hl (by omega) h
  refine ⟨hle, _, getAmount1Delta_exact hl false (by omega) hp, ?_⟩
  unfold exactAmount1
  rw [if_neg Bool.false_ne_true, max_eq_right hle, min_eq_left hle, Nat.le_div_iff_mul_le (by decide)]
  exact hreach

omit hp0 hl0 ha hl in
theorem getNextSqrtPriceFromOutput_up_lt {next : Nat}
    (h : getNextSqrtPriceFromOutput price liquidity amount false = .ok next) : next < 2 ^ 160 := by
  unfold getNextSqrtPriceFromOutput at h
  split at h
  · cases h
  rw [if_neg Bool.false_ne_true, getNextSqrtPriceFromAmount0RoundingUp] at h
  split at h
  · cases h
    exact hp
  dsimp only at h
  rw [if_neg Bool.false_ne_true] at h
  split at h
  · cases h
  · obtain ⟨q, -, h⟩ := bind_eq_ok.1 h
    obtain ⟨hlt, rfl⟩ := tryU160_ok.1 h
    exact hlt

omit hl0 ha in
theorem output_up {next : Nat} (h : getNextSqrtPriceFromOutput price liquidity amount false = .ok next) :
    OnSide false price next ∧ ∃ d, outputDelta false price next liquidity = .ok d ∧ amount ≤ d := by
  obtain ⟨hle, hreach, -⟩ := getNextSqrtPriceFromOutput_up hl hp h
  have hle : price ≤ next := hle
  refine ⟨hle, _, getAmount0Delta_eq hl false hp0 hp (by omega) (getNextSqrtPriceFromOutput_up_lt hp h), ?_⟩
  unfold exactAmount0
  rw [if_neg Bool.false_ne_true, max_eq_right hle, min_eq_left hle,
    Nat.le_div_iff_mul_le (Nat.mul_pos hp0 (by omega))]
  exact hreach

/-- Token 1 coming in, where the sum does not wrap. -/
theorem input_up {next : Nat}
    (hfits : price + amount * 2 ^ 96 / liquidity < 2 ^ 256 ∨ 2 ^ 256 ≤ amount * 2 ^ 96 / liquidity)
    (h : getNextSqrtPriceFromInput price liquidity amount false = .ok next) :
    OnSide false price next ∧ ∃ d, inputDelta false price next liquidity = .ok d ∧ d ≤ amount := by
  rw [getNextSqrtPriceFromInput_up_wraps hl ha hp0 hl0] at h
  have hfloor := Nat.mul_div_le (amount * 2 ^ 96) liquidity
  by_cases hq : amount * 2 ^ 96 / liquidity < 2 ^ 256
  · rw [if_pos hq, wadd_of_lt (hfits.resolve_right (Nat.not_le.2 hq))] at h
    clear hfits hq
    generalize amount * 2 ^ 96 / liquidity = q at *
    obtain ⟨hlt, rfl⟩ := tryU160_ok.1 h
    have hle : price ≤ price + q := Nat.le_add_right _ _
    have hdelta : inputDelta false price (price + q) liquidity = getAmount1Delta price (price + q) liquidity true :=
      if_neg Bool.false_ne_true
    refine ⟨hle, _, hdelta.trans (getAmount1Delta_exact hl true hp hlt), ?_⟩
    unfold exactAmount1
    rw [if_pos rfl, max_eq_right hle, min_eq_left hle, Nat.add_sub_cancel_left, ceilDiv_le_iff (Nat.two_pow_pos 96),
      Nat.mul_comm (2 ^ 96)]
    exact hfloor
  · rw [if_neg hq] at h
    cases h

end Rounding

/-- **Prices round against the trader** exactly when no sum wraps: token 0 in either direction always, and
token 1 coming in unless the exact move is a word that takes the price past `2^256`. -/
theorem roundsAgainst_iff {price liquidity amount : Nat} (zeroForOne : Bool) (hp0 : 0 < price) (hp : price < 2 ^ 160)
    (hl0 : 0 < liquidity) (hl : liquidity < 2 ^ 128) (ha : amount < 2 ^ 255) :
    RoundsAgainst price liquidity amount zeroForOne ↔
      zeroForOne = true ∨ price + amount * 2 ^ 96 / liquidity < 2 ^ 256 ∨ 2 ^ 256 ≤ amount * 2 ^ 96 / liquidity := by
  constructor
  · intro h
    by_contra hnot
    obtain ⟨hz, hwrap, hword⟩ := not_or.1 hnot |>.imp_right not_or.1
    have hz : zeroForOne = false := by simpa using hz
    subst hz
    have hwadd : wadd 256 price (amount * 2 ^ 96 / liquidity) = price + amount * 2 ^ 96 / liquidity - 2 ^ 256 := by
      unfold wadd
      omega
    have hnext := getNextSqrtPriceFromInput_up_wraps hl ha hp0 hl0
    rw [if_pos (Nat.not_le.1 hword), hwadd, tryU160_ok.2 ⟨by omega, rfl⟩] at hnext
    have hside : price ≤ _ := (h.input _ hnext).1
    omega
  · intro hfits
    refine ⟨fun next h => ?_, fun next h => ?_, ⟨getNextSqrtPriceFromInput_returns hp hl ha zeroForOne,
      getNextSqrtPriceFromOutput_returns hp hl ha zeroForOne⟩,
      fun a b roundUp h0 h1 h2 h3 => getAmount0Delta_eq hl roundUp h0 h1 h2 h3,
      fun a b roundUp h0 h1 => getAmount1Delta_exact hl roundUp h0 h1⟩
    · cases zeroForOne with
      | true => exact input_down hp hp0 hl hl0 ha h
      | false => exact input_up hp hp0 hl hl0 ha (hfits.resolve_left Bool.false_ne_true) h
    · cases zeroForOne with
      | true => exact output_down hp hl ha h
      | false => exact output_up hp hp0 hl h

/-- A billion of token 1 at price one. -/
theorem roundsAgainst_iff_billion :
    RoundsAgainst (2 ^ 96) (10 ^ 18) (10 ^ 9) false ↔
      false = true ∨ 2 ^ 96 + 10 ^ 9 * 2 ^ 96 / 10 ^ 18 < 2 ^ 256 ∨ 2 ^ 256 ≤ 10 ^ 9 * 2 ^ 96 / 10 ^ 18 :=
  roundsAgainst_iff false (by decide) (by decide) (by decide) (by decide) (by decide)

/-- At price one with a liquidity of one, `2^160 - 1` of token 1 take the price to zero. -/
theorem roundsAgainst_fails :
    ¬ ∀ (price liquidity amount : Nat) (zeroForOne : Bool), 0 < price → price < 2 ^ 160 → 0 < liquidity →
      liquidity < 2 ^ 128 → amount < 2 ^ 255 → RoundsAgainst price liquidity amount zeroForOne := by
  intro h
  have hzero := ((h (2 ^ 96) 1 (2 ^ 160 - 1) false (by decide) (by decide) (by decide) (by decide) (by decide)).input 0
    (by decide +kernel)).1
  simp [OnSide] at hzero

end EvmDexPool.V3
