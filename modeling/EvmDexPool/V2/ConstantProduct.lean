import Mathlib.Tactic.Ring
import Mathlib.Tactic.Linarith
import EvmDexPool.V2.Quotes

/-!
# The constant-product curve

Below `2^112` nothing wraps: an output quote is the floor of the curve, an input quote its inverse
rounded up, and neither lets the product of the reserves fall (`constantProduct_sound`). Over all words
the numerator of an output quote wraps before the amount is refused; `constantProduct_exact` says for
which amounts the quote is right or refused.
-/

namespace EvmDexPool.V2

open Fixed

/-- The exact output of the curve, rounded down, for an input net of its fee in millionths. -/
def exactOutput (reserveIn reserveOut net : Nat) : Nat := net * reserveOut / (reserveIn * FEE_DENOMINATOR + net)

section Curve
variable {reserveIn reserveOut net : Nat}

theorem exactOutput_mul_le (reserveIn reserveOut net : Nat) :
    exactOutput reserveIn reserveOut net * (reserveIn * FEE_DENOMINATOR + net) ≤ net * reserveOut :=
  Nat.div_mul_le_self _ _

theorem exactOutput_lt (net : Nat) (hin : 0 < reserveIn) (hout : 0 < reserveOut) :
    exactOutput reserveIn reserveOut net < reserveOut := by
  have hden : 0 < reserveIn * FEE_DENOMINATOR := Nat.mul_pos hin (by decide)
  rw [exactOutput, Nat.div_lt_iff_lt_mul (by omega), Nat.mul_add, Nat.mul_comm net]
  exact Nat.lt_add_of_pos_left (Nat.mul_pos hout hden)

/-- The product of the reserves does not fall, the fee staying in the pool. -/
theorem exactOutput_product {amount : Nat} (hin : 0 < reserveIn) (hout : 0 < reserveOut)
    (hnet : net ≤ amount * FEE_DENOMINATOR) :
    reserveIn * reserveOut ≤ (reserveIn + amount) * (reserveOut - exactOutput reserveIn reserveOut net) := by
  have hle := exactOutput_mul_le reserveIn reserveOut net
  have hlt := exactOutput_lt net hin hout
  generalize exactOutput reserveIn reserveOut net = out at *
  obtain ⟨fee, hfee⟩ := Nat.exists_eq_add_of_le hnet
  obtain ⟨rest, rfl⟩ := Nat.exists_eq_add_of_le hlt.le
  have hscaled : out * ((reserveIn + amount) * FEE_DENOMINATOR) ≤ amount * (out + rest) * FEE_DENOMINATOR :=
    calc out * ((reserveIn + amount) * FEE_DENOMINATOR)
        = out * (reserveIn * FEE_DENOMINATOR + net) + out * fee := by rw [Nat.add_mul, hfee]; ring
      _ ≤ net * (out + rest) + (out + rest) * fee :=
        Nat.add_le_add hle (Nat.mul_le_mul_right _ (Nat.le_add_right _ _))
      _ = amount * FEE_DENOMINATOR * (out + rest) := by rw [hfee]; ring
      _ = amount * (out + rest) * FEE_DENOMINATOR := by ring
  have hpaid : out * (reserveIn + amount) ≤ amount * (out + rest) :=
    Nat.le_of_mul_le_mul_right (by rw [Nat.mul_assoc]; exact hscaled) (show 0 < FEE_DENOMINATOR by decide)
  rw [Nat.add_sub_cancel_left]
  calc reserveIn * (out + rest) ≤ (reserveIn + amount) * (out + rest) - amount * (out + rest) := by
        rw [← Nat.sub_mul, Nat.add_sub_cancel]
    _ ≤ (reserveIn + amount) * (out + rest) - out * (reserveIn + amount) := Nat.sub_le_sub_left hpaid _
    _ = (reserveIn + amount) * rest := by rw [Nat.mul_add, Nat.mul_comm out, Nat.add_sub_cancel_left]

/-- An input that covers an output on the curve is paid it. -/
theorem le_exactOutput {x : Nat} (hin : 0 < reserveIn) (hx : x < reserveOut)
    (hcovers : reserveIn * x * FEE_DENOMINATOR ≤ net * (reserveOut - x)) : x ≤ exactOutput reserveIn reserveOut net := by
  have hden : 0 < reserveIn * FEE_DENOMINATOR := Nat.mul_pos hin (by decide)
  rw [exactOutput, Nat.le_div_iff_mul_le (by omega)]
  calc x * (reserveIn * FEE_DENOMINATOR + net) = reserveIn * x * FEE_DENOMINATOR + net * x := by ring
    _ ≤ net * (reserveOut - x) + net * x := Nat.add_le_add_right hcovers _
    _ = net * reserveOut := by rw [← Nat.mul_add, Nat.sub_add_cancel hx.le]

end Curve

namespace UniswapV2Pool

variable {p : UniswapV2Pool} {reserveIn reserveOut amount : Nat} {zeroForOne : Bool}

/-- `amount_in * (FEE_DENOMINATOR - fee)`, unbounded. -/
def net (p : UniswapV2Pool) (amount : Nat) : Nat := amount * (FEE_DENOMINATOR - p.fee)

/-- The computation fits its words. -/
def Fits (p : UniswapV2Pool) (reserveIn reserveOut amount : Nat) : Prop :=
  p.net amount * reserveOut < 2 ^ 256 ∧ reserveIn * FEE_DENOMINATOR + p.net amount < 2 ^ 256

theorem net_le (p : UniswapV2Pool) (amount : Nat) : p.net amount ≤ amount * FEE_DENOMINATOR :=
  Nat.mul_le_mul_left _ (Nat.sub_le _ _)

section Fee
variable (hfee : p.fee < FEE_DENOMINATOR)
include hfee

theorem complement_eq : wsub 256 FEE_DENOMINATOR p.fee = FEE_DENOMINATOR - p.fee := wsub_of_le hfee.le (by decide)

theorem amountInWithFee_eq (amount : Nat) : p.amountInWithFee amount = min (p.net amount) (2 ^ 256 - 1) := by
  rw [amountInWithFee, complement_eq hfee]
  rfl

/-- Where nothing wraps, the arm is the curve. -/
theorem constantProductOutput_of_fits (hin : 0 < reserveIn) (hout : 0 < reserveOut) (h : p.Fits reserveIn reserveOut amount) :
    p.constantProductOutput reserveIn reserveOut amount = .ok (exactOutput reserveIn reserveOut (p.net amount)) := by
  obtain ⟨hnum, hden⟩ := h
  have hpos : 0 < reserveIn * FEE_DENOMINATOR := Nat.mul_pos hin (by decide)
  have hlt := exactOutput_lt (p.net amount) hin hout
  unfold constantProductOutput
  rw [amountInWithFee_eq hfee, min_eq_left (by omega)]
  dsimp only
  rw [wmul_of_lt hnum, wmul_of_lt (by omega : reserveIn * FEE_DENOMINATOR < 2 ^ 256), wadd_of_lt hden,
    udiv_of_pos (by omega), ok_bind]
  change (if exactOutput reserveIn reserveOut (p.net amount) ≥ reserveOut then _ else _) = _
  rw [if_neg (by omega)]
  rfl

/-- An input quote, below `2^112`, does not wrap. -/
theorem inputQuote_eq {x y : Nat} (hin : reserveIn < 2 ^ 112) (hout : reserveOut < 2 ^ 112)
    (h : p.inputQuote reserveIn reserveOut x = .ok y) :
    0 < x ∧ x < reserveOut ∧
      y = reserveIn * x * FEE_DENOMINATOR / ((reserveOut - x) * (FEE_DENOMINATOR - p.fee)) + 1 := by
  have hfee' : p.fee < 1000000 := hfee
  unfold inputQuote at h
  split at h
  · cases h
  split at h
  · cases h
  split at h
  · cases h
  rename_i hx0 _ hxlt
  have hmul : reserveIn * x ≤ 2 ^ 112 * 2 ^ 112 := Nat.mul_le_mul hin.le (by omega)
  have hc : 0 < FEE_DENOMINATOR - p.fee := by omega
  have hmul' : (reserveOut - x) * (FEE_DENOMINATOR - p.fee) ≤ 2 ^ 112 * 1000000 :=
    Nat.mul_le_mul (by omega) (Nat.sub_le _ _)
  have hden : 0 < (reserveOut - x) * (FEE_DENOMINATOR - p.fee) := Nat.mul_pos (by omega) hc
  have hnum : reserveIn * x * FEE_DENOMINATOR < 2 ^ 256 := by unfold FEE_DENOMINATOR; omega
  dsimp only at h
  rw [complement_eq hfee, wsub_of_le (by omega) (by omega), wmul_of_lt (by omega : reserveIn * x < 2 ^ 256),
    wmul_of_lt hnum, wmul_of_lt (by omega), udiv_of_pos hden, ok_bind] at h
  have hquot := Nat.div_le_self (reserveIn * x * FEE_DENOMINATOR) ((reserveOut - x) * (FEE_DENOMINATOR - p.fee))
  unfold FEE_DENOMINATOR at hnum hquot
  rw [wadd_of_lt (by unfold FEE_DENOMINATOR; omega)] at h
  exact ⟨by omega, by omega, (Except.ok.inj h).symm⟩

/-- It is the curve's input rounded up, or one more. -/
theorem inputQuote_ok {x y : Nat} (hin : reserveIn < 2 ^ 112) (hout : reserveOut < 2 ^ 112)
    (h : p.inputQuote reserveIn reserveOut x = .ok y) :
    0 < x ∧ x < reserveOut ∧ reserveIn * x * FEE_DENOMINATOR ≤ p.net y * (reserveOut - x) ∧ 0 < y := by
  have hfee' : p.fee < 1000000 := hfee
  obtain ⟨hx0, hxlt, rfl⟩ := inputQuote_eq hfee hin hout h
  have hc : 0 < FEE_DENOMINATOR - p.fee := by unfold FEE_DENOMINATOR; omega
  have hlt := Nat.lt_div_mul_add (a := reserveIn * x * FEE_DENOMINATOR)
    (Nat.mul_pos (show 0 < reserveOut - x by omega) hc)
  refine ⟨hx0, hxlt, ?_, Nat.succ_pos _⟩
  unfold net
  generalize reserveIn * x * FEE_DENOMINATOR / ((reserveOut - x) * (FEE_DENOMINATOR - p.fee)) = q at *
  calc reserveIn * x * FEE_DENOMINATOR
      ≤ q * ((reserveOut - x) * (FEE_DENOMINATOR - p.fee)) + (reserveOut - x) * (FEE_DENOMINATOR - p.fee) := hlt.le
    _ = (q + 1) * (FEE_DENOMINATOR - p.fee) * (reserveOut - x) := by ring

/-- Past the last word, the denominator wraps to less than the reserves, and what it gives is refused. -/
theorem constantProductOutput_wrapped (hin : 0 < reserveIn) (hin' : reserveIn < 2 ^ 112) (hout : 0 < reserveOut)
    (hout' : reserveOut < 2 ^ 112) (h : 2 ^ 256 < reserveIn * FEE_DENOMINATOR + p.net amount) :
    ∃ m, p.constantProductOutput reserveIn reserveOut amount = .error (.error m) := by
  have hc : reserveIn * FEE_DENOMINATOR < 2 ^ 132 := by unfold FEE_DENOMINATOR; omega
  have hc0 : 1 < reserveIn * FEE_DENOMINATOR := by unfold FEE_DENOMINATOR; omega
  unfold constantProductOutput
  rw [amountInWithFee_eq hfee]
  dsimp only
  rw [wmul_of_lt (by omega : reserveIn * FEE_DENOMINATOR < 2 ^ 256)]
  generalize reserveIn * FEE_DENOMINATOR = c at *
  -- what the amount is short of the last word
  obtain ⟨short, hshort, hshort0, hshort1⟩ : ∃ short, min (p.net amount) (2 ^ 256 - 1) = 2 ^ 256 - short ∧ 0 < short ∧ short < c :=
    ⟨2 ^ 256 - min (p.net amount) (2 ^ 256 - 1), by omega, by omega, by omega⟩
  have hden : wadd 256 c (2 ^ 256 - short) = c - short := by unfold wadd; omega
  have hsmall : short * reserveOut ≤ 2 ^ 132 * 2 ^ 112 := Nat.mul_le_mul (by omega) hout'.le
  have hpos : 0 < short * reserveOut := Nat.mul_pos hshort0 hout
  have hnum : wmul 256 (2 ^ 256 - short) reserveOut = 2 ^ 256 - short * reserveOut := by
    unfold wmul
    rw [Nat.sub_mul, show 2 ^ 256 * reserveOut - short * reserveOut =
      2 ^ 256 - short * reserveOut + 2 ^ 256 * (reserveOut - 1) by
        obtain ⟨r, rfl⟩ := Nat.exists_eq_add_of_le' hout
        rw [Nat.add_sub_cancel, Nat.mul_add]
        omega]
    rw [Nat.add_mul_mod_self_left]
    exact Nat.mod_eq_of_lt (by omega)
  rw [hshort, hden, hnum, udiv_of_pos (by omega), ok_bind]
  have hlarge : reserveOut ≤ (2 ^ 256 - short * reserveOut) / (c - short) := by
    rw [Nat.le_div_iff_mul_le (by omega)]
    have : reserveOut * (c - short) ≤ 2 ^ 112 * 2 ^ 132 := Nat.mul_le_mul hout'.le (by omega)
    omega
  rw [if_pos hlarge]
  exact ⟨_, rfl⟩

/-- Where only the numerator wraps, the quote is there, and too low. -/
theorem constantProductOutput_low (hin : 0 < reserveIn) (hout : 0 < reserveOut)
    (hnum : 2 ^ 256 ≤ p.net amount * reserveOut) (hden : reserveIn * FEE_DENOMINATOR + p.net amount < 2 ^ 256) :
    ∃ out, p.constantProductOutput reserveIn reserveOut amount = .ok out ∧
      out < exactOutput reserveIn reserveOut (p.net amount) := by
  have hpos : 0 < reserveIn * FEE_DENOMINATOR := Nat.mul_pos hin (by decide)
  have hlt := exactOutput_lt (p.net amount) hin hout
  have hlow : p.net amount * reserveOut % 2 ^ 256 / (reserveIn * FEE_DENOMINATOR + p.net amount) <
      exactOutput reserveIn reserveOut (p.net amount) := by
    unfold exactOutput
    have hD : 0 < reserveIn * FEE_DENOMINATOR + p.net amount := by omega
    generalize reserveIn * FEE_DENOMINATOR + p.net amount = D at *
    generalize p.net amount * reserveOut = T at *
    calc T % 2 ^ 256 / D < T % 2 ^ 256 / D + 1 := Nat.lt_succ_self _
      _ = (T % 2 ^ 256 + D) / D := (Nat.add_div_right _ hD).symm
      _ ≤ T / D := Nat.div_le_div_right (by omega)
  unfold constantProductOutput
  rw [amountInWithFee_eq hfee, min_eq_left (by omega)]
  dsimp only
  rw [wmul_of_lt (by omega : reserveIn * FEE_DENOMINATOR < 2 ^ 256), wadd_of_lt hden, udiv_of_pos (by omega), ok_bind]
  refine ⟨_, ?_, hlow⟩
  change (if p.net amount * reserveOut % 2 ^ 256 / (reserveIn * FEE_DENOMINATOR + p.net amount) ≥ reserveOut then _ else _) = _
  rw [if_neg (by omega)]
  rfl

/-- At the last word the division is by zero. -/
theorem constantProductOutput_panics (hin : 0 < reserveIn) (hin' : reserveIn < 2 ^ 112)
    (h : reserveIn * FEE_DENOMINATOR + p.net amount = 2 ^ 256) :
    p.constantProductOutput reserveIn reserveOut amount = .error .panic := by
  have hc : reserveIn * FEE_DENOMINATOR < 2 ^ 132 := by unfold FEE_DENOMINATOR; omega
  have hc0 : 1 < reserveIn * FEE_DENOMINATOR := by unfold FEE_DENOMINATOR; omega
  have hzero : wadd 256 (reserveIn * FEE_DENOMINATOR) (p.net amount) = 0 := by unfold wadd; rw [h]; rfl
  unfold constantProductOutput
  rw [amountInWithFee_eq hfee, min_eq_left (by omega)]
  dsimp only
  rw [wmul_of_lt (by omega : reserveIn * FEE_DENOMINATOR < 2 ^ 256), hzero]
  rfl

end Fee

/-- A quote is the floor of the curve or an error, and an error where the computation does not fit. -/
def ExactOrRefused (p : UniswapV2Pool) (reserveIn reserveOut amount : Nat) (r : Except Fault Nat) : Prop :=
  (∀ out, r = .ok out → out = exactOutput reserveIn reserveOut (p.net amount)) ∧
    (¬p.Fits reserveIn reserveOut amount → ∃ m, r = .error (.error m))

theorem outputQuote_exact (hfee : p.fee < FEE_DENOMINATOR) (htype : p.poolType = .UniswapV2) (hvalid : p.isValid)
    (hin : 0 < reserveIn ∧ reserveIn < 2 ^ 112) (hout : 0 < reserveOut ∧ reserveOut < 2 ^ 112) :
    p.ExactOrRefused reserveIn reserveOut amount (p.outputQuote reserveIn reserveOut amount zeroForOne) ↔
      p.Fits reserveIn reserveOut amount ∨ 2 ^ 256 < reserveIn * FEE_DENOMINATOR + p.net amount := by
  have hc : reserveIn * FEE_DENOMINATOR < 2 ^ 256 := by unfold FEE_DENOMINATOR; omega
  unfold outputQuote
  by_cases h0 : amount = 0
  · rw [if_pos h0]
    refine ⟨fun _ => .inl ?_, fun _ => ⟨nofun, fun _ => ⟨_, rfl⟩⟩⟩
    rw [Fits, net, h0, Nat.zero_mul, Nat.zero_mul, Nat.add_zero]
    exact ⟨Nat.two_pow_pos _, hc⟩
  rw [if_neg h0, if_neg (not_not.2 hvalid), htype]
  dsimp only
  by_cases hfits : p.Fits reserveIn reserveOut amount
  · rw [constantProductOutput_of_fits hfee hin.1 hout.1 hfits]
    exact ⟨fun _ => .inl hfits, fun _ => ⟨fun out h => (Except.ok.inj h).symm, fun h => absurd hfits h⟩⟩
  rcases Nat.lt_trichotomy (reserveIn * FEE_DENOMINATOR + p.net amount) (2 ^ 256) with hlt | heq | hgt
  · have hnum : 2 ^ 256 ≤ p.net amount * reserveOut := Nat.le_of_not_lt fun hnum => hfits ⟨hnum, hlt⟩
    obtain ⟨out, hok, hlow⟩ := constantProductOutput_low hfee hin.1 hout.1 hnum hlt
    rw [hok]
    refine ⟨fun h => absurd (h.1 out rfl) (by omega), fun h => ?_⟩
    rcases h with h | h
    · exact absurd h hfits
    · omega
  · rw [constantProductOutput_panics hfee hin.1 hin.2 heq]
    refine ⟨fun h => ?_, fun h => ?_⟩
    · obtain ⟨m, hm⟩ := h.2 hfits
      cases hm
    · rcases h with h | h
      · exact absurd h hfits
      · omega
  · obtain ⟨m, hm⟩ := constantProductOutput_wrapped hfee hin.1 hin.2 hout.1 hout.2 hgt
    rw [hm]
    exact ⟨fun _ => .inr hgt, fun _ => ⟨nofun, fun _ => ⟨m, rfl⟩⟩⟩

/-- What a quote of an input token reads. -/
theorem calculateOutput_eq {tokenIn : Address} (h : tokenIn = p.token0 ∨ tokenIn = p.token1) (amount : Nat) :
    p.calculateOutput tokenIn amount =
      p.outputQuote (p.reserveOf tokenIn) (p.reserveAgainst tokenIn) amount (tokenIn = p.token0) := by
  unfold calculateOutput reserveOf reserveAgainst
  by_cases h0 : tokenIn = p.token0
  · rw [if_pos h0, if_pos h0, if_pos h0, decide_eq_true h0]
    rfl
  · rw [if_neg h0, if_pos (h.resolve_left h0), if_neg h0, if_neg h0, decide_eq_false h0]
    rfl

/-- Below `2^112` every quote of a constant-product pool fits. -/
theorem fits_of_lt (hin : reserveIn < 2 ^ 112) (hout : reserveOut < 2 ^ 112) (ha : amount < 2 ^ 112) :
    p.Fits reserveIn reserveOut amount := by
  have hnet := net_le p amount
  have hnet' : p.net amount ≤ 2 ^ 132 := by unfold FEE_DENOMINATOR at hnet; omega
  have hmul := Nat.mul_le_mul hnet' hout.le
  unfold Fits FEE_DENOMINATOR
  omega

theorem outputQuote_of_lt (hfee : p.fee < FEE_DENOMINATOR) (htype : p.poolType = .UniswapV2) (hvalid : p.isValid)
    (hin : 0 < reserveIn ∧ reserveIn < 2 ^ 112) (hout : 0 < reserveOut ∧ reserveOut < 2 ^ 112) (h0 : 0 < amount)
    (ha : amount < 2 ^ 112) :
    p.outputQuote reserveIn reserveOut amount zeroForOne = .ok (exactOutput reserveIn reserveOut (p.net amount)) := by
  unfold outputQuote
  rw [if_neg (by omega), if_neg (not_not.2 hvalid), htype]
  exact constantProductOutput_of_fits hfee hin.1 hout.1 (fits_of_lt hin.2 hout.2 ha)

/-- Quoting the input of an output and then the output of that input gives at least the output. -/
theorem inputQuote_round (hfee : p.fee < FEE_DENOMINATOR) (htype : p.poolType = .UniswapV2) (hvalid : p.isValid)
    (hin : 0 < reserveIn ∧ reserveIn < 2 ^ 112) (hout : 0 < reserveOut ∧ reserveOut < 2 ^ 112) {x y : Nat}
    (hy : y < 2 ^ 112) (h : p.inputQuote reserveIn reserveOut x = .ok y) :
    ∃ z, p.outputQuote reserveIn reserveOut y zeroForOne = .ok z ∧ x ≤ z := by
  obtain ⟨-, hlt, hcovers, hy0⟩ := inputQuote_ok hfee hin.2 hout.2 h
  exact ⟨_, outputQuote_of_lt hfee htype hvalid hin hout hy0 hy, le_exactOutput hin.1 hlt hcovers⟩

end UniswapV2Pool

open UniswapV2Pool

/-- **Constant-product quotes are sound.** Both ways through the pool an input quote pays for its output,
and a swap at an output quote takes less than the reserve and does not lower the product of the reserves. -/
theorem constantProduct_sound (p : UniswapV2Pool) (htype : p.poolType = .UniswapV2) (hfee : p.fee < FEE_DENOMINATOR)
    (h0 : 0 < p.reserve0 ∧ p.reserve0 < 2 ^ 112) (h1 : 0 < p.reserve1 ∧ p.reserve1 < 2 ^ 112) :
    (∀ x y, x < 2 ^ 112 → y < 2 ^ 112 →
      (p.calculateInput0To1 x = .ok y → ∃ z, p.calculateOutput0To1 y = .ok z ∧ x ≤ z) ∧
      (p.calculateInput1To0 x = .ok y → ∃ z, p.calculateOutput1To0 y = .ok z ∧ x ≤ z)) ∧
    (p.token0 ≠ p.token1 → ∀ x y, x < 2 ^ 112 → y < 2 ^ 112 →
      (p.calculateInput p.token1 x = .ok y → ∃ z, p.calculateOutput p.token0 y = .ok z ∧ x ≤ z) ∧
      (p.calculateInput p.token0 x = .ok y → ∃ z, p.calculateOutput p.token1 y = .ok z ∧ x ≤ z)) ∧
    ∀ now tokenIn a out, a < 2 ^ 112 → p.calculateOutput tokenIn a = .ok out →
      out < p.reserveAgainst tokenIn ∧ (p.applySwap now tokenIn a out).2 = .ok () ∧
        p.reserve0 * p.reserve1 ≤
          (p.applySwap now tokenIn a out).1.reserve0 * (p.applySwap now tokenIn a out).1.reserve1 := by
  have hvalid : p.isValid := ⟨by omega, by omega⟩
  have hround : ∀ x y, x < 2 ^ 112 → y < 2 ^ 112 →
      (p.calculateInput0To1 x = .ok y → ∃ z, p.calculateOutput0To1 y = .ok z ∧ x ≤ z) ∧
      (p.calculateInput1To0 x = .ok y → ∃ z, p.calculateOutput1To0 y = .ok z ∧ x ≤ z) := fun _ _ _ hy =>
    ⟨inputQuote_round hfee htype hvalid h0 h1 hy, inputQuote_round hfee htype hvalid h1 h0 hy⟩
  refine ⟨hround, fun hne x y hx hy => ?_, fun now tokenIn a out ha h => ?_⟩
  · unfold calculateInput calculateOutput
    rw [if_neg hne.symm, if_pos rfl, if_pos rfl, if_pos rfl, if_neg hne.symm, if_pos rfl]
    exact hround x y hx hy
  · have hquote : ∀ {rin rout : Nat} {b : Bool}, 0 < rin ∧ rin < 2 ^ 112 → 0 < rout ∧ rout < 2 ^ 112 →
        p.outputQuote rin rout a b = .ok out →
        out < rout ∧ rin * rout ≤ wadd 256 rin a * wsub 256 rout out := by
      intro rin rout b hin hout h
      have ha0 : 0 < a := Nat.pos_of_ne_zero fun h0 => by
        rw [h0, outputQuote, if_pos rfl] at h
        cases h
      rw [outputQuote_of_lt hfee htype hvalid hin hout ha0 ha] at h
      cases h
      have hlt := exactOutput_lt (p.net a) hin.1 hout.1
      rw [wadd_of_lt (by omega), wsub_of_le hlt.le (by omega)]
      exact ⟨hlt, exactOutput_product hin.1 hout.1 (net_le p a)⟩
    unfold calculateOutput at h
    unfold applySwap reserveAgainst
    split at h
    · rename_i hin
      obtain ⟨hlt, hprod⟩ := hquote h0 h1 h
      rw [if_pos hin, if_pos hin, if_neg (by omega)]
      exact ⟨hlt, rfl, hprod⟩
    split at h
    · rename_i hnot hin
      obtain ⟨hlt, hprod⟩ := hquote h1 h0 h
      rw [if_neg hnot, if_neg hnot, if_pos hin, if_neg (by omega)]
      refine ⟨hlt, rfl, ?_⟩
      rw [Nat.mul_comm p.reserve0]
      exact hprod.trans_eq (Nat.mul_comm _ _)
    · cases h

/-- A pair with a million of each token, at 0.3%. -/
def evenPair : UniswapV2Pool := ⟨.UniswapV2, 1, 2, 3, 10 ^ 18, 10 ^ 18, 10 ^ 24, 10 ^ 24, 3000, 0, 0⟩

/-- A thousand wei out of it, and the input it asks for back in. -/
theorem constantProduct_sound_thousand :
    evenPair.calculateInput 3 1000 = .ok 1004 ∧ ∃ z, evenPair.calculateOutput 2 1004 = .ok z ∧ 1000 ≤ z := by
  have h : evenPair.calculateInput 3 1000 = .ok 1004 := by decide +kernel
  exact ⟨h, (((constantProduct_sound evenPair rfl (by decide) (by decide) (by decide)).2.1 (by decide) 1000 1004 (by decide)
    (by decide)).1 h)⟩

/-- **An output quote is exact or refused** exactly where the computation fits its words, or the amount is
past the last word. -/
theorem constantProduct_exact (p : UniswapV2Pool) (htype : p.poolType = .UniswapV2) (hfee : p.fee < FEE_DENOMINATOR)
    (h0 : 0 < p.reserve0 ∧ p.reserve0 < 2 ^ 112) (h1 : 0 < p.reserve1 ∧ p.reserve1 < 2 ^ 112) {tokenIn : Address}
    (htoken : tokenIn = p.token0 ∨ tokenIn = p.token1) (a : Nat) :
    p.ExactOrRefused (p.reserveOf tokenIn) (p.reserveAgainst tokenIn) a (p.calculateOutput tokenIn a) ↔
      (p.net a * p.reserveAgainst tokenIn < 2 ^ 256 ∧ p.reserveOf tokenIn * FEE_DENOMINATOR + p.net a < 2 ^ 256) ∨
        2 ^ 256 < p.reserveOf tokenIn * FEE_DENOMINATOR + p.net a := by
  rw [calculateOutput_eq htoken]
  refine outputQuote_exact hfee htype ⟨by omega, by omega⟩ ?_ ?_
  · unfold reserveOf
    split
    · exact h0
    · exact h1
  · unfold reserveAgainst
    split
    · exact h1
    · exact h0

/-- A thousand wei into the even pair is quoted exactly. -/
theorem constantProduct_exact_thousand :
    evenPair.ExactOrRefused (10 ^ 24) (10 ^ 24) 1000 (evenPair.calculateOutput 2 1000) :=
  (constantProduct_exact evenPair rfl (by decide) (by decide) (by decide) (by decide) 1000).2 (.inl (by decide))

/-- `2^160` wei into it is quoted a twentieth of what the curve pays. -/
theorem constantProduct_exact_fails :
    ¬evenPair.ExactOrRefused (10 ^ 24) (10 ^ 24) (2 ^ 160) (evenPair.calculateOutput 2 (2 ^ 160)) := by
  have hout : evenPair.calculateOutput 2 (2 ^ 160) = .ok 46401253589596739094756 := by decide +kernel
  have hexact : exactOutput (10 ^ 24) (10 ^ 24) (evenPair.net (2 ^ 160)) = 999999999999999999999999 := by decide +kernel
  intro h
  exact absurd ((h.1 _ hout).trans hexact) (by decide)

end EvmDexPool.V2
