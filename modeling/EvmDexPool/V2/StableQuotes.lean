import EvmDexPool.V2.ConstantProduct
import EvmDexPool.V2.StableLoop

/-!
# Quotes of a stable pool

With reserves of at most `10^27` in units of 18 decimals a quote is the Newton loop from the reserve that
pays, and pays in whole units of its token what the loop leaves of it (`calculateOutput_newton`). What can
go wrong is said for each quote: a division by zero or a step past zero (`stable_safe`), the special case
of the loop (`stable_keeps`), and an input that was computed on the other curve (`stable_roundTrip`). Each time it is
said of the curve at the quote's own amounts, not of what the loop goes through.
-/

namespace EvmDexPool.V2

open Fixed

/-- An amount in units of 18 decimals. -/
def normal (amount decimals : Nat) : Nat := amount * EXP18 / decimals

namespace UniswapV2Pool
variable (p : UniswapV2Pool)

/-- `calculate_stable_output` with subtractions that fault below zero. -/
def calculateStableOutputChecked (amountIn : Nat) (zeroForOne : Bool) : Except Fault Nat := do
  let amountInWithFee := p.amountInWithFee amountIn / FEE_DENOMINATOR
  let xy ← p.k p.reserve0 p.reserve1
  let reserve0 ← parsed p.reserve0 p.decimals0
  let reserve1 ← parsed p.reserve1 p.decimals1
  let (reserveA, reserveB, decimalsIn, decimalsOut) :=
    if zeroForOne then (reserve0, reserve1, p.decimals0, p.decimals1)
    else (reserve1, reserve0, p.decimals1, p.decimals0)
  let amountInParsed ← parsed amountInWithFee decimalsIn
  let newY ← p.getYChecked (wadd 256 amountInParsed reserveA) xy 255 reserveB
  let y ← usub reserveB newY
  .ok (wmul 256 y decimalsOut / EXP18)

/-- `calculate_output` of a stable pool with such subtractions. -/
def calculateOutputChecked (tokenIn : Address) (amountIn : Nat) : Except Fault Nat :=
  if tokenIn ≠ p.token0 ∧ tokenIn ≠ p.token1 then .error (.error "Token not in pool")
  else if amountIn = 0 then .error (.error "Input amount cannot be zero")
  else if ¬p.isValid then .error (.error "Pool reserves are invalid")
  else p.calculateStableOutputChecked amountIn (tokenIn = p.token0)

def decimalsOf (token : Address) : Nat := if token = p.token0 then p.decimals0 else p.decimals1
def decimalsAgainst (token : Address) : Nat := if token = p.token0 then p.decimals1 else p.decimals0

/-- The two reserves of a quote in units of 18 decimals. -/
def normalOf (token : Address) : Nat := normal (p.reserveOf token) (p.decimalsOf token)
def normalAgainst (token : Address) : Nat := normal (p.reserveAgainst token) (p.decimalsAgainst token)

/-- The input side after an amount, net of its fee. -/
def inputSide (token : Address) (amount : Nat) : Nat :=
  normal (p.net amount / FEE_DENOMINATOR) (p.decimalsOf token) + p.normalOf token

/-- The invariant before a swap. -/
def target (token : Address) : Nat := curve (p.normalOf token) (p.normalAgainst token)

/-- What `k` comes to when its arguments are taken for raw amounts. -/
def rescaled (x y : Nat) : Nat := f (wmul 256 x EXP18 / p.decimals0) (wmul 256 y EXP18 / p.decimals1)

/-- The loop of a quote. -/
def loop (token : Address) (amount : Nat) : Except Fault Nat :=
  newton (p.rescaled (p.inputSide token amount)) (p.inputSide token amount) (p.target token) 255 (p.normalAgainst token)

/-- What is paid in whole units when the loop ends at `z`, and what is left of the reserve then. -/
def paid (token : Address) (z : Nat) : Nat := (p.normalAgainst token - z) / (EXP18 / p.decimalsAgainst token)
def left (token : Address) (z : Nat) : Nat :=
  p.normalAgainst token - p.paid token z * (EXP18 / p.decimalsAgainst token)

/-- A stable pool with reserves of at most `10^27`. -/
structure StablePool (p : UniswapV2Pool) : Prop where
  stable : p.poolType = .Stable
  fee : p.fee < FEE_DENOMINATOR
  reserve0 : p.reserve0 ≠ 0
  reserve1 : p.reserve1 ≠ 0
  decimals0 : ∃ i ≤ 18, p.decimals0 = 10 ^ i
  decimals1 : ∃ i ≤ 18, p.decimals1 = 10 ^ i
  bound0 : normal p.reserve0 p.decimals0 ≤ 10 ^ 27
  bound1 : normal p.reserve1 p.decimals1 ≤ 10 ^ 27

end UniswapV2Pool

/-! ## Units -/

section Units
variable {amount : Nat}

theorem dvd_exp18 (h : ∃ i ≤ 18, decimals = 10 ^ i) : decimals ∣ EXP18 := by
  obtain ⟨i, hi, rfl⟩ := h
  exact pow_dvd_pow 10 hi

theorem normal_eq (h : decimals ∣ EXP18) (amount : Nat) : normal amount decimals = amount * (EXP18 / decimals) :=
  Nat.mul_div_assoc _ h

theorem le_normal (h : decimals ∣ EXP18) (amount : Nat) : amount ≤ normal amount decimals := by
  rw [normal_eq h]
  exact Nat.le_mul_of_pos_right _ (Nat.div_pos (Nat.le_of_dvd exp18_pos h) (Nat.pos_of_dvd_of_pos h exp18_pos))

/-- Back in whole units. -/
theorem div_units (h : decimals ∣ EXP18) (n : Nat) : n * decimals / EXP18 = n / (EXP18 / decimals) := by
  obtain ⟨units, hunits⟩ := h
  have hpos : 0 < decimals := Nat.pos_of_ne_zero fun h0 => by
    rw [h0, Nat.zero_mul] at hunits
    exact absurd hunits (by decide)
  rw [hunits, Nat.mul_div_cancel_left _ hpos, Nat.mul_comm decimals, Nat.mul_div_mul_right _ _ hpos]

theorem parsed_eq (h : decimals ∣ EXP18) (hle : normal amount decimals ≤ 2 * 10 ^ 27) :
    UniswapV2Pool.parsed amount decimals = .ok (normal amount decimals) := by
  have := le_normal h amount
  rw [UniswapV2Pool.parsed, wmul_of_lt (by unfold EXP18; omega), udiv_of_pos (Nat.pos_of_dvd_of_pos h exp18_pos)]
  rfl

end Units

namespace UniswapV2Pool
variable {p : UniswapV2Pool} {tokenIn : Address} {amount : Nat}

/-- A side of a stable pool. -/
structure Side (reserve decimals : Nat) : Prop where
  pos : 1 ≤ reserve
  units : decimals ∣ EXP18
  bound : normal reserve decimals ≤ 10 ^ 27

theorem StablePool.side0 (hp : StablePool p) : Side p.reserve0 p.decimals0 :=
  ⟨Nat.pos_of_ne_zero hp.reserve0, dvd_exp18 hp.decimals0, hp.bound0⟩

theorem StablePool.side1 (hp : StablePool p) : Side p.reserve1 p.decimals1 :=
  ⟨Nat.pos_of_ne_zero hp.reserve1, dvd_exp18 hp.decimals1, hp.bound1⟩

theorem StablePool.sideOf (hp : StablePool p) (token : Address) : Side (p.reserveOf token) (p.decimalsOf token) := by
  unfold reserveOf decimalsOf
  split
  · exact hp.side0
  · exact hp.side1

theorem StablePool.sideAgainst (hp : StablePool p) (token : Address) :
    Side (p.reserveAgainst token) (p.decimalsAgainst token) := by
  unfold reserveAgainst decimalsAgainst
  split
  · exact hp.side1
  · exact hp.side0

/-- `k` of amounts whose normal forms are small is the curve of them. -/
theorem k_eq_curve (hp : StablePool p) {x y : Nat} (hx : normal x p.decimals0 ≤ 2 * 10 ^ 27)
    (hy : normal y p.decimals1 ≤ 2 * 10 ^ 27) : p.k x y = .ok (curve (normal x p.decimals0) (normal y p.decimals1)) := by
  rw [k, if_pos hp.stable, parsed_eq hp.side0.units hx, ok_bind, parsed_eq hp.side1.units hy, ok_bind,
    (f_eq hx (by omega)).1]

theorem k_eq_rescaled (hp : StablePool p) (x y : Nat) : p.k x y = .ok (p.rescaled x y) := by
  rw [k, if_pos hp.stable, parsed, parsed, udiv_of_pos (Nat.pos_of_dvd_of_pos hp.side0.units exp18_pos), ok_bind,
    udiv_of_pos (Nat.pos_of_dvd_of_pos hp.side1.units exp18_pos), ok_bind]
  rfl

/-! ## A quote is the loop -/

theorem sides_of_token0 (h : tokenIn = p.token0) :
    p.normalOf tokenIn = normal p.reserve0 p.decimals0 ∧ p.normalAgainst tokenIn = normal p.reserve1 p.decimals1 ∧
      p.decimalsOf tokenIn = p.decimals0 ∧ p.decimalsAgainst tokenIn = p.decimals1 := by
  unfold normalOf normalAgainst reserveOf reserveAgainst decimalsOf decimalsAgainst
  simp [h]

theorem sides_of_token1 (h : tokenIn ≠ p.token0) :
    p.normalOf tokenIn = normal p.reserve1 p.decimals1 ∧ p.normalAgainst tokenIn = normal p.reserve0 p.decimals0 ∧
      p.decimalsOf tokenIn = p.decimals1 ∧ p.decimalsAgainst tokenIn = p.decimals0 := by
  unfold normalOf normalAgainst reserveOf reserveAgainst decimalsOf decimalsAgainst
  simp [h]

/-- The sides as the source picks them. -/
theorem sides_eq (p : UniswapV2Pool) (tokenIn : Address) :
    (if decide (tokenIn = p.token0) = true then
      (normal p.reserve0 p.decimals0, normal p.reserve1 p.decimals1, p.decimals0, p.decimals1)
    else (normal p.reserve1 p.decimals1, normal p.reserve0 p.decimals0, p.decimals1, p.decimals0)) =
      (p.normalOf tokenIn, p.normalAgainst tokenIn, p.decimalsOf tokenIn, p.decimalsAgainst tokenIn) := by
  by_cases h : tokenIn = p.token0
  · obtain ⟨hnormal, hagainst, hdec, hdec'⟩ := sides_of_token0 h
    rw [hnormal, hagainst, hdec, hdec', if_pos (decide_eq_true h)]
  · obtain ⟨hnormal, hagainst, hdec, hdec'⟩ := sides_of_token1 h
    rw [hnormal, hagainst, hdec, hdec', decide_eq_false h]
    simp

section Quote
variable (hp : StablePool p) (hx : p.inputSide tokenIn amount ≤ 2 * 10 ^ 27)
include hp hx

/-- The amount net of its fee, which does not saturate. -/
theorem amountInWithFee_div : p.amountInWithFee amount / FEE_DENOMINATOR = p.net amount / FEE_DENOMINATOR := by
  have hle : p.net amount / FEE_DENOMINATOR ≤ 2 * 10 ^ 27 :=
    (le_normal (hp.sideOf tokenIn).units _).trans ((Nat.le_add_right _ _).trans hx)
  have hlt := Nat.lt_div_mul_add (a := p.net amount) (show 0 < FEE_DENOMINATOR by decide)
  rw [amountInWithFee_eq hp.fee, min_eq_left]
  unfold FEE_DENOMINATOR at hle hlt
  omega

theorem parsed_net :
    parsed (p.amountInWithFee amount / FEE_DENOMINATOR) (p.decimalsOf tokenIn) =
      .ok (normal (p.net amount / FEE_DENOMINATOR) (p.decimalsOf tokenIn)) := by
  rw [amountInWithFee_div hp hx, parsed_eq (hp.sideOf tokenIn).units ((Nat.le_add_right _ _).trans hx)]

omit hx in
theorem k_eq_target (tokenIn : Address) : p.k p.reserve0 p.reserve1 = .ok (p.target tokenIn) := by
  have h0 := hp.bound0
  have h1 := hp.bound1
  rw [k_eq_curve hp (by omega) (by omega)]
  unfold target normalOf normalAgainst reserveOf reserveAgainst decimalsOf decimalsAgainst
  split
  · rfl
  · rw [curve_comm]

omit hx in
theorem parsed_reserves : parsed p.reserve0 p.decimals0 = .ok (normal p.reserve0 p.decimals0) ∧
    parsed p.reserve1 p.decimals1 = .ok (normal p.reserve1 p.decimals1) := by
  have h0 := hp.bound0
  have h1 := hp.bound1
  exact ⟨parsed_eq hp.side0.units (by omega), parsed_eq hp.side1.units (by omega)⟩

omit hp in
theorem wadd_inputSide : wadd 256 (normal (p.net amount / FEE_DENOMINATOR) (p.decimalsOf tokenIn)) (p.normalOf tokenIn) =
    p.inputSide tokenIn amount := by
  unfold inputSide at hx ⊢
  exact wadd_of_lt (by omega)

omit hx in
/-- What is above the amount the loop ends in is paid. -/
theorem pays (tokenIn : Address) (z : Nat) :
    wmul 256 (p.normalAgainst tokenIn - z) (p.decimalsAgainst tokenIn) / EXP18 = p.paid tokenIn z := by
  have hag := hp.sideAgainst tokenIn
  have hbound := hag.bound
  have hdec := Nat.le_of_dvd exp18_pos hag.units
  have hle : (p.normalAgainst tokenIn - z) * p.decimalsAgainst tokenIn ≤ 10 ^ 27 * EXP18 :=
    Nat.mul_le_mul ((Nat.sub_le _ _).trans hbound) hdec
  rw [wmul_of_lt (hle.trans_lt (by decide)), div_units hag.units]
  rfl

omit hp hx in
theorem normalOf_le (tokenIn : Address) (amount : Nat) : p.normalOf tokenIn ≤ p.inputSide tokenIn amount :=
  Nat.le_add_left _ _

omit hx in
theorem normalOf_pos (tokenIn : Address) : 1 ≤ p.normalOf tokenIn :=
  (hp.sideOf tokenIn).pos.trans (le_normal (hp.sideOf tokenIn).units _)

omit hx in
theorem loop_le {z : Nat} (h : p.loop tokenIn amount = .ok z) : z ≤ p.normalAgainst tokenIn :=
  newton_start_le (normalOf_pos hp tokenIn) (normalOf_le tokenIn amount) h

theorem getYChecked_loop :
    p.getYChecked (p.inputSide tokenIn amount) (p.target tokenIn) 255 (p.normalAgainst tokenIn) = p.loop tokenIn amount :=
  getYChecked_start (k_eq_rescaled hp _) (normalOf_pos hp tokenIn) (normalOf_le tokenIn amount) hx
    (hp.sideAgainst tokenIn).bound 254

/-- A quote is the loop over words. -/
theorem calculateStableOutput_eq : p.calculateStableOutput amount (tokenIn = p.token0) = (do
    let newY ← p.getY (p.inputSide tokenIn amount) (p.target tokenIn) 255 (p.normalAgainst tokenIn)
    .ok (wmul 256 (wsub 256 (p.normalAgainst tokenIn) newY) (p.decimalsAgainst tokenIn) / EXP18)) := by
  unfold calculateStableOutput
  dsimp only
  rw [k_eq_target hp tokenIn, ok_bind, (parsed_reserves hp).1, ok_bind, (parsed_reserves hp).2, ok_bind,
    sides_eq]
  dsimp only
  rw [parsed_net hp hx, ok_bind, wadd_inputSide hx]

/-- And with subtractions that fault the loop over unbounded numbers. -/
theorem calculateStableOutputChecked_eq : p.calculateStableOutputChecked amount (tokenIn = p.token0) = (do
    let z ← p.loop tokenIn amount
    .ok (p.paid tokenIn z)) := by
  have hfinish : (p.getYChecked (p.inputSide tokenIn amount) (p.target tokenIn) 255 (p.normalAgainst tokenIn) >>= fun newY =>
      usub (p.normalAgainst tokenIn) newY >>= fun y => .ok (wmul 256 y (p.decimalsAgainst tokenIn) / EXP18)) =
      (p.loop tokenIn amount >>= fun z => .ok (p.paid tokenIn z)) := by
    rw [getYChecked_loop hp hx]
    cases h : p.loop tokenIn amount with
    | error e => rw [error_bind, error_bind]
    | ok z =>
      have hz := loop_le hp h
      rw [ok_bind, ok_bind, usub_of_le hz, ok_bind, pays hp tokenIn z]
  unfold calculateStableOutputChecked
  dsimp only
  rw [k_eq_target hp tokenIn, ok_bind, (parsed_reserves hp).1, ok_bind, (parsed_reserves hp).2, ok_bind, ← hfinish,
    sides_eq]
  dsimp only
  rw [parsed_net hp hx, ok_bind, wadd_inputSide hx]

omit hx in
theorem target_lt (tokenIn : Address) : p.target tokenIn < 2 ^ 256 := by
  have hof : p.normalOf tokenIn ≤ 10 ^ 27 := (hp.sideOf tokenIn).bound
  have hag : p.normalAgainst tokenIn ≤ 10 ^ 27 := (hp.sideAgainst tokenIn).bound
  have hfits := (f_eq (hof.trans (by decide)) (hag.trans (by decide))).2.2
  unfold target
  exact (Nat.le_mul_of_pos_right _ exp18_pos).trans_lt hfits

/-- Where the loop does not step below zero, the quote is what it leaves of the reserve. -/
theorem calculateStableOutput_loop (h : p.loop tokenIn amount ≠ .error .overflow) :
    p.calculateStableOutput amount (tokenIn = p.token0) = (do
      let z ← p.loop tokenIn amount
      .ok (p.paid tokenIn z)) := by
  have hag : p.normalAgainst tokenIn ≤ 10 ^ 27 := (hp.sideAgainst tokenIn).bound
  have hlt : p.normalAgainst tokenIn < 2 ^ 256 := hag.trans_lt (by decide)
  have hloop := getYChecked_loop hp hx
  have hget := getY_of_checked (target_lt hp tokenIn) hlt (hloop.trans_ne h)
  rw [calculateStableOutput_eq hp hx, hget, hloop]
  cases hz : p.loop tokenIn amount with
  | error e => rw [error_bind, error_bind]
  | ok z =>
    have hle := loop_le hp hz
    rw [ok_bind, ok_bind, wsub_of_le hle hlt, pays hp tokenIn z]

end Quote

theorem inputSide_le (hp : StablePool p) (ha : normal amount (p.decimalsOf tokenIn) ≤ 10 ^ 27) :
    p.inputSide tokenIn amount ≤ 2 * 10 ^ 27 := by
  have hbound : p.normalOf tokenIn ≤ 10 ^ 27 := (hp.sideOf tokenIn).bound
  have hnet : p.net amount / FEE_DENOMINATOR ≤ amount := Nat.div_le_of_le_mul (by
    rw [Nat.mul_comm]
    exact net_le p amount)
  have hmono : normal (p.net amount / FEE_DENOMINATOR) (p.decimalsOf tokenIn) ≤ normal amount (p.decimalsOf tokenIn) :=
    Nat.div_le_div_right (Nat.mul_le_mul_right _ hnet)
  unfold inputSide
  omega

/-- The loop of a quote does not step past zero. -/
def NoStepPastZero (p : UniswapV2Pool) (tokenIn : Address) (amount : Nat) : Prop :=
  p.target tokenIn = 0 → Descends (p.inputSide tokenIn amount) 255 (p.normalAgainst tokenIn)

theorem loop_returns (hp : StablePool p) (tokenIn : Address) (amount : Nat) :
    Returns (p.loop tokenIn amount) ↔
      slope (p.inputSide tokenIn amount) (p.normalAgainst tokenIn) ≠ 0 ∧ p.NoStepPastZero tokenIn amount :=
  newton_start_returns _ 254 (normalOf_pos hp tokenIn) (normalOf_le tokenIn amount)

/-- The invariant is not floored to zero, or the curve stays there; or the input side is not between a quarter and
thirty-three tenths of a thousandth of a token. -/
def Clears (p : UniswapV2Pool) (tokenIn : Address) (amount : Nat) : Prop :=
  1 ≤ p.target tokenIn ∨ curve (p.inputSide tokenIn amount) (p.normalAgainst tokenIn) = 0 ∨
    p.inputSide tokenIn amount < 250000000000000 ∨ 3300000000000000 ≤ p.inputSide tokenIn amount

theorem Clears.noStepPastZero (h : p.Clears tokenIn amount) : p.NoStepPastZero tokenIn amount := by
  intro hzero
  rcases h with hpos | hflat | hnarrow | hwide
  · omega
  · exact .inl hflat
  · exact descends_of (step_le_of_narrow hnarrow) _ _
  · exact descends_of (step_le_of_wide hwide) _ _

/-- Then a quote is the loop, as far as it does not fault. -/
theorem loop_ne_overflow (hp : StablePool p) (h : p.NoStepPastZero tokenIn amount) :
    p.loop tokenIn amount ≠ .error .overflow := by
  intro hfault
  by_cases hs : slope (p.inputSide tokenIn amount) (p.normalAgainst tokenIn) = 0
  · rw [loop, newton, newtonRound, if_pos hs] at hfault
    cases hfault
  · have hreturns := (loop_returns hp tokenIn amount).2 ⟨hs, h⟩
    rw [hfault] at hreturns
    exact hreturns

/-- A quote of a token of the pool. -/
theorem calculateOutput_stable (hp : StablePool p) (htoken : tokenIn = p.token0 ∨ tokenIn = p.token1) (h0 : amount ≠ 0) :
    p.calculateOutput tokenIn amount = p.calculateStableOutput amount (tokenIn = p.token0) ∧
      p.calculateOutputChecked tokenIn amount = p.calculateStableOutputChecked amount (tokenIn = p.token0) := by
  have hvalid : p.isValid := ⟨hp.reserve0, hp.reserve1⟩
  constructor
  · rw [calculateOutput_eq htoken, outputQuote, if_neg h0, if_neg (not_not.2 hvalid), hp.stable]
  · rw [calculateOutputChecked, if_neg (fun h => htoken.elim h.1 h.2), if_neg h0, if_neg (not_not.2 hvalid)]

/-- What an output quote pays. -/
theorem calculateOutput_ok (hp : StablePool p) (htoken : tokenIn = p.token0 ∨ tokenIn = p.token1)
    (hx : p.inputSide tokenIn amount ≤ 2 * 10 ^ 27) (hsteps : p.NoStepPastZero tokenIn amount) {out : Nat}
    (h : p.calculateOutput tokenIn amount = .ok out) :
    ∃ z, p.loop tokenIn amount = .ok z ∧ z ≤ p.normalAgainst tokenIn ∧ out = p.paid tokenIn z := by
  have h0 : amount ≠ 0 := by
    rintro rfl
    rw [calculateOutput_eq htoken, outputQuote, if_pos rfl] at h
    cases h
  rw [(calculateOutput_stable hp htoken h0).1, calculateStableOutput_loop hp hx (loop_ne_overflow hp hsteps)] at h
  obtain ⟨z, hz, hout⟩ := bind_eq_ok.1 h
  cases hout
  exact ⟨z, hz, loop_le hp hz, rfl⟩

end UniswapV2Pool

open UniswapV2Pool

/-! ## Quotes that do not fail -/

/-- A stable quote is safe where its loop is. -/
theorem UniswapV2Pool.safe_iff {p : UniswapV2Pool} (hp : StablePool p) {tokenIn : Address}
    (htoken : tokenIn = p.token0 ∨ tokenIn = p.token1) {amount : Nat} (h0 : amount ≠ 0)
    (hx : p.inputSide tokenIn amount ≤ 2 * 10 ^ 27) :
    (Returns (p.calculateOutput tokenIn amount) ∧ Returns (p.calculateOutputChecked tokenIn amount)) ↔
      slope (p.inputSide tokenIn amount) (p.normalAgainst tokenIn) ≠ 0 ∧ p.NoStepPastZero tokenIn amount := by
  obtain ⟨hout, hchecked⟩ := calculateOutput_stable hp htoken h0
  rw [hout, hchecked, calculateStableOutputChecked_eq hp hx, ← loop_returns hp, returns_bind_iff fun _ _ => returns_ok _]
  refine ⟨And.right, fun hreturns => ⟨?_, hreturns⟩⟩
  have hsteps := ((loop_returns hp tokenIn amount).1 hreturns).2
  rw [calculateStableOutput_loop hp hx (loop_ne_overflow hp hsteps)]
  exact returns_bind hreturns fun _ _ => returns_ok _

/-- **A stable quote returns without going below zero** where the slope at the reserve that pays has not been floored to
zero and the loop has no way past zero (`Clears`). It does not where that slope has, or where the invariant is zero and
the first step goes past. -/
theorem stable_safe (p : UniswapV2Pool) (hp : StablePool p) {tokenIn : Address}
    (htoken : tokenIn = p.token0 ∨ tokenIn = p.token1) (amount : Nat)
    (ha : normal amount (p.decimalsOf tokenIn) ≤ 10 ^ 27) :
    (amount = 0 ∨ (slope (p.inputSide tokenIn amount) (p.normalAgainst tokenIn) ≠ 0 ∧ p.Clears tokenIn amount) →
      Returns (p.calculateOutput tokenIn amount) ∧ Returns (p.calculateOutputChecked tokenIn amount)) ∧
    (Returns (p.calculateOutput tokenIn amount) ∧ Returns (p.calculateOutputChecked tokenIn amount) →
      amount = 0 ∨ (slope (p.inputSide tokenIn amount) (p.normalAgainst tokenIn) ≠ 0 ∧
        (1 ≤ p.target tokenIn ∨
          curve (p.inputSide tokenIn amount) (p.normalAgainst tokenIn) * EXP18 /
            slope (p.inputSide tokenIn amount) (p.normalAgainst tokenIn) ≤ p.normalAgainst tokenIn))) := by
  have hx := inputSide_le hp ha
  by_cases h0 : amount = 0
  · refine ⟨fun _ => ⟨?_, ?_⟩, fun _ => .inl h0⟩
    · rw [calculateOutput_eq htoken, outputQuote, if_pos h0]
      exact returns_msg _
    · rw [calculateOutputChecked, if_neg (fun h => htoken.elim h.1 h.2), if_pos h0]
      exact returns_msg _
  rw [safe_iff hp htoken h0 hx]
  refine ⟨fun h => ?_, fun h => .inr ⟨h.1, ?_⟩⟩
  · obtain ⟨hs, hclears⟩ := h.resolve_left h0
    exact ⟨hs, hclears.noStepPastZero⟩
  · rcases Nat.eq_zero_or_pos (p.target tokenIn) with hzero | hpos
    · rcases h.2 hzero with hflat | ⟨hfirst, -⟩
      · right
        rw [hflat, Nat.zero_mul, Nat.zero_div]
        exact Nat.zero_le _
      · exact .inr hfirst
    · exact .inl hpos

/-- A pair with a million of each token, at 0.3%, on the stable curve. -/
def stablePair : UniswapV2Pool := { evenPair with poolType := .Stable }

theorem stablePair_stable : StablePool stablePair :=
  ⟨rfl, by decide, by decide, by decide, ⟨18, le_rfl, rfl⟩, ⟨18, le_rfl, rfl⟩, by decide +kernel, by decide +kernel⟩

/-- A whole token into it. -/
theorem stable_safe_token : Returns (stablePair.calculateOutput 2 (10 ^ 18)) ∧ Returns (stablePair.calculateOutputChecked 2 (10 ^ 18)) :=
  (stable_safe stablePair stablePair_stable (.inl rfl) (10 ^ 18) (by decide +kernel)).1
    (.inr ⟨by decide +kernel, .inl (by decide +kernel)⟩)

/-- With a thousand wei on each side the slope is floored to zero, and a quote panics. -/
theorem stable_safe_fails :
    StablePool { stablePair with reserve0 := 1000, reserve1 := 1000 } ∧
      ¬(Returns (calculateOutput { stablePair with reserve0 := 1000, reserve1 := 1000 } 2 1000) ∧
        Returns (calculateOutputChecked { stablePair with reserve0 := 1000, reserve1 := 1000 } 2 1000)) := by
  have hpanic : calculateOutput { stablePair with reserve0 := 1000, reserve1 := 1000 } 2 1000 = .error .panic := by
    decide +kernel
  refine ⟨⟨rfl, by decide, by decide, by decide, ⟨18, le_rfl, rfl⟩, ⟨18, le_rfl, rfl⟩, by decide +kernel, by decide +kernel⟩, ?_⟩
  rintro ⟨h, -⟩
  rw [hpanic] at h
  exact h

/-! ## The invariant -/

namespace UniswapV2Pool
variable {p : UniswapV2Pool} {tokenIn : Address} {amount : Nat}

/-- `k` of the reserves after an amount, net of its fee, has come in and `out` has gone out. -/
def kAfter (p : UniswapV2Pool) (tokenIn : Address) (amount out : Nat) : Except Fault Nat :=
  let net := p.amountInWithFee amount / FEE_DENOMINATOR
  if tokenIn = p.token0 then p.k (wadd 256 p.reserve0 net) (wsub 256 p.reserve1 out)
  else p.k (wsub 256 p.reserve0 out) (wadd 256 p.reserve1 net)

/-- A quote pays no more than the reserve, and the swap does not lower `k`. -/
def Keeps (p : UniswapV2Pool) (tokenIn : Address) (amount : Nat) : Prop :=
  ∀ out, p.calculateOutput tokenIn amount = .ok out → out ≤ p.reserveAgainst tokenIn ∧
    ∃ before after, p.k p.reserve0 p.reserve1 = .ok before ∧ p.kAfter tokenIn amount out = .ok after ∧ before ≤ after

/-- The special case takes no amount that, rounded up to what whole units leave of the reserve, is below the curve. It is
asked for at an amount whose step up rounds to zero, and compares the next amount rescaled. -/
def ShortcutKeeps (p : UniswapV2Pool) (tokenIn : Address) (amount : Nat) : Prop :=
  ∀ y, y < p.normalAgainst tokenIn → curve (p.inputSide tokenIn amount) y < p.target tokenIn →
    (p.target tokenIn - curve (p.inputSide tokenIn amount) y) * EXP18 < slope (p.inputSide tokenIn amount) y →
    p.target tokenIn < p.rescaled (p.inputSide tokenIn amount) (y + 1) →
    p.target tokenIn ≤ curve (p.inputSide tokenIn amount) (p.left tokenIn (y + 1))

theorem le_left (tokenIn : Address) {z : Nat} (hz : z ≤ p.normalAgainst tokenIn) : z ≤ p.left tokenIn z := by
  have := Nat.div_mul_le_self (p.normalAgainst tokenIn - z) (EXP18 / p.decimalsAgainst tokenIn)
  unfold left paid
  omega

/-- What the reserve comes to after the payment. -/
theorem normal_left (hp : StablePool p) (tokenIn : Address) (z : Nat) :
    normal (p.reserveAgainst tokenIn - p.paid tokenIn z) (p.decimalsAgainst tokenIn) = p.left tokenIn z := by
  have hag := hp.sideAgainst tokenIn
  have hnormal : p.normalAgainst tokenIn = p.reserveAgainst tokenIn * (EXP18 / p.decimalsAgainst tokenIn) :=
    normal_eq hag.units _
  rw [normal_eq hag.units, Nat.sub_mul, left, hnormal]

/-- Then what is left of the amount the loop ends in is on the curve. -/
theorem ShortcutKeeps.covers (hp : StablePool p) (h : p.ShortcutKeeps tokenIn amount) {z : Nat}
    (hz : p.loop tokenIn amount = .ok z) : p.target tokenIn ≤ curve (p.inputSide tokenIn amount) (p.left tokenIn z) :=
  newton_covers (fun _ hle => le_left tokenIn hle) h hz (loop_le hp hz)

/-- With 18 decimals on both sides the special case compares the curve itself. -/
theorem shortcutKeeps_of_eighteen (hp : StablePool p) (h0 : p.decimals0 = EXP18) (h1 : p.decimals1 = EXP18)
    (hx : p.inputSide tokenIn amount ≤ 2 * 10 ^ 27) : p.ShortcutKeeps tokenIn amount := by
  have hag : p.normalAgainst tokenIn ≤ 10 ^ 27 := (hp.sideAgainst tokenIn).bound
  intro y hy _ _ hpast
  have hsame : ∀ n, n ≤ 2 * 10 ^ 27 → wmul 256 n EXP18 / EXP18 = n := fun n hn => by
    rw [wmul_of_lt (by unfold EXP18; omega), Nat.mul_div_cancel _ exp18_pos]
  rw [rescaled, h0, h1, hsame _ hx, hsame _ (by omega), (f_eq hx (by omega)).1] at hpast
  exact hpast.le.trans (curve_mono (le_left tokenIn hy))

end UniswapV2Pool

namespace UniswapV2Pool
variable {p : UniswapV2Pool} {tokenIn tokenOut : Address} {x : Nat}

/-- The input that the constant-product formula asks for an output. -/
def inputFor (p : UniswapV2Pool) (tokenIn : Address) (x : Nat) : Nat :=
  p.reserveOf tokenIn * x * FEE_DENOMINATOR / ((p.reserveAgainst tokenIn - x) * (FEE_DENOMINATOR - p.fee)) + 1

/-- The input quoted for `x` buys at least `x`. -/
def BuysBack (p : UniswapV2Pool) (tokenIn tokenOut : Address) (x : Nat) : Prop :=
  ∀ y z, p.calculateInput tokenOut x = .ok y → p.calculateOutput tokenIn y = .ok z → x ≤ z

/-- The paying reserve without `x`, in units of 18 decimals. -/
def without (p : UniswapV2Pool) (tokenIn : Address) (x : Nat) : Nat :=
  p.normalAgainst tokenIn - normal x (p.decimalsAgainst tokenIn)

theorem calculateInput_ok (hp : StablePool p) (hne : p.token0 ≠ p.token1)
    (htokens : tokenIn = p.token0 ∧ tokenOut = p.token1 ∨ tokenIn = p.token1 ∧ tokenOut = p.token0) {y : Nat}
    (h : p.calculateInput tokenOut x = .ok y) : x < p.reserveAgainst tokenIn ∧ y = p.inputFor tokenIn x := by
  have hin := ((le_normal (hp.sideOf tokenIn).units (p.reserveOf tokenIn)).trans (hp.sideOf tokenIn).bound).trans_lt
    (show 10 ^ 27 < 2 ^ 112 by decide)
  have hout := ((le_normal (hp.sideAgainst tokenIn).units (p.reserveAgainst tokenIn)).trans
    (hp.sideAgainst tokenIn).bound).trans_lt (show 10 ^ 27 < 2 ^ 112 by decide)
  have hquote : p.inputQuote (p.reserveOf tokenIn) (p.reserveAgainst tokenIn) x = .ok y := by
    unfold calculateInput at h
    unfold reserveOf reserveAgainst
    rcases htokens with ⟨rfl, rfl⟩ | ⟨rfl, rfl⟩
    · rw [if_neg hne.symm, if_pos rfl] at h
      rw [if_pos rfl, if_pos rfl]
      exact h
    · rw [if_pos rfl] at h
      rw [if_neg hne.symm, if_neg hne.symm]
      exact h
  exact (inputQuote_eq hp.fee hin hout hquote).2

/-- Without a slope at the reserve there is no quote. -/
theorem slope_of_calculateOutput_ok (hp : StablePool p) (htoken : tokenIn = p.token0 ∨ tokenIn = p.token1) {amount out : Nat}
    (hx : p.inputSide tokenIn amount ≤ 2 * 10 ^ 27) (h : p.calculateOutput tokenIn amount = .ok out) :
    slope (p.inputSide tokenIn amount) (p.normalAgainst tokenIn) ≠ 0 := by
  intro hflat
  have hcurve : curve (p.inputSide tokenIn amount) (p.normalAgainst tokenIn) = 0 := by
    by_contra hpos
    have := slope_pos (Nat.pos_of_ne_zero hpos)
    omega
  have hclears : p.Clears tokenIn amount := .inr (.inl hcurve)
  obtain ⟨z, hz, -⟩ := calculateOutput_ok hp htoken hx hclears.noStepPastZero h
  rw [loop, newton, newtonRound, if_pos hflat] at hz
  cases hz

/-- A loop that ends at or below the reserve without `x` pays `x`. -/
theorem le_paid (hp : StablePool p) {z : Nat} (hx : x < p.reserveAgainst tokenIn) (hz : z ≤ p.without tokenIn x) :
    x ≤ p.paid tokenIn z := by
  have hag := hp.sideAgainst tokenIn
  have hpos : 0 < EXP18 / p.decimalsAgainst tokenIn :=
    Nat.div_pos (Nat.le_of_dvd exp18_pos hag.units) (Nat.pos_of_dvd_of_pos hag.units exp18_pos)
  have hmono : normal x (p.decimalsAgainst tokenIn) ≤ p.normalAgainst tokenIn :=
    Nat.div_le_div_right (Nat.mul_le_mul_right _ hx.le)
  unfold without at hz
  rw [normal_eq hag.units] at hz hmono
  rw [paid, Nat.le_div_iff_mul_le hpos]
  omega

/-- And one that leaves more than that does not. -/
theorem paid_lt {z : Nat} (h : p.without tokenIn x < p.left tokenIn z) (hp : StablePool p) : p.paid tokenIn z < x := by
  have hag := hp.sideAgainst tokenIn
  unfold without left at h
  rw [normal_eq hag.units] at h
  by_contra hge
  have := Nat.mul_le_mul_right (EXP18 / p.decimalsAgainst tokenIn) (Nat.not_lt.1 hge)
  omega

end UniswapV2Pool

/-- **The input of a stable quote buys its output back** where the constant-product input takes the stable curve to the
invariant at the reserve without the output, and past it at the next amount. Where it takes it less far, or nowhere, no
quote pays the output. -/
theorem stable_roundTrip (p : UniswapV2Pool) (hp : StablePool p) (hne : p.token0 ≠ p.token1) {tokenIn tokenOut : Address}
    (htokens : tokenIn = p.token0 ∧ tokenOut = p.token1 ∨ tokenIn = p.token1 ∧ tokenOut = p.token0) (x : Nat) :
    (x = 0 ∨ (p.inputSide tokenIn (p.inputFor tokenIn x) ≤ 2 * 10 ^ 27 ∧
      (slope (p.inputSide tokenIn (p.inputFor tokenIn x)) (p.normalAgainst tokenIn) = 0 ∨
        (p.Clears tokenIn (p.inputFor tokenIn x) ∧
          p.target tokenIn ≤ curve (p.inputSide tokenIn (p.inputFor tokenIn x)) (p.without tokenIn x) ∧
          p.target tokenIn < curve (p.inputSide tokenIn (p.inputFor tokenIn x)) (p.without tokenIn x + 1)))) →
      p.BuysBack tokenIn tokenOut x) ∧
    (p.inputSide tokenIn (p.inputFor tokenIn x) ≤ 2 * 10 ^ 27 →
      (1 ≤ x ∧ curve (p.inputSide tokenIn (p.inputFor tokenIn x)) (p.normalAgainst tokenIn) = p.target tokenIn) ∨
        (curve (p.inputSide tokenIn (p.inputFor tokenIn x)) (p.without tokenIn x) < p.target tokenIn ∧
          p.ShortcutKeeps tokenIn (p.inputFor tokenIn x)) →
        ∀ y z, p.calculateInput tokenOut x = .ok y → p.calculateOutput tokenIn y = .ok z → z < x) := by
  have htoken : tokenIn = p.token0 ∨ tokenIn = p.token1 := htokens.imp And.left And.left
  constructor
  · rintro (rfl | ⟨hx, hrest⟩) y out hy hout
    · exact Nat.zero_le out
    obtain ⟨hlt, rfl⟩ := calculateInput_ok hp hne htokens hy
    rcases hrest with hflat | ⟨hclears, hat, hpast⟩
    · exact absurd hflat (slope_of_calculateOutput_ok hp htoken hx hout)
    · obtain ⟨z, hz, -, rfl⟩ := calculateOutput_ok hp htoken hx hclears.noStepPastZero hout
      exact le_paid hp hlt (newton_le hz hat hpast)
  · rintro hx (⟨hpos, hon⟩ | ⟨hshort, hkeeps⟩) y out hy hout <;> obtain ⟨-, rfl⟩ := calculateInput_ok hp hne htokens hy
    · have hs := slope_of_calculateOutput_ok hp htoken hx hout
      have hloop : p.loop tokenIn (p.inputFor tokenIn x) = .ok (p.normalAgainst tokenIn) := newton_of_eq _ 254 hs hon
      have hsteps : p.NoStepPastZero tokenIn (p.inputFor tokenIn x) := fun hzero => .inl (hon.trans hzero)
      obtain ⟨z, hz, -, rfl⟩ := calculateOutput_ok hp htoken hx hsteps hout
      cases hloop.symm.trans hz
      rw [paid, Nat.sub_self, Nat.zero_div]
      exact hpos
    · have hclears : p.Clears tokenIn (p.inputFor tokenIn x) := .inl (by omega)
      obtain ⟨z, hz, -, rfl⟩ := calculateOutput_ok hp htoken hx hclears.noStepPastZero hout
      refine paid_lt (Nat.lt_of_not_le fun hle => ?_) hp
      exact absurd ((hkeeps.covers hp hz).trans (curve_mono hle)) (Nat.not_le.2 hshort)

/-- A whole token out of the even pair. -/
theorem stable_roundTrip_token : stablePair.BuysBack 2 3 (10 ^ 18) :=
  (stable_roundTrip stablePair stablePair_stable (by decide) (.inl ⟨rfl, rfl⟩) (10 ^ 18)).1
    (.inr ⟨by decide +kernel, .inr ⟨.inl (by decide +kernel), by decide +kernel, by decide +kernel⟩⟩)

/-- With a hundred of one token against ten thousand of the other, the input quoted for a whole token buys
a third of one. -/
theorem stable_roundTrip_fails :
    StablePool { stablePair with reserve0 := 10 ^ 20, reserve1 := 10 ^ 22 } ∧
      ¬BuysBack { stablePair with reserve0 := 10 ^ 20, reserve1 := 10 ^ 22 } 2 3 (10 ^ 18) := by
  have hin : calculateInput { stablePair with reserve0 := 10 ^ 20, reserve1 := 10 ^ 22 } 3 (10 ^ 18) = .ok 10031093380150453 := by
    decide +kernel
  have hout : calculateOutput { stablePair with reserve0 := 10 ^ 20, reserve1 := 10 ^ 22 } 2 10031093380150453 =
      .ok 333433344322576307 := by
    decide +kernel
  refine ⟨⟨rfl, by decide, by decide, by decide, ⟨18, le_rfl, rfl⟩, ⟨18, le_rfl, rfl⟩, by decide +kernel, by decide +kernel⟩, ?_⟩
  intro h
  exact absurd (h _ _ hin hout) (by decide)

end EvmDexPool.V2
