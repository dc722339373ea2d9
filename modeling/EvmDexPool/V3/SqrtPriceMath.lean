import EvmDexPool.V3.FullMath

/-!
# Prices and amounts (`v3/sqrt_price_math.rs`)

The functions are generic in the width of the price; `v3_swap` calls them at `U160`. `Uint::from`
panics on a price that does not fit, `uint_try_from` returns an error.
-/

namespace EvmDexPool.V3

open Fixed

/-- `U160_MAX` (sqrt_price_math.rs:11). -/
def U160_MAX : Nat := 2 ^ 160 - 1

/-- `Uint::from`. -/
def toU160 (x : Nat) : Except Fault Nat :=
  match narrow 160 x with
  | some x => .ok x
  | none => .error .panic

/-- `Uint::uint_try_from`, with the error both callers give it. -/
def tryU160 (x : Nat) : Except Fault Nat :=
  match narrow 160 x with
  | some x => .ok x
  | none => .error (.error "SafeCastToU160Overflow")

/-- `a.div_ceil(b)`. -/
def udivCeil (a b : Nat) : Except Fault Nat := if b = 0 then .error .panic else .ok (a ⌈/⌉ b)

/-- `get_next_sqrt_price_from_amount_0_rounding_up` (sqrt_price_math.rs:136). -/
def getNextSqrtPriceFromAmount0RoundingUp (sqrtPriceX96 liquidity amount : Nat) (add : Bool) : Except Fault Nat :=
  if amount = 0 then .ok sqrtPriceX96
  else
    let numerator1 := liquidity * 2 ^ 96 % 2 ^ 256
    let product := wmul 256 amount sqrtPriceX96
    if add then
      let denominator := wadd 256 numerator1 product
      if product / amount = sqrtPriceX96 ∧ denominator ≥ numerator1 then
        mulDivRoundingUp numerator1 sqrtPriceX96 denominator >>= toU160
      else do
        let quotient ← udiv numerator1 sqrtPriceX96
        let price ← udivCeil numerator1 (wadd 256 quotient amount)
        toU160 price
    else if ¬(product / amount = sqrtPriceX96 ∧ numerator1 > product) then .error (.error "Price overflow")
    else mulDivRoundingUp numerator1 sqrtPriceX96 (numerator1 - product) >>= tryU160

/-- `get_next_sqrt_price_from_amount_1_rounding_down` (sqrt_price_math.rs:178). -/
def getNextSqrtPriceFromAmount1RoundingDown (sqrtPriceX96 liquidity amount : Nat) (add : Bool) : Except Fault Nat :=
  if add then
    let quotient :=
      if amount ≤ U160_MAX then udiv (amount * 2 ^ 96 % 2 ^ 256) liquidity
      else mulDiv amount Q96 liquidity
    quotient >>= fun quotient => tryU160 (wadd 256 sqrtPriceX96 quotient)
  else
    let quotient :=
      if amount ≤ U160_MAX then udivCeil (amount * 2 ^ 96 % 2 ^ 256) liquidity
      else mulDivRoundingUp amount Q96 liquidity
    quotient >>= fun quotient =>
      if sqrtPriceX96 > quotient then toU160 (sqrtPriceX96 - quotient)
      else .error (.error "Insufficient liquidity")

/-- `get_next_sqrt_price_from_input` (sqrt_price_math.rs:212). -/
def getNextSqrtPriceFromInput (sqrtPriceX96 liquidity amountIn : Nat) (zeroForOne : Bool) : Except Fault Nat :=
  if sqrtPriceX96 = 0 ∨ liquidity = 0 then .error (.error "Invalid price or liquidity")
  else if zeroForOne then getNextSqrtPriceFromAmount0RoundingUp sqrtPriceX96 liquidity amountIn true
  else getNextSqrtPriceFromAmount1RoundingDown sqrtPriceX96 liquidity amountIn true

/-- `get_next_sqrt_price_from_output` (sqrt_price_math.rs:231). -/
def getNextSqrtPriceFromOutput (sqrtPriceX96 liquidity amountOut : Nat) (zeroForOne : Bool) : Except Fault Nat :=
  if sqrtPriceX96 = 0 ∨ liquidity = 0 then .error (.error "Invalid price or liquidity")
  else if zeroForOne then getNextSqrtPriceFromAmount1RoundingDown sqrtPriceX96 liquidity amountOut false
  else getNextSqrtPriceFromAmount0RoundingUp sqrtPriceX96 liquidity amountOut false

/-- `sort2` (sqrt_price_math.rs:254). -/
def sort2 (a b : Nat) : Nat × Nat := if a > b then (b, a) else (a, b)

/-- `get_amount_0_delta` (sqrt_price_math.rs:267). -/
def getAmount0Delta (sqrtRatioAX96 sqrtRatioBX96 liquidity : Nat) (roundUp : Bool) : Except Fault Nat :=
  let (sqrtRatioAX96, sqrtRatioBX96) := sort2 sqrtRatioAX96 sqrtRatioBX96
  if sqrtRatioAX96 = 0 then .error (.error "Invalid price")
  else
    let numerator1 := liquidity * 2 ^ 96 % 2 ^ 256
    let numerator2 := sqrtRatioBX96 - sqrtRatioAX96
    if roundUp then do
      let quotient ← mulDivRoundingUp numerator1 numerator2 sqrtRatioBX96
      udivCeil quotient sqrtRatioAX96
    else do
      let quotient ← mulDiv numerator1 numerator2 sqrtRatioBX96
      udiv quotient sqrtRatioAX96

/-- `get_amount_1_delta` (sqrt_price_math.rs:293). -/
def getAmount1Delta (sqrtRatioAX96 sqrtRatioBX96 liquidity : Nat) (roundUp : Bool) : Except Fault Nat :=
  let (sqrtRatioAX96, sqrtRatioBX96) := sort2 sqrtRatioAX96 sqrtRatioBX96
  let numerator := sqrtRatioBX96 - sqrtRatioAX96
  do
    let amount1 ← mulDivQ96 liquidity numerator
    let carry := mulMod liquidity numerator Q96 > 0 ∧ roundUp
    .ok (wadd 256 amount1 (if carry then 1 else 0))

theorem toU160_ok {x y : Nat} : toU160 x = .ok y ↔ x < 2 ^ 160 ∧ y = x := by
  unfold toU160
  by_cases h : x < 2 ^ 160
  · rw [narrow_of_lt h]
    exact ⟨fun e => ⟨h, (Except.ok.inj e).symm⟩, fun e => congrArg Except.ok e.2.symm⟩
  · rw [narrow_eq_none.2 (by omega)]
    exact ⟨fun e => (nomatch e), fun e => absurd e.1 h⟩

theorem tryU160_ok {x y : Nat} : tryU160 x = .ok y ↔ x < 2 ^ 160 ∧ y = x := by
  unfold tryU160
  by_cases h : x < 2 ^ 160
  · rw [narrow_of_lt h]
    exact ⟨fun e => ⟨h, (Except.ok.inj e).symm⟩, fun e => congrArg Except.ok e.2.symm⟩
  · rw [narrow_eq_none.2 (by omega)]
    exact ⟨fun e => (nomatch e), fun e => absurd e.1 h⟩

theorem udiv_ok {a b q : Nat} : udiv a b = .ok q ↔ 0 < b ∧ q = a / b := by
  unfold udiv; split <;> simp_all [eq_comm, Nat.pos_iff_ne_zero]

theorem udivCeil_ok {a b q : Nat} : udivCeil a b = .ok q ↔ 0 < b ∧ q = a ⌈/⌉ b := by
  unfold udivCeil; split <;> simp_all [eq_comm, Nat.pos_iff_ne_zero]

theorem ceilDiv_le_iff {n d k : Nat} (hd : 0 < d) : n ⌈/⌉ d ≤ k ↔ n ≤ d * k := by
  rw [ceilDiv_le_iff_le_mul hd]

/-! ## Amounts between two prices -/

section Amounts
variable {a b liquidity : Nat} (hab : a ≤ b) (hb : b < 2 ^ 160) (hl : liquidity < 2 ^ 128)

theorem sort2_comm (a b : Nat) : sort2 a b = sort2 b a := by
  unfold sort2
  rcases Nat.lt_trichotomy a b with h | rfl | h
  · rw [if_neg (by omega), if_pos h]
  · rfl
  · rw [if_pos h, if_neg (by omega)]

theorem getAmount0Delta_comm (a b liquidity : Nat) (roundUp : Bool) :
    getAmount0Delta a b liquidity roundUp = getAmount0Delta b a liquidity roundUp := by
  unfold getAmount0Delta
  rw [sort2_comm]

theorem getAmount1Delta_comm (a b liquidity : Nat) (roundUp : Bool) :
    getAmount1Delta a b liquidity roundUp = getAmount1Delta b a liquidity roundUp := by
  unfold getAmount1Delta
  rw [sort2_comm]

include hab

theorem sort2_of_le : sort2 a b = (a, b) := if_neg (by omega)

include hb hl

/-- `liquidity * (1/a - 1/b)`, rounded up twice. -/
theorem getAmount0Delta_up (ha : 0 < a) :
    getAmount0Delta a b liquidity true = .ok ((liquidity * 2 ^ 96 * (b - a) ⌈/⌉ b) ⌈/⌉ a) := by
  have hnum : liquidity * 2 ^ 96 % 2 ^ 256 = liquidity * 2 ^ 96 := Nat.mod_eq_of_lt (by omega)
  have hq : liquidity * 2 ^ 96 * (b - a) ⌈/⌉ b ≤ liquidity * 2 ^ 96 := by
    rw [ceilDiv_le_iff (by omega), Nat.mul_comm b]
    exact Nat.mul_le_mul_left _ (by omega)
  unfold getAmount0Delta
  rw [sort2_of_le hab]
  dsimp only
  rw [if_neg (by omega), if_pos rfl, hnum, mulDivRoundingUp_eq (by omega) (by omega) (by omega),
    if_pos (And.intro (by omega) (by omega)), ok_bind, udivCeil, if_neg (by omega)]

/-- `liquidity * (1/a - 1/b)`, rounded down twice. -/
theorem getAmount0Delta_down (ha : 0 < a) :
    getAmount0Delta a b liquidity false = .ok (liquidity * 2 ^ 96 * (b - a) / b / a) := by
  have hnum : liquidity * 2 ^ 96 % 2 ^ 256 = liquidity * 2 ^ 96 := Nat.mod_eq_of_lt (by omega)
  have hq : liquidity * 2 ^ 96 * (b - a) / b ≤ liquidity * 2 ^ 96 :=
    Nat.div_le_of_le_mul (by rw [Nat.mul_comm b]; exact Nat.mul_le_mul_left _ (by omega))
  unfold getAmount0Delta
  rw [sort2_of_le hab]
  dsimp only
  rw [if_neg (by omega), if_neg (by decide), hnum, mulDiv_eq (by omega) (by omega) (by omega),
    if_pos (And.intro (by omega) (by omega)), ok_bind, udiv, if_neg (by omega)]

/-- `liquidity * (b - a)`, as the rounding asks. -/
theorem getAmount1Delta_eq (roundUp : Bool) :
    getAmount1Delta a b liquidity roundUp =
      .ok (if roundUp then liquidity * (b - a) ⌈/⌉ 2 ^ 96 else liquidity * (b - a) / 2 ^ 96) := by
  have hprod : liquidity * (b - a) ≤ 2 ^ 128 * 2 ^ 160 := Nat.mul_le_mul (by omega) (by omega)
  have hmod : mulMod liquidity (b - a) Q96 = liquidity * (b - a) % 2 ^ 96 := if_neg (by decide)
  unfold getAmount1Delta
  rw [sort2_of_le hab]
  dsimp only
  rw [hmod, mulDivQ96_eq (by omega) (by omega)]
  generalize liquidity * (b - a) = n at *
  rw [if_pos (by omega), ok_bind, ceilDiv_eq_ite (by decide)]
  cases roundUp with
  | false => rw [if_neg (by simp), wadd_of_lt (by omega), if_neg (by simp)]; rfl
  | true =>
    rw [if_pos rfl]
    by_cases hrem : n % 2 ^ 96 = 0
    · rw [if_neg (fun h => by omega), wadd_of_lt (by omega), if_pos hrem]; rfl
    · rw [if_pos ⟨by omega, rfl⟩, wadd_of_lt (by omega), if_neg hrem]

end Amounts

theorem getAmount0Delta_lt {a b liquidity x : Nat} (h : getAmount0Delta a b liquidity true = .ok x) : x < 2 ^ 256 := by
  unfold getAmount0Delta at h
  dsimp only at h
  split at h
  · cases h
  rename_i h0
  rw [if_pos rfl] at h
  obtain ⟨q, hq, h⟩ := bind_eq_ok.1 h
  obtain ⟨hpos, rfl⟩ := udivCeil_ok.1 h
  refine Nat.lt_of_le_of_lt ?_ (mulDivRoundingUp_lt hq)
  rw [ceilDiv_le_iff hpos]
  exact Nat.le_mul_of_pos_left _ hpos

theorem getAmount1Delta_lt {a b liquidity x : Nat} {roundUp : Bool} (h : getAmount1Delta a b liquidity roundUp = .ok x) :
    x < 2 ^ 256 := by
  unfold getAmount1Delta at h
  obtain ⟨q, -, h⟩ := bind_eq_ok.1 h
  cases h
  exact wadd_lt

/-! ## Prices after an amount

Each of the four moves: the side it goes to, what the distance it went is worth against the amount,
and that it does not pass a price the amount does not reach. `N` stands for `liquidity * 2^96`. -/

section Prices
variable {price liquidity amount next : Nat} (hl : liquidity < 2 ^ 128)

include hl

/-- Where token 0 coming in takes the price: in full precision while the denominator fits its word, and
with the floor of `N / price` from there on. -/
theorem getNextSqrtPriceFromInput_down_eq (hp : price < 2 ^ 160) (ha : amount < 2 ^ 255)
    (h : getNextSqrtPriceFromInput price liquidity amount true = .ok next) :
    0 < price ∧ 0 < liquidity ∧
      next = if liquidity * 2 ^ 96 + amount * price < 2 ^ 256
        then liquidity * 2 ^ 96 * price ⌈/⌉ (liquidity * 2 ^ 96 + amount * price)
        else liquidity * 2 ^ 96 ⌈/⌉ (liquidity * 2 ^ 96 / price + amount) := by
  unfold getNextSqrtPriceFromInput at h
  split at h
  · cases h
  rename_i hpos
  have hprice : 0 < price := by omega
  have hliq : 0 < liquidity := by omega
  have hnum : liquidity * 2 ^ 96 % 2 ^ 256 = liquidity * 2 ^ 96 := Nat.mod_eq_of_lt (by omega)
  have hN0 : 0 < liquidity * 2 ^ 96 := by omega
  have hN : liquidity * 2 ^ 96 < 2 ^ 224 := by omega
  refine ⟨hprice, hliq, ?_⟩
  rw [if_pos rfl, getNextSqrtPriceFromAmount0RoundingUp, hnum] at h
  clear hnum hpos hl hliq
  generalize liquidity * 2 ^ 96 = N at *
  split at h
  · rename_i ha0
    cases h
    rw [ha0, Nat.zero_mul, Nat.add_zero, if_pos (by omega)]
    refine (Nat.le_antisymm ((ceilDiv_le_iff hN0).2 le_rfl) ?_).symm
    exact Nat.le_of_mul_le_mul_left ((ceilDiv_le_iff hN0 (n := N * price)).1 le_rfl) hN0
  rename_i ha0
  dsimp only at h
  rw [if_pos rfl] at h
  split at h
  · -- the product fits, and so does its sum with the numerator
    rename_i hfit
    have hprod := wmul_eq_of_div hfit.1
    obtain ⟨q, hq, hnext⟩ := bind_eq_ok.1 h
    obtain ⟨hden, -, rfl⟩ := mulDivRoundingUp_ok (by omega) (by omega) wadd_lt hq
    have hsum : N + amount * price < 2 ^ 256 := by
      rw [hprod] at hfit
      have hlt : amount * price < 2 ^ 256 := hprod ▸ wmul_lt
      by_contra hw
      have := hfit.2
      unfold wadd at this
      omega
    rw [(toU160_ok.1 hnext).2, if_pos hsum, hprod, wadd_of_lt hsum]
  · rename_i hfit
    obtain ⟨q, hq, h⟩ := bind_eq_ok.1 h
    obtain ⟨c, hc, hnext⟩ := bind_eq_ok.1 h
    obtain ⟨-, rfl⟩ := udiv_ok.1 hq
    have hqlt : N / price ≤ N := Nat.div_le_self _ _
    have hsum : ¬N + amount * price < 2 ^ 256 := fun hsum => by
      have hprod : wmul 256 amount price = amount * price := wmul_of_lt (by omega)
      rw [hprod, wadd_of_lt hsum] at hfit
      exact hfit ⟨Nat.mul_div_cancel_left _ (Nat.pos_of_ne_zero ha0), Nat.le_add_right _ _⟩
    rw [wadd_of_lt (by omega)] at hc
    rw [(toU160_ok.1 hnext).2, (udivCeil_ok.1 hc).2, if_neg hsum]

/-- Token 0 coming in lowers the price. -/
theorem getNextSqrtPriceFromInput_down (hp : price < 2 ^ 160) (ha : amount < 2 ^ 255)
    (h : getNextSqrtPriceFromInput price liquidity amount true = .ok next) :
    next ≤ price ∧ liquidity * 2 ^ 96 * price ≤ next * (liquidity * 2 ^ 96 + amount * price) ∧
      ∀ t, t * (liquidity * 2 ^ 96 + amount * price) ≤ liquidity * 2 ^ 96 * price → t ≤ next := by
  obtain ⟨hprice, hliq, rfl⟩ := getNextSqrtPriceFromInput_down_eq hl hp ha h
  have hN0 : 0 < liquidity * 2 ^ 96 := by omega
  have hN : liquidity * 2 ^ 96 < 2 ^ 224 := by omega
  clear h hl
  generalize liquidity * 2 ^ 96 = N at *
  split
  · have hle := (ceilDiv_le_iff (d := N + amount * price) (by omega) (n := N * price)).1 le_rfl
    refine ⟨(ceilDiv_le_iff (by omega)).2 (Nat.mul_le_mul_right _ (by omega)), ?_, fun t ht => ?_⟩
    · rw [Nat.mul_comm _ (N + amount * price)]
      exact hle
    · exact Nat.le_of_mul_le_mul_left (by rw [Nat.mul_comm _ t]; exact ht.trans hle) (show 0 < N + amount * price by omega)
  · rename_i hbig
    -- the floor of `N / price` only makes the denominator smaller
    have hlt := Nat.lt_mul_div_succ N hprice
    have hfloor := Nat.mul_div_le N price
    generalize N / price = q at *
    have hamount : 0 < amount := Nat.pos_of_ne_zero fun h0 => hbig (by rw [h0]; omega)
    have hle := (ceilDiv_le_iff (d := q + amount) (by omega) (n := N)).1 le_rfl
    have hmul : (q + amount) * price ≤ N + amount * price := by rw [Nat.add_mul, Nat.mul_comm q]; omega
    refine ⟨(ceilDiv_le_iff (by omega)).2 ?_, ?_, fun t ht => ?_⟩
    · calc N ≤ price * (q + 1) := hlt.le
        _ ≤ (q + amount) * price := by rw [Nat.mul_comm]; exact Nat.mul_le_mul_right _ (by omega)
    · generalize N ⌈/⌉ (q + amount) = c at *
      calc N * price ≤ (q + amount) * c * price := Nat.mul_le_mul_right _ hle
        _ = c * ((q + amount) * price) := by ring
        _ ≤ c * (N + amount * price) := Nat.mul_le_mul_left _ hmul
    · generalize N ⌈/⌉ (q + amount) = c at *
      have hreach : t * (q + amount) * price ≤ N * price :=
        calc t * (q + amount) * price = t * ((q + amount) * price) := Nat.mul_assoc _ _ _
          _ ≤ t * (N + amount * price) := Nat.mul_le_mul_left _ hmul
          _ ≤ N * price := ht
      have := (Nat.le_of_mul_le_mul_right hreach hprice).trans hle
      exact Nat.le_of_mul_le_mul_left (by rw [Nat.mul_comm]; exact this) (show 0 < q + amount by omega)

/-- In full precision the price falls at least as far as the amount reaches. -/
theorem getNextSqrtPriceFromInput_down_le {k : Nat} (hp : price < 2 ^ 160) (ha : amount < 2 ^ 255)
    (hfull : liquidity * 2 ^ 96 + amount * price < 2 ^ 256)
    (hk : liquidity * 2 ^ 96 * price ≤ k * (liquidity * 2 ^ 96 + amount * price))
    (h : getNextSqrtPriceFromInput price liquidity amount true = .ok next) : next ≤ k := by
  obtain ⟨-, hliq, rfl⟩ := getNextSqrtPriceFromInput_down_eq hl hp ha h
  rw [if_pos hfull, ceilDiv_le_iff (by omega), Nat.mul_comm _ k]
  exact hk

/-- More token 0 lowers the price at least as far, also where the formula changes between the two amounts. -/
theorem getNextSqrtPriceFromInput_down_anti {amount' next' : Nat} (hp : price < 2 ^ 160) (hle : amount ≤ amount')
    (ha : amount' < 2 ^ 255) (h : getNextSqrtPriceFromInput price liquidity amount true = .ok next)
    (h' : getNextSqrtPriceFromInput price liquidity amount' true = .ok next') : next' ≤ next := by
  obtain rfl | hlt := hle.eq_or_lt
  · exact (Except.ok.inj (h'.symm.trans h)).le
  have hreach := (getNextSqrtPriceFromInput_down hl hp (by omega) h).2.1
  by_cases hfull : liquidity * 2 ^ 96 + amount' * price < 2 ^ 256
  · refine getNextSqrtPriceFromInput_down_le hl hp ha hfull (hreach.trans ?_) h'
    exact Nat.mul_le_mul_left _ (Nat.add_le_add_left (Nat.mul_le_mul_right _ hle) _)
  · obtain ⟨hprice, hliq, rfl⟩ := getNextSqrtPriceFromInput_down_eq hl hp ha h'
    rw [if_neg hfull, ceilDiv_le_iff (Nat.add_pos_right _ (by omega))]
    have hfloor := Nat.lt_mul_div_succ (liquidity * 2 ^ 96) hprice
    generalize liquidity * 2 ^ 96 = N at *
    generalize N / price = q at *
    -- one more of the amount makes up for the floor
    have hmul : N + amount * price ≤ (q + amount') * price :=
      calc N + amount * price ≤ price * (q + 1) + amount * price := by omega
        _ = (q + (amount + 1)) * price := by ring
        _ ≤ (q + amount') * price := Nat.mul_le_mul_right _ (by omega)
    refine Nat.le_of_mul_le_mul_right ?_ hprice
    calc N * price ≤ next * (N + amount * price) := hreach
      _ ≤ next * ((q + amount') * price) := Nat.mul_le_mul_left _ hmul
      _ = (q + amount') * next * price := by ring

/-- Where token 1 coming in takes the price, below one its amount does not reach. -/
theorem getNextSqrtPriceFromInput_up_eq {target : Nat} (ha : amount < 2 ^ 256) (ht : target < 2 ^ 160)
    (hpt : price ≤ target) (hle : amount * 2 ^ 96 ≤ liquidity * (target - price))
    (h : getNextSqrtPriceFromInput price liquidity amount false = .ok next) :
    next = price + amount * 2 ^ 96 / liquidity := by
  unfold getNextSqrtPriceFromInput at h
  split at h
  · cases h
  rename_i hpos
  rw [if_neg (by decide), getNextSqrtPriceFromAmount1RoundingDown, if_pos rfl] at h
  obtain ⟨q, hq, hnext⟩ := bind_eq_ok.1 h
  have hqdiv : q = amount * 2 ^ 96 / liquidity := by
    split at hq
    · rename_i hsmall
      unfold U160_MAX at hsmall
      rw [Nat.mod_eq_of_lt (by omega)] at hq
      exact (udiv_ok.1 hq).2
    · exact (mulDiv_ok ha (by decide) (by omega) hq).2.2
  have hqle : q ≤ target - price := by
    rw [hqdiv]
    exact Nat.div_le_of_le_mul hle
  rw [wadd_of_lt (by omega)] at hnext
  rw [(tryU160_ok.1 hnext).2, hqdiv]

/-- Token 1 coming in raises the price, and not beyond one its amount does not reach. -/
theorem getNextSqrtPriceFromInput_up {target : Nat} (ha : amount < 2 ^ 256) (ht : target < 2 ^ 160)
    (hpt : price ≤ target) (hle : amount * 2 ^ 96 ≤ liquidity * (target - price))
    (h : getNextSqrtPriceFromInput price liquidity amount false = .ok next) :
    price ≤ next ∧ next ≤ target ∧ liquidity * (next - price) ≤ amount * 2 ^ 96 := by
  have hqle : amount * 2 ^ 96 / liquidity ≤ target - price := Nat.div_le_of_le_mul hle
  rw [getNextSqrtPriceFromInput_up_eq hl ha ht hpt hle h, Nat.add_sub_cancel_left]
  exact ⟨Nat.le_add_right _ _, by omega, Nat.mul_div_le _ _⟩

/-- Token 1 going out lowers the price. -/
theorem getNextSqrtPriceFromOutput_down (ha : amount < 2 ^ 256)
    (h : getNextSqrtPriceFromOutput price liquidity amount true = .ok next) :
    next ≤ price ∧ amount * 2 ^ 96 ≤ liquidity * (price - next) ∧
      ∀ t, t ≤ price → amount * 2 ^ 96 ≤ liquidity * (price - t) → t ≤ next := by
  unfold getNextSqrtPriceFromOutput at h
  split at h
  · cases h
  rename_i hpos
  rw [if_pos rfl, getNextSqrtPriceFromAmount1RoundingDown, if_neg (by decide)] at h
  obtain ⟨q, hq, h⟩ := bind_eq_ok.1 h
  have hqdiv : q = amount * 2 ^ 96 ⌈/⌉ liquidity := by
    split at hq
    · rename_i hsmall
      unfold U160_MAX at hsmall
      rw [Nat.mod_eq_of_lt (by omega)] at hq
      exact (udivCeil_ok.1 hq).2
    · exact (mulDivRoundingUp_ok ha (by decide) (by omega) hq).2.2
  have hqiff : ∀ k, q ≤ k ↔ amount * 2 ^ 96 ≤ liquidity * k := by
    intro k
    rw [hqdiv, ceilDiv_le_iff (by omega)]
  split at h
  · rw [(toU160_ok.1 h).2, Nat.sub_sub_self (by omega)]
    refine ⟨Nat.sub_le _ _, (hqiff q).1 le_rfl, fun t ht hreach => ?_⟩
    have := (hqiff _).2 hreach
    omega
  · cases h

/-- Token 0 going out raises the price. -/
theorem getNextSqrtPriceFromOutput_up (hp : price < 2 ^ 160)
    (h : getNextSqrtPriceFromOutput price liquidity amount false = .ok next) :
    price ≤ next ∧ amount * (price * next) ≤ liquidity * 2 ^ 96 * (next - price) ∧
      ∀ t, price ≤ t → amount * (price * t) ≤ liquidity * 2 ^ 96 * (t - price) → next ≤ t := by
  unfold getNextSqrtPriceFromOutput at h
  split at h
  · cases h
  rename_i hpos
  have hnum : liquidity * 2 ^ 96 % 2 ^ 256 = liquidity * 2 ^ 96 := Nat.mod_eq_of_lt (by omega)
  have hN : liquidity * 2 ^ 96 < 2 ^ 224 := by omega
  rw [if_neg (by decide), getNextSqrtPriceFromAmount0RoundingUp, hnum] at h
  clear hnum hl
  generalize liquidity * 2 ^ 96 = N at *
  split at h
  · rename_i ha0
    cases h
    rw [ha0, Nat.zero_mul, Nat.sub_self, Nat.mul_zero]
    exact ⟨le_rfl, le_rfl, fun t ht _ => ht⟩
  dsimp only at h
  rw [if_neg (by decide)] at h
  split at h
  · cases h
  rename_i hfit
  obtain ⟨hexact, hlt⟩ := not_not.1 hfit
  have hprod := wmul_eq_of_div hexact
  rw [hprod] at h hlt
  obtain ⟨q, hq, hnext⟩ := bind_eq_ok.1 h
  obtain ⟨hden, -, rfl⟩ := mulDivRoundingUp_ok (by omega) (by omega) (by omega) hq
  have hiff : ∀ k, N * price ⌈/⌉ (N - amount * price) ≤ k ↔ N * price + amount * (price * k) ≤ N * k := by
    intro k
    rw [ceilDiv_le_iff hden, Nat.sub_mul, Nat.mul_assoc]
    have : amount * (price * k) ≤ N * k := by
      rw [← Nat.mul_assoc]; exact Nat.mul_le_mul_right _ hlt.le
    omega
  rw [(tryU160_ok.1 hnext).2]
  generalize N * price ⌈/⌉ (N - amount * price) = c at *
  have hc := (hiff c).1 le_rfl
  have hpc : price ≤ c := Nat.le_of_mul_le_mul_left (by omega : N * price ≤ N * c) (by omega)
  refine ⟨hpc, ?_, fun t ht hreach => (hiff t).2 ?_⟩
  · rw [Nat.mul_sub]; omega
  · rw [Nat.mul_sub] at hreach
    have := Nat.mul_le_mul_left N ht
    omega

end Prices

end EvmDexPool.V3
