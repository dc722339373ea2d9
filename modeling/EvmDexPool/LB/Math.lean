import EvmDexPool.Lib.Fixed
import EvmDexPool.Log

/-!
# Liquidity Book arithmetic (`lb/math.rs`)

128.128 fixed point over `U256`, with the 512-bit intermediates the source widens to. The
conversions between a bin's output and the input it costs are adjoint
(`binInput_le_iff`): an input buys an output exactly when it covers the rounded-up cost.
-/

namespace EvmDexPool.LB

def SCALE_OFFSET : Nat := 128
def SCALE : Nat := 2 ^ 128
def PRECISION : Nat := 1000000000000000000
def MAX_FEE : Nat := 100000000000000000
def BASIS_POINT_MAX : Nat := 10000
def REAL_ID_SHIFT : Nat := 2 ^ 23

/-! ## Prices -/

/-- `get_base` (math.rs:43). -/
def getBase (binStep : Nat) : Nat := SCALE + binStep * 2 ^ SCALE_OFFSET / BASIS_POINT_MAX

/-- `get_exponent` (math.rs:48): `id as i32 - REAL_ID_SHIFT`, a native subtraction, which can only leave
`i32` at its lower end. -/
def getExponent (id : Nat) : Except Fault Int :=
  let exponent := Fixed.toSigned 32 (id % 2 ^ 32) - REAL_ID_SHIFT
  if -2 ^ 31 ≤ exponent then .ok exponent else .error .overflow

/-- `mul_128x128` (math.rs:112): the low four limbs of the shifted product. -/
def mul128x128 (a b : Nat) : Nat := a * b / 2 ^ SCALE_OFFSET % 2 ^ 256

/-- The bit loop of `pow_128x128`, from the `bit`-th on with `n` to go. -/
def powBits (absY : Nat) : (n bit squared result : Nat) → Nat
  | 0, _, _, result => result
  | n + 1, bit, squared, result =>
    powBits absY n (bit + 1) (mul128x128 squared squared)
      (if absY.testBit bit then mul128x128 result squared else result)

/-- `pow_128x128` (math.rs:69). -/
def pow128x128 (x : Nat) (y : Int) : Nat :=
  if y = 0 then SCALE
  else
    let absY := y.natAbs
    let (squared, invert) :=
      if x > SCALE then ((2 ^ 256 - 1) / x, !decide (y < 0)) else (x, decide (y < 0))
    let result := powBits absY 20 0 squared SCALE
    if result = 0 then 0
    else if invert then (2 ^ 256 - 1) / result
    else result

/-- `get_price_from_id` (math.rs:56). -/
def getPriceFromId (id binStep : Nat) : Except Fault Nat := do
  let exponent ← getExponent id
  .ok (pow128x128 (getBase binStep) exponent)

/-- The price of bin `id`, where it has one. -/
def binPrice (id binStep : Nat) : Nat := (getPriceFromId id binStep).toOption.getD SCALE

/-- The ids that have an exponent: as `u32`s they are not among the `2^23` from `2^31` on. -/
def Priced (id : Nat) : Prop := id % 2 ^ 32 < 2 ^ 31 ∨ 2 ^ 31 + 2 ^ 23 ≤ id % 2 ^ 32

instance (id : Nat) : Decidable (Priced id) := inferInstanceAs (Decidable (_ ∨ _))

theorem priced_of_lt {id : Nat} (h : id < 2 ^ 31) : Priced id := .inl ((Nat.mod_le _ _).trans_lt h)

theorem getExponent_of_priced {id : Nat} (h : Priced id) :
    getExponent id = .ok (Fixed.toSigned 32 (id % 2 ^ 32) - REAL_ID_SHIFT) := by
  unfold Priced at h
  unfold getExponent Fixed.toSigned REAL_ID_SHIFT
  dsimp only
  rw [if_pos]
  split <;> omega

theorem getExponent_of_not {id : Nat} (h : ¬Priced id) : getExponent id = .error .overflow := by
  unfold Priced at h
  unfold getExponent Fixed.toSigned REAL_ID_SHIFT
  dsimp only
  rw [if_neg]
  split <;> omega

theorem binPrice_of_ok {id binStep price : Nat} (h : getPriceFromId id binStep = .ok price) :
    binPrice id binStep = price := by
  rw [binPrice, h]
  rfl

theorem binPrice_of_error {id binStep : Nat} {e : Fault} (h : getPriceFromId id binStep = .error e) :
    binPrice id binStep = SCALE := by
  rw [binPrice, h]
  exact Option.getD_none

/-- Every id with an exponent has a price. -/
theorem getPriceFromId_of_priced {id : Nat} (h : Priced id) (binStep : Nat) :
    getPriceFromId id binStep = .ok (binPrice id binStep) := by
  have hprice : getPriceFromId id binStep =
      .ok (pow128x128 (getBase binStep) (Fixed.toSigned 32 (id % 2 ^ 32) - REAL_ID_SHIFT)) := by
    rw [getPriceFromId, getExponent_of_priced h, ok_bind]
  rw [binPrice_of_ok hprice]
  exact hprice

theorem getPriceFromId_of_not {id : Nat} (h : ¬Priced id) (binStep : Nat) :
    getPriceFromId id binStep = .error .overflow := by
  rw [getPriceFromId, getExponent_of_not h, error_bind]

theorem getPriceFromId_ne {e : Fault} (he : e ≠ .overflow) (id binStep : Nat) :
    getPriceFromId id binStep ≠ .error e := by
  by_cases h : Priced id
  · rw [getPriceFromId_of_priced h]
    nofun
  · rw [getPriceFromId_of_not h]
    exact fun h => he (Except.error.inj h).symm

theorem powBits_lt (absY : Nat) : ∀ n bit squared result : Nat, result < 2 ^ 256 →
    powBits absY n bit squared result < 2 ^ 256
  | 0, _, _, _, h => h
  | n + 1, bit, squared, result, h => by
    refine powBits_lt absY n _ _ _ ?_
    split
    · exact Nat.mod_lt _ (by norm_num)
    · exact h

theorem pow128x128_lt (x : Nat) (y : Int) : pow128x128 x y < 2 ^ 256 := by
  unfold pow128x128
  split
  · norm_num [SCALE]
  · dsimp only
    have hd : ∀ d, (2 ^ 256 - 1) / d < 2 ^ 256 := fun d => by
      have := Nat.div_le_self (2 ^ 256 - 1) d
      omega
    have hp : ∀ s, powBits y.natAbs 20 0 s SCALE < 2 ^ 256 := fun s =>
      powBits_lt _ _ _ _ _ (by norm_num [SCALE])
    split_ifs <;> first | exact hd _ | exact hp _ | norm_num

theorem binPrice_lt (id binStep : Nat) : binPrice id binStep < 2 ^ 256 := by
  cases hprice : getPriceFromId id binStep with
  | ok price =>
    obtain ⟨exponent, -, hpow⟩ := bind_eq_ok.1 hprice
    rw [binPrice_of_ok hprice, ← Except.ok.inj hpow]
    exact pow128x128_lt _ _
  | error e =>
    rw [binPrice_of_error hprice]
    norm_num [SCALE]

/-- A bin whose price is not the zero of an underflow has a price above zero. -/
theorem binPrice_pos {id binStep : Nat} (h : getPriceFromId id binStep ≠ .ok 0) : 0 < binPrice id binStep := by
  cases hprice : getPriceFromId id binStep with
  | ok price =>
    rw [binPrice_of_ok hprice]
    exact Nat.pos_of_ne_zero fun h0 => h (by rw [hprice, h0])
  | error e =>
    rw [binPrice_of_error hprice]
    decide

/-! ## Fees -/

/-- `get_base_fee` (math.rs:127). -/
def getBaseFee (baseFactor binStep : Nat) : Nat := baseFactor * binStep * 10000000000

/-- `get_variable_fee` (math.rs:135). -/
def getVariableFee (volatilityAccumulator binStep variableFeeControl : Nat) : Nat :=
  if variableFeeControl = 0 then 0
  else
    let prod := volatilityAccumulator * binStep
    (prod * prod * variableFeeControl + 99) / 100

/-- `get_total_fee` (math.rs:153). -/
def getTotalFee (baseFactor binStep volatilityAccumulator variableFeeControl : Nat) : Nat :=
  min (getBaseFee baseFactor binStep +
    getVariableFee volatilityAccumulator binStep variableFeeControl) MAX_FEE

/-- `get_fee_amount_from` (math.rs:171): the fee inside an amount that already includes it. -/
def getFeeAmountFrom (amountWithFees totalFee : Nat) : Nat :=
  (amountWithFees * totalFee + (PRECISION - 1)) / PRECISION

/-- `get_fee_amount` (math.rs:186): the fee to add to a net amount. -/
def getFeeAmount (amount totalFee : Nat) : Nat :=
  (amount * totalFee + (PRECISION - totalFee - 1)) / (PRECISION - totalFee)

theorem getTotalFee_le (b s v c : Nat) : getTotalFee b s v c ≤ MAX_FEE := Nat.min_le_right _ _

/-- The fee taken out is the least that covers its share of the gross amount. -/
theorem getFeeAmountFrom_le_iff {a k : Nat} : getFeeAmountFrom a fee ≤ k ↔ a * fee ≤ k * PRECISION := by
  unfold getFeeAmountFrom
  rw [← Nat.lt_succ_iff, Nat.div_lt_iff_lt_mul (by decide), Nat.succ_mul]
  have : 0 < PRECISION := by decide
  omega

section Fees
variable {fee : Nat} (hfee : fee ≤ MAX_FEE)
include hfee

theorem precision_sub_pos : 0 < PRECISION - fee := by unfold PRECISION MAX_FEE at *; omega

/-- The fee added is the least that covers its share of the total. -/
theorem getFeeAmount_le_iff {a k : Nat} : getFeeAmount a fee ≤ k ↔ a * fee ≤ k * (PRECISION - fee) := by
  have hp := precision_sub_pos hfee
  unfold getFeeAmount
  rw [← Nat.lt_succ_iff, Nat.div_lt_iff_lt_mul hp, Nat.succ_mul]
  omega

theorem getFeeAmount_mono {a b : Nat} (h : a ≤ b) : getFeeAmount a fee ≤ getFeeAmount b fee :=
  (getFeeAmount_le_iff hfee).2 ((Nat.mul_le_mul_right fee h).trans ((getFeeAmount_le_iff hfee).1 le_rfl))

theorem getFeeAmountFrom_le (a : Nat) : getFeeAmountFrom a fee ≤ a :=
  (getFeeAmountFrom_le_iff).2 (Nat.mul_le_mul_left a (by unfold PRECISION MAX_FEE at *; omega))

/-- `get_fee_amount`'s narrowing to `u128` never panics. -/
theorem getFeeAmount_lt {a : Nat} (ha : a < 2 ^ 128) : getFeeAmount a fee < 2 ^ 128 := by
  refine Nat.lt_succ_of_le ((getFeeAmount_le_iff hfee).2 ?_) |>.trans_le (Nat.succ_le_of_lt ha)
  exact Nat.mul_le_mul_left a (by unfold PRECISION MAX_FEE at *; omega)

/-- What is left of a gross amount after its fee stays below `m` exactly when the amount stays
below `m` and the fee added to it. -/
theorem sub_getFeeAmountFrom_lt_iff {l m : Nat} :
    l - getFeeAmountFrom l fee < m ↔ l < m + getFeeAmount m fee := by
  have hle := getFeeAmountFrom_le hfee l
  have hp : fee ≤ PRECISION := by unfold PRECISION MAX_FEE at *; omega
  rw [← not_le, ← not_le, not_iff_not]
  constructor
  · intro h
    -- `m ≤ l - from l`, so `l * fee ≤ (l - m) * PRECISION`, and the net part is at least `m`
    have hml : m ≤ l := h.trans (Nat.sub_le _ _)
    have h1 : l * fee ≤ (l - m) * PRECISION := (getFeeAmountFrom_le_iff).1 (by omega)
    have h2 : getFeeAmount m fee ≤ l - m := by
      rw [getFeeAmount_le_iff hfee, Nat.mul_sub]
      obtain ⟨d, rfl⟩ := Nat.exists_eq_add_of_le hml
      rw [Nat.add_sub_cancel_left] at *
      rw [Nat.add_mul] at h1
      omega
    omega
  · intro h
    have h2 : m * fee ≤ (l - m) * (PRECISION - fee) := (getFeeAmount_le_iff hfee).1 (by omega)
    have h1 : getFeeAmountFrom l fee ≤ l - m := by
      rw [getFeeAmountFrom_le_iff]
      obtain ⟨d, rfl⟩ := Nat.exists_eq_add_of_le (show m ≤ l by omega)
      rw [Nat.add_sub_cancel_left, Nat.mul_sub] at *
      have : d * fee ≤ d * PRECISION := Nat.mul_le_mul_left d hp
      rw [Nat.add_mul]
      omega
    omega

/-- Extracting the fee from a net amount with its fee added gives the net amount back. -/
theorem sub_getFeeAmountFrom_gross (a : Nat) :
    a + getFeeAmount a fee - getFeeAmountFrom (a + getFeeAmount a fee) fee = a := by
  have h1 : ¬ a + getFeeAmount a fee - getFeeAmountFrom (a + getFeeAmount a fee) fee < a := by
    rw [sub_getFeeAmountFrom_lt_iff hfee]; omega
  have h2 : a + getFeeAmount a fee - getFeeAmountFrom (a + getFeeAmount a fee) fee < a + 1 := by
    rw [sub_getFeeAmountFrom_lt_iff hfee]
    have := getFeeAmount_mono hfee (Nat.le_succ a)
    simp only [Nat.succ_eq_add_one] at this
    omega
  omega

end Fees

/-- A lower fee adds less. -/
theorem getFeeAmount_fee_mono {a fee fee' : Nat} (h : fee ≤ fee') (hfee : fee' ≤ MAX_FEE) :
    getFeeAmount a fee ≤ getFeeAmount a fee' :=
  (getFeeAmount_le_iff (h.trans hfee)).2 <|
    calc a * fee ≤ a * fee' := Nat.mul_le_mul_left a h
      _ ≤ getFeeAmount a fee' * (PRECISION - fee') := (getFeeAmount_le_iff hfee).1 le_rfl
      _ ≤ getFeeAmount a fee' * (PRECISION - fee) := Nat.mul_le_mul_left _ (Nat.sub_le_sub_left h _)

/-- A larger amount at a lower fee keeps more. -/
theorem sub_getFeeAmountFrom_mono {a b fee fee' : Nat} (hab : a ≤ b) (h : fee ≤ fee') (hfee : fee' ≤ MAX_FEE) :
    a - getFeeAmountFrom a fee' ≤ b - getFeeAmountFrom b fee := by
  by_contra hlt
  have hb := (sub_getFeeAmountFrom_lt_iff (h.trans hfee)).1 (Nat.lt_of_not_le hlt)
  have hmono := getFeeAmount_fee_mono (a := a - getFeeAmountFrom a fee') h hfee
  have ha : a - getFeeAmountFrom a fee' < a - getFeeAmountFrom a fee' :=
    (sub_getFeeAmountFrom_lt_iff hfee).2 (by omega)
  exact absurd ha (Nat.lt_irrefl _)

theorem getTotalFee_mono {baseFactor binStep acc acc' control : Nat} (h : acc ≤ acc') :
    getTotalFee baseFactor binStep acc control ≤ getTotalFee baseFactor binStep acc' control := by
  have hprod : acc * binStep ≤ acc' * binStep := Nat.mul_le_mul_right _ h
  have hsquare : acc * binStep * (acc * binStep) * control ≤ acc' * binStep * (acc' * binStep) * control :=
    Nat.mul_le_mul_right _ (Nat.mul_le_mul hprod hprod)
  have hvar : getVariableFee acc binStep control ≤ getVariableFee acc' binStep control := by
    unfold getVariableFee
    split
    · exact le_rfl
    · exact Nat.div_le_div_right (Nat.add_le_add_right hsquare _)
  unfold getTotalFee
  omega

/-! ## Packed amounts -/

/-- `decode_amounts` (math.rs:200): the low 128 bits are X, the high 128 bits Y. -/
def decodeAmounts (packed : Nat) : Nat × Nat := (packed % 2 ^ 128, packed / 2 ^ 128 % 2 ^ 128)

/-! ## Shifted products and quotients -/

/-- `mul_shift_round_down` (math.rs:226). -/
def mulShiftRoundDown (x y offset : Nat) : Nat := x * y / 2 ^ offset % 2 ^ 256

/-- `mul_shift_round_up` (math.rs:236). -/
def mulShiftRoundUp (x y offset : Nat) : Nat :=
  let result := mulShiftRoundDown x y offset
  if x * y % 2 ^ offset > 0 then Fixed.wadd 256 result 1 else result

/-- `shift_div_round_down` (math.rs:254). -/
def shiftDivRoundDown (x offset denominator : Nat) : Nat :=
  if denominator = 0 then 0 else x * 2 ^ offset / denominator % 2 ^ 256

/-- `shift_div_round_up` (math.rs:268). -/
def shiftDivRoundUp (x offset denominator : Nat) : Nat :=
  if denominator = 0 then 0
  else
    let result := shiftDivRoundDown x offset denominator
    if x * 2 ^ offset % denominator > 0 then Fixed.wadd 256 result 1 else result

/-- The input a bin at `price` asks for `amountOut`, before narrowing (pool.rs:246, :341). -/
def binInput (swapForY : Bool) (amountOut price : Nat) : Nat :=
  if swapForY then shiftDivRoundUp amountOut SCALE_OFFSET price
  else mulShiftRoundUp amountOut price SCALE_OFFSET

/-- The output a bin at `price` pays for a net input, before narrowing (pool.rs:268). -/
def binOutput (swapForY : Bool) (amountIn price : Nat) : Nat :=
  if swapForY then mulShiftRoundDown amountIn price SCALE_OFFSET
  else shiftDivRoundDown amountIn SCALE_OFFSET price

section Shifts
variable {x y : Nat} (hx : x < 2 ^ 128) (hy : y < 2 ^ 256)
include hx

theorem shiftDivRoundDown_eq : shiftDivRoundDown x SCALE_OFFSET y = x * 2 ^ 128 / y := by
  unfold shiftDivRoundDown SCALE_OFFSET
  split
  · next h => simp [h]
  · have := Nat.div_le_self (x * 2 ^ 128) y
    rw [Nat.mod_eq_of_lt (by omega)]

theorem shiftDivRoundUp_le_iff {k : Nat} (hy0 : 0 < y) :
    shiftDivRoundUp x SCALE_OFFSET y ≤ k ↔ x * 2 ^ 128 ≤ k * y := by
  have hdm : x * 2 ^ 128 / y * y + x * 2 ^ 128 % y = x * 2 ^ 128 := Nat.div_add_mod' _ _
  have hm := Nat.mod_lt (x * 2 ^ 128) hy0
  unfold shiftDivRoundUp
  rw [if_neg (by omega), shiftDivRoundDown_eq hx, show SCALE_OFFSET = 128 from rfl]
  generalize hq : x * 2 ^ 128 / y = q at hdm ⊢
  have hcancel : x * 2 ^ 128 ≤ k * y ↔ q < k ∨ (q = k ∧ x * 2 ^ 128 % y = 0) := by
    rcases lt_trichotomy q k with h | h | h
    · have := Nat.mul_le_mul_right y (Nat.succ_le_of_lt h)
      rw [Nat.succ_mul] at this
      simp only [h, true_or, iff_true]; omega
    · subst h; omega
    · have := Nat.mul_le_mul_right y (Nat.succ_le_of_lt h)
      rw [Nat.succ_mul] at this
      constructor <;> intro <;> omega
  dsimp only
  rw [hcancel]
  split
  · -- a remainder means `y ≥ 2`, so the quotient leaves room for the increment
    have hy2 : 2 ≤ y := by
      by_contra h1
      obtain rfl : y = 1 := by omega
      omega
    have hq' : q ≤ x * 2 ^ 128 / 2 := hq ▸ Nat.div_le_div_left hy2 (by norm_num)
    rw [Fixed.wadd_of_lt (by omega)]; omega
  · omega

include hy

theorem mulShiftRoundDown_eq : mulShiftRoundDown x y SCALE_OFFSET = x * y / 2 ^ 128 := by
  unfold mulShiftRoundDown SCALE_OFFSET
  apply Nat.mod_eq_of_lt
  rw [Nat.div_lt_iff_lt_mul (by norm_num), Nat.mul_comm]
  exact Nat.mul_lt_mul'' hy hx

theorem mulShiftRoundUp_le_iff {k : Nat} : mulShiftRoundUp x y SCALE_OFFSET ≤ k ↔ x * y ≤ k * 2 ^ 128 := by
  have hlt : x * y ≤ (2 ^ 128 - 1) * (2 ^ 256 - 1) := Nat.mul_le_mul (by omega) (by omega)
  unfold mulShiftRoundUp
  rw [mulShiftRoundDown_eq hx hy, show SCALE_OFFSET = 128 from rfl]
  dsimp only
  split
  · rw [Fixed.wadd_of_lt (by omega)]; omega
  · omega

end Shifts

/-- **The bin conversions are adjoint**: an input covers the cost of an output iff it buys it. -/
theorem binInput_le_iff {swapForY : Bool} {out inp price : Nat} (hout : out < 2 ^ 128)
    (hin : inp < 2 ^ 128) (hp0 : 0 < price) (hp : price < 2 ^ 256) :
    binInput swapForY out price ≤ inp ↔ out ≤ binOutput swapForY inp price := by
  cases swapForY with
  | true =>
    simp only [binInput, binOutput, if_true]
    rw [shiftDivRoundUp_le_iff hout hp0, mulShiftRoundDown_eq hin hp, Nat.le_div_iff_mul_le (by norm_num)]
  | false =>
    simp only [binInput, binOutput, Bool.false_eq_true, if_false]
    rw [mulShiftRoundUp_le_iff hout hp, shiftDivRoundDown_eq hin, Nat.le_div_iff_mul_le hp0]

theorem binInput_mono {swapForY : Bool} {a b price : Nat} (h : a ≤ b) (hb : b < 2 ^ 128)
    (hp0 : 0 < price) (hp : price < 2 ^ 256) : binInput swapForY a price ≤ binInput swapForY b price := by
  have ha : a < 2 ^ 128 := lt_of_le_of_lt h hb
  cases swapForY with
  | true =>
    simp only [binInput, if_true]
    rw [shiftDivRoundUp_le_iff ha hp0]
    exact (Nat.mul_le_mul_right _ h).trans ((shiftDivRoundUp_le_iff hb hp0).1 le_rfl)
  | false =>
    simp only [binInput, Bool.false_eq_true, if_false]
    rw [mulShiftRoundUp_le_iff ha hp]
    exact (Nat.mul_le_mul_right _ h).trans ((mulShiftRoundUp_le_iff hb hp).1 le_rfl)

theorem binOutput_mono {swapForY : Bool} {a b price : Nat} (h : a ≤ b) (hb : b < 2 ^ 128) (hp : price < 2 ^ 256) :
    binOutput swapForY a price ≤ binOutput swapForY b price := by
  have ha : a < 2 ^ 128 := lt_of_le_of_lt h hb
  cases swapForY with
  | true =>
    rw [binOutput, binOutput, if_pos rfl, if_pos rfl, mulShiftRoundDown_eq ha hp, mulShiftRoundDown_eq hb hp]
    exact Nat.div_le_div_right (Nat.mul_le_mul_right _ h)
  | false =>
    rw [binOutput, binOutput, if_neg Bool.false_ne_true, if_neg Bool.false_ne_true, shiftDivRoundDown_eq ha,
      shiftDivRoundDown_eq hb]
    exact Nat.div_le_div_right (Nat.mul_le_mul_right _ h)

theorem binInput_pos {swapForY : Bool} {a price : Nat} (ha0 : 0 < a) (ha : a < 2 ^ 128)
    (hp0 : 0 < price) (hp : price < 2 ^ 256) : 0 < binInput swapForY a price := by
  by_contra h
  have h0 : a ≤ binOutput swapForY 0 price := (binInput_le_iff ha (by norm_num) hp0 hp).1 (by omega)
  cases swapForY <;> simp [binOutput, mulShiftRoundDown, shiftDivRoundDown] at h0 <;> omega

end EvmDexPool.LB
