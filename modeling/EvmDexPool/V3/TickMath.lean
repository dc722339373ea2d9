import EvmDexPool.Lib.WideMul
import EvmDexPool.Log
import Mathlib.Tactic.NormNum

/-!
# Prices at ticks (`v3/tick_math.rs`)

`getSqrtRatioAtTick` is monotone on the ticks there are (`sqrtRatio_mono`), and
`getTickAtSqrtRatio` returns on every price between the two end ratios (`getTickAtSqrtRatio_ok`).
-/

namespace EvmDexPool.V3

open Fixed

def MAX_TICK : Int := 887272
def MIN_TICK : Int := -887272
def MIN_SQRT_RATIO : Nat := 4295128739
def MAX_SQRT_RATIO : Nat := 1461446703485210103287273052203988822378723970342

/-- `MAX_SQRT_RATIO_MINUS_MIN_SQRT_RATIO_MINUS_ONE` (tick_math.rs:25), for the bounds check. -/
def MAX_MINUS_MIN_MINUS_ONE : Nat := 1461446703485210103287273052203988822374428841602

/-- `2^128 / sqrt(1.0001)^(2^i)`, from `i = 0` on (tick_math.rs:66-128). -/
def tickRatios : List Nat :=
  [0xfffcb933bd6fad37aa2d162d1a594001, 0xfff97272373d413259a46990580e213a,
    0xfff2e50f5f656932ef12357cf3c7fdcc, 0xffe5caca7e10e4e61c3624eaa0941cd0,
    0xffcb9843d60f6159c9db58835c926644, 0xff973b41fa98c081472e6896dfb254c0,
    0xff2ea16466c96a3843ec78b326b52861, 0xfe5dee046a99a2a811c461f1969c3053,
    0xfcbe86c7900a88aedcffc83b479aa3a4, 0xf987a7253ac413176f2b074cf7815e54,
    0xf3392b0822b70005940c7a398e4b70f3, 0xe7159475a2c29b7443b29c7fa6e889d9,
    0xd097f3bdfd2022b8845ad8f792aa5825, 0xa9f746462d870fdf8a65dc1f90e061e5,
    0x70d869a156d2a1b890bb3df62baf32f7, 0x31be135f97d08fd981231505542fcfa6,
    0x9aa508b5b7a84e1c677de54f3e99bc9, 0x5d6af8dedb81196699c329225ee604,
    0x2216e584f5fa1ea926041bedfe98, 0x48a170391f7dc42444e8fa2]

/-- `(ratio * c) >> 128`. -/
def mulRatio (ratio c : Nat) : Nat := wmul 256 ratio c / 2 ^ 128

/-- The bits of `abs_tick` from `bit` on, one constant a bit. -/
def ratioBits (absTick : Nat) : (cs : List Nat) → (bit ratio : Nat) → Nat
  | [], _, ratio => ratio
  | c :: cs, bit, ratio => ratioBits absTick cs (bit + 1) (if absTick.testBit bit then mulRatio ratio c else ratio)

/-- The ratio of `-abs_tick` in 128 fractional bits. Bit 0 takes its constant as it is. -/
def ratioX128 (absTick : Nat) : Nat :=
  ratioBits absTick tickRatios.tail 1 (if absTick.testBit 0 then tickRatios.head! else 2 ^ 128)

/-- `get_sqrt_ratio_at_tick` (tick_math.rs:57), of a 24-bit tick: the least one has no absolute value, and
`tick.abs()` overflows. -/
def getSqrtRatioAtTick (tick : Int) : Except Fault Nat :=
  let absTick := tick.natAbs
  if tick = -2 ^ 23 then .error .overflow
  else if (absTick : Int) > MAX_TICK then .error (.error s!"Invalid tick: {tick}")
  else
    let ratio := ratioX128 absTick
    let ratio := if tick > 0 then (2 ^ 256 - 1) / ratio else ratio
    let ratio := wadd 256 ratio 0xffffffff / 2 ^ 32
    match narrow 160 ratio with
    | some ratio => .ok ratio
    | none => .error .panic

/-- The 14 squarings of `get_tick_at_sqrt_ratio` (tick_math.rs:175-242), `n` to go: each gives one more
binary digit of the logarithm. The last leaves a mantissa that nothing reads. -/
def logBits : (n r decimals : Nat) → Nat
  | 0, _, decimals => decimals
  | n + 1, r, decimals =>
    let square := wmul 256 r r
    let f := square / 2 ^ 255
    logBits n (square / 2 ^ (127 + f)) (decimals ||| f * 2 ^ (n + 50))

/-- `x.into_limbs()[0] as i32`. -/
def lowI32 (x : Nat) : Int := toSigned 32 (x % 2 ^ 32)

/-- `I24::try_from(tick).unwrap()`. -/
def toI24 (tick : Int) : Except Fault Int :=
  if -2 ^ 23 ≤ tick ∧ tick < 2 ^ 23 then .ok tick else .error .panic

/-- `log_sqrt10001` (tick_math.rs:162-249), a fixed-point number of 128 fractional bits. -/
def logSqrt10001 (sqrtRatioX96 : Nat) : Nat :=
  let msb := sqrtRatioX96.log2
  let log2X64 := wsub 256 msb 96 * 2 ^ 64 % 2 ^ 256
  let r := sqrtRatioX96 * 2 ^ 96 % 2 ^ 256 / 2 ^ (msb - 31)
  wmul 256 (log2X64 ||| logBits 14 r 0) 255738958999603826347141

/-- `get_tick_at_sqrt_ratio` (tick_math.rs:150). -/
def getTickAtSqrtRatio (sqrtRatioX96 : Nat) : Except Fault Int :=
  if wsub 160 sqrtRatioX96 MIN_SQRT_RATIO > MAX_MINUS_MIN_MINUS_ONE then
    .error (.error s!"Invalid sqrt price: {sqrtRatioX96}")
  else do
    let log := logSqrt10001 sqrtRatioX96
    let tickLow := lowI32 (wsub 256 log 3402992956809132418596140100660247210 / 2 ^ 128)
    let tickHigh := lowI32 (wadd 256 log 291339464771989622907027621153398088495 / 2 ^ 128)
    if tickLow = tickHigh then toI24 tickLow
    else
      let i24 ← toI24 tickHigh
      let ratio ← getSqrtRatioAtTick i24
      toI24 (tickHigh - if ratio > sqrtRatioX96 then 1 else 0)

/-! ## The ratio falls as the tick does -/

theorem mulRatio_eq {r c : Nat} (hr : r ≤ 2 ^ 128) (hc : c < 2 ^ 128) : mulRatio r c = r * c / 2 ^ 128 := by
  have : r * c < 2 ^ 256 :=
    calc r * c ≤ 2 ^ 128 * c := Nat.mul_le_mul_right _ hr
      _ < 2 ^ 128 * 2 ^ 128 := Nat.mul_lt_mul_of_pos_left hc (by decide)
      _ = 2 ^ 256 := by norm_num
  unfold mulRatio
  rw [wmul_of_lt this]

theorem mulRatio_le {r c : Nat} (hr : r ≤ 2 ^ 128) (hc : c < 2 ^ 128) : mulRatio r c ≤ r := by
  rw [mulRatio_eq hr hc]
  exact Nat.div_le_of_le_mul (by rw [Nat.mul_comm]; exact Nat.mul_le_mul_right _ hc.le)

theorem mulRatio_mono {r s c : Nat} (hrs : r ≤ s) (hs : s ≤ 2 ^ 128) (hc : c < 2 ^ 128) :
    mulRatio r c ≤ mulRatio s c := by
  rw [mulRatio_eq (hrs.trans hs) hc, mulRatio_eq hs hc]
  exact Nat.div_le_div_right (Nat.mul_le_mul_right _ hrs)

/-- The higher bits of two ticks agree: the ratio keeps the order it has. -/
theorem ratioBits_mono {m n : Nat} : ∀ {cs : List Nat} {bit r s : Nat}, (∀ c ∈ cs, c < 2 ^ 128) →
    m / 2 ^ bit = n / 2 ^ bit → r ≤ s → s ≤ 2 ^ 128 → ratioBits m cs bit r ≤ ratioBits n cs bit s
  | [], _, _, _, _, _, hrs, _ => hrs
  | c :: cs, bit, r, s, hcs, hmn, hrs, hs => by
    obtain ⟨hc, hcs⟩ := List.forall_mem_cons.1 hcs
    have hbit : m.testBit bit = n.testBit bit := by
      rw [Nat.testBit_eq_decide_div_mod_eq, Nat.testBit_eq_decide_div_mod_eq, hmn]
    have hnext : m / 2 ^ (bit + 1) = n / 2 ^ (bit + 1) := by
      rw [Nat.pow_succ, ← Nat.div_div_eq_div_mul, ← Nat.div_div_eq_div_mul, hmn]
    unfold ratioBits
    rw [hbit]
    split
    · exact ratioBits_mono hcs hnext (mulRatio_mono hrs hs hc) ((mulRatio_le hs hc).trans hs)
    · exact ratioBits_mono hcs hnext hrs hs

/-- What a carry into a bit costs: the constant of the bit alone, against those of all the bits below. -/
def Carries (r : Nat) : (s : Nat) → List Nat → Prop
  | _, [] => True
  | s, c :: cs => mulRatio r c ≤ s ∧ Carries r (mulRatio s c) cs

def decCarries (r : Nat) : (s : Nat) → (cs : List Nat) → Decidable (Carries r s cs)
  | _, [] => isTrue trivial
  | s, c :: cs => @instDecidableAnd _ _ (inferInstance) (decCarries r (mulRatio s c) cs)

instance (r s : Nat) (cs : List Nat) : Decidable (Carries r s cs) := decCarries r s cs

/-- One tick more, from a bit on: the bits below it are ones for `n`, and zeros for `m`. -/
theorem ratioBits_succ_le {m n : Nat} : ∀ {cs : List Nat} {bit r s : Nat}, (∀ c ∈ cs, c < 2 ^ 128) →
    Carries r s cs → m / 2 ^ bit = n / 2 ^ bit + 1 → m / 2 ^ bit < 2 ^ cs.length →
    r ≤ 2 ^ 128 → s ≤ 2 ^ 128 → ratioBits m cs bit r ≤ ratioBits n cs bit s
  | [], _, _, _, _, _, hmn, hm, _, _ => by
    rw [hmn, List.length_nil, pow_zero] at hm
    exact absurd hm (Nat.not_lt.2 (Nat.le_add_left 1 _))
  | c :: cs, bit, r, s, hcs, hcar, hmn, hm, hr, hs => by
    obtain ⟨hc, hcs⟩ := List.forall_mem_cons.1 hcs
    obtain ⟨hcarry, hcar⟩ := hcar
    have hm2 : m / 2 ^ (bit + 1) = m / 2 ^ bit / 2 := by rw [Nat.pow_succ, Nat.div_div_eq_div_mul]
    have hn2 : n / 2 ^ (bit + 1) = n / 2 ^ bit / 2 := by rw [Nat.pow_succ, Nat.div_div_eq_div_mul]
    have hlen : 2 ^ (c :: cs).length = 2 * 2 ^ cs.length := by rw [List.length_cons, Nat.pow_succ, Nat.mul_comm]
    unfold ratioBits
    rw [Nat.testBit_eq_decide_div_mod_eq, Nat.testBit_eq_decide_div_mod_eq]
    rcases Nat.mod_two_eq_zero_or_one (n / 2 ^ bit) with h | h
    · -- the carry stops here
      rw [if_pos (by simp; omega), if_neg (by simp; omega)]
      exact ratioBits_mono hcs (by omega) hcarry hs
    · rw [if_neg (by simp; omega), if_pos (by simp; omega)]
      exact ratioBits_succ_le hcs hcar (by omega) (by omega) hr ((mulRatio_le hs hc).trans hs)

theorem tickRatios_lt : ∀ c ∈ tickRatios, c < 2 ^ 128 := by decide

/-- Bit 0 is a bit like the others: its constant is what one multiplication by it gives. -/
theorem ratioX128_eq (n : Nat) : ratioX128 n = ratioBits n tickRatios 0 (2 ^ 128) := by
  have hfirst : mulRatio (2 ^ 128) tickRatios.head! = tickRatios.head! := by decide +kernel
  have hcons : tickRatios = tickRatios.head! :: tickRatios.tail := rfl
  rw [hcons, ratioBits, hfirst]
  rfl

theorem ratioX128_succ_le {n : Nat} (hn : n + 1 < 2 ^ 20) : ratioX128 (n + 1) ≤ ratioX128 n := by
  have hcar : Carries (2 ^ 128) (2 ^ 128) tickRatios := by decide +kernel
  rw [ratioX128_eq, ratioX128_eq]
  exact ratioBits_succ_le tickRatios_lt hcar (by simp) (by simpa [tickRatios] using hn) le_rfl le_rfl

theorem ratioX128_anti {m n : Nat} (hmn : m ≤ n) (hn : n < 2 ^ 20) : ratioX128 n ≤ ratioX128 m := by
  induction n, hmn using Nat.le_induction with
  | base => exact le_rfl
  | succ n _ ih => exact (ratioX128_succ_le hn).trans (ih (by omega))

theorem ratioX128_zero : ratioX128 0 = 2 ^ 128 := by decide +kernel
theorem ratioX128_one : ratioX128 1 < 2 ^ 128 := by decide +kernel
theorem ratioX128_max : 2 ^ 64 ≤ ratioX128 887272 := by decide +kernel

theorem ratioX128_mem {n : Nat} (hn : n ≤ 887272) : 2 ^ 64 ≤ ratioX128 n ∧ ratioX128 n ≤ 2 ^ 128 :=
  ⟨ratioX128_max.trans (ratioX128_anti hn (by decide)),
    (ratioX128_anti (Nat.zero_le n) (by omega)).trans_eq ratioX128_zero⟩

/-! ## The price at a tick -/

/-- `get_sqrt_ratio_at_tick` for a tick in bounds. -/
def sqrtRatio (tick : Int) : Nat :=
  ((if tick > 0 then (2 ^ 256 - 1) / ratioX128 tick.natAbs else ratioX128 tick.natAbs) + 0xffffffff) / 2 ^ 32

/-- Above tick 0 the ratio is the inverse one. -/
theorem invRatio_le {r : Nat} (hr : 2 ^ 64 ≤ r) : (2 ^ 256 - 1) / r < 2 ^ 192 := by
  rw [Nat.div_lt_iff_lt_mul (by omega)]
  omega

theorem sqrtRatio_mono {s t : Int} (hs : MIN_TICK ≤ s) (hst : s ≤ t) (ht : t ≤ MAX_TICK) : sqrtRatio s ≤ sqrtRatio t := by
  unfold MIN_TICK MAX_TICK at *
  unfold sqrtRatio
  refine Nat.div_le_div_right (Nat.add_le_add_right ?_ _)
  by_cases hs0 : s > 0
  · rw [if_pos hs0, if_pos (by omega)]
    refine Nat.div_le_div_left (ratioX128_anti (by omega) (by omega)) ?_
    have := (ratioX128_mem (n := t.natAbs) (by omega)).1
    omega
  rw [if_neg hs0]
  by_cases ht0 : t > 0
  · -- the two halves meet at tick 0
    have hlow := (ratioX128_mem (n := s.natAbs) (by omega)).2
    have hhigh : ratioX128 t.natAbs ≤ ratioX128 1 := ratioX128_anti (by omega) (by omega)
    have hpos := (ratioX128_mem (n := t.natAbs) (by omega)).1
    have hone := ratioX128_one
    rw [if_pos ht0]
    refine hlow.trans ((Nat.le_div_iff_mul_le (by omega)).2 ?_)
    omega
  · rw [if_neg ht0]
    exact ratioX128_anti (by omega) (by omega)

theorem sqrtRatio_min : sqrtRatio MIN_TICK = MIN_SQRT_RATIO := by decide +kernel
theorem sqrtRatio_max : sqrtRatio MAX_TICK = MAX_SQRT_RATIO := by decide +kernel

/-- The price of a tick in bounds lies between the two end prices. -/
theorem sqrtRatio_mem {t : Int} (h : MIN_TICK ≤ t ∧ t ≤ MAX_TICK) :
    MIN_SQRT_RATIO ≤ sqrtRatio t ∧ sqrtRatio t ≤ MAX_SQRT_RATIO :=
  ⟨sqrtRatio_min ▸ sqrtRatio_mono le_rfl h.1 h.2, sqrtRatio_max ▸ sqrtRatio_mono h.1 h.2 le_rfl⟩

theorem getSqrtRatioAtTick_eq {t : Int} (h : MIN_TICK ≤ t ∧ t ≤ MAX_TICK) :
    getSqrtRatioAtTick t = .ok (sqrtRatio t) := by
  obtain ⟨h0, h1⟩ := h
  unfold MIN_TICK MAX_TICK at *
  obtain ⟨hlow, hhigh⟩ := ratioX128_mem (n := t.natAbs) (by omega)
  have hinv := invRatio_le hlow
  have hmax : sqrtRatio t < 2 ^ 160 :=
    calc sqrtRatio t ≤ MAX_SQRT_RATIO := (sqrtRatio_mem ⟨h0, h1⟩).2
      _ < 2 ^ 160 := by decide
  unfold getSqrtRatioAtTick
  rw [if_neg (by omega), if_neg (by unfold MAX_TICK; omega)]
  dsimp only
  rw [wadd_of_lt (by split <;> omega)]
  rw [show ((if t > 0 then (2 ^ 256 - 1) / ratioX128 t.natAbs else ratioX128 t.natAbs) + 0xffffffff) / 2 ^ 32 =
    sqrtRatio t from rfl, narrow_of_lt hmax]

/-! ## The tick at a price -/

theorem logBits_mem : ∀ {n r decimals : Nat}, n ≤ 14 → decimals < 2 ^ 64 → decimals % 2 ^ 50 = 0 →
    logBits n r decimals < 2 ^ 64 ∧ logBits n r decimals % 2 ^ 50 = 0
  | 0, _, _, _, h, h' => ⟨h, h'⟩
  | n + 1, r, decimals, hn, h, h' => by
    have hf : wmul 256 r r / 2 ^ 255 ≤ 1 := by
      have : wmul 256 r r < 2 ^ 256 := wmul_lt
      omega
    have hbit : wmul 256 r r / 2 ^ 255 * 2 ^ (n + 50) < 2 ^ 64 :=
      calc wmul 256 r r / 2 ^ 255 * 2 ^ (n + 50) ≤ 1 * 2 ^ (n + 50) := Nat.mul_le_mul_right _ hf
        _ < 2 ^ 64 := by rw [Nat.one_mul]; exact Nat.pow_lt_pow_right (by decide) (by omega)
    unfold logBits
    refine logBits_mem (by omega) (Nat.or_lt_two_pow h hbit) ?_
    rw [Nat.or_mod_two_pow, h', Nat.zero_or, Nat.pow_add, ← Nat.mul_assoc, Nat.mul_mod_left]

/-- The logarithm before it is scaled, signed: the whole digits out of the most significant bit, and
fourteen binary digits after the point. -/
theorem logSqrt10001_modEq (x : Nat) :
    ∃ D : Nat, D = logBits 14 (x * 2 ^ 96 % 2 ^ 256 / 2 ^ (x.log2 - 31)) 0 ∧ D < 2 ^ 64 ∧ D % 2 ^ 50 = 0 ∧
      (logSqrt10001 x : Int) ≡ (((x.log2 : Int) - 96) * 2 ^ 64 + D) * 255738958999603826347141 [ZMOD 2 ^ 256] := by
  obtain ⟨hD, hD50⟩ : logBits 14 (x * 2 ^ 96 % 2 ^ 256 / 2 ^ (x.log2 - 31)) 0 < 2 ^ 64 ∧
      logBits 14 (x * 2 ^ 96 % 2 ^ 256 / 2 ^ (x.log2 - 31)) 0 % 2 ^ 50 = 0 := logBits_mem le_rfl (by decide) rfl
  refine ⟨_, rfl, hD, hD50, ?_⟩
  unfold logSqrt10001
  dsimp only
  generalize logBits 14 _ 0 = D at *
  have hor : wsub 256 x.log2 96 * 2 ^ 64 % 2 ^ 256 ||| D = wsub 256 x.log2 96 * 2 ^ 64 % 2 ^ 256 + D := by
    have := Nat.two_pow_add_eq_or_of_lt hD (wsub 256 x.log2 96 % 2 ^ 192)
    rw [show wsub 256 x.log2 96 * 2 ^ 64 % 2 ^ 256 = 2 ^ 64 * (wsub 256 x.log2 96 % 2 ^ 192) by omega, this]
  have hhigh : ((wsub 256 x.log2 96 * 2 ^ 64 % 2 ^ 256 : Nat) : Int) ≡ ((x.log2 : Int) - 96) * 2 ^ 64 [ZMOD 2 ^ 256] :=
    calc ((wsub 256 x.log2 96 * 2 ^ 64 % 2 ^ 256 : Nat) : Int)
        ≡ (wsub 256 x.log2 96 : Nat) * 2 ^ 64 [ZMOD 2 ^ 256] := by push_cast; exact Int.mod_modEq _ _
      _ ≡ ((x.log2 : Int) - (96 : Nat)) * 2 ^ 64 [ZMOD 2 ^ 256] := (wsub_modEq (by decide)).mul_right _
  rw [hor]
  refine (wmul_modEq _ _ _).trans ?_
  push_cast
  exact (hhigh.add_right _).mul_right _

/-- The high half of a signed word, read as `i32`. -/
theorem lowI32_high {n : Nat} {X : Int} (hn : n < 2 ^ 256) (hX : (n : Int) ≡ X [ZMOD 2 ^ 256]) (h0 : -2 ^ 159 ≤ X)
    (h1 : X < 2 ^ 159) : lowI32 (n / 2 ^ 128) = X / 2 ^ 128 := by
  have hmod : (n : Int) % 2 ^ 256 = X % 2 ^ 256 := hX
  unfold lowI32 toSigned
  split <;> omega

theorem log2_mem {x : Nat} (h0 : MIN_SQRT_RATIO ≤ x) (h1 : x < MAX_SQRT_RATIO) : 32 ≤ x.log2 ∧ x.log2 < 160 := by
  unfold MIN_SQRT_RATIO MAX_SQRT_RATIO at *
  exact ⟨(Nat.le_log2 (by omega)).2 (by omega), (Nat.log2_lt (by omega)).2 (by omega)⟩

theorem toI24_eq {t : Int} (h : -2 ^ 23 ≤ t ∧ t < 2 ^ 23) : toI24 t = .ok t := if_pos h

/-- The two candidates: `log_sqrt10001` less the one error bound, and more by the other. -/
theorem tickBounds_eq {x : Nat} (h0 : MIN_SQRT_RATIO ≤ x) (h1 : x < MAX_SQRT_RATIO) :
    ∃ D : Nat, D = logBits 14 (x * 2 ^ 96 % 2 ^ 256 / 2 ^ (x.log2 - 31)) 0 ∧ D < 2 ^ 64 ∧ D % 2 ^ 50 = 0 ∧
      lowI32 (wsub 256 (logSqrt10001 x) 3402992956809132418596140100660247210 / 2 ^ 128) =
        ((((x.log2 : Int) - 96) * 2 ^ 64 + D) * 255738958999603826347141 - 3402992956809132418596140100660247210) /
          2 ^ 128 ∧
      lowI32 (wadd 256 (logSqrt10001 x) 291339464771989622907027621153398088495 / 2 ^ 128) =
        ((((x.log2 : Int) - 96) * 2 ^ 64 + D) * 255738958999603826347141 + 291339464771989622907027621153398088495) /
          2 ^ 128 := by
  obtain ⟨hlog0, hlog1⟩ := log2_mem h0 h1
  obtain ⟨D, hDeq, hD, hD50, hlog⟩ := logSqrt10001_modEq x
  refine ⟨D, hDeq, hD, hD50, ?_, ?_⟩
  · exact lowI32_high wsub_lt ((wsub_modEq (by decide)).trans (hlog.sub_right _)) (by omega) (by omega)
  · exact lowI32_high wadd_lt ((wadd_modEq _ _ _).trans (hlog.add_right _)) (by omega) (by omega)

/-- The two candidates are ticks that `get_sqrt_ratio_at_tick` takes, or one below. -/
theorem tickBounds_mem {x : Nat} (h0 : MIN_SQRT_RATIO ≤ x) (h1 : x < MAX_SQRT_RATIO) :
    let low := lowI32 (wsub 256 (logSqrt10001 x) 3402992956809132418596140100660247210 / 2 ^ 128)
    let high := lowI32 (wadd 256 (logSqrt10001 x) 291339464771989622907027621153398088495 / 2 ^ 128)
    (-887273 ≤ low ∧ low ≤ 887272) ∧ MIN_TICK ≤ high ∧ high ≤ MAX_TICK := by
  obtain ⟨hlog0, hlog1⟩ := log2_mem h0 h1
  obtain ⟨D, -, hD, hD50, hlow, hhigh⟩ := tickBounds_eq h0 h1
  unfold MIN_TICK MAX_TICK
  dsimp only
  omega

/-- The one comparison. -/
theorem getTickAtSqrtRatio_eq {x : Nat} (h0 : MIN_SQRT_RATIO ≤ x) (h1 : x < MAX_SQRT_RATIO) :
    let low := lowI32 (wsub 256 (logSqrt10001 x) 3402992956809132418596140100660247210 / 2 ^ 128)
    let high := lowI32 (wadd 256 (logSqrt10001 x) 291339464771989622907027621153398088495 / 2 ^ 128)
    getTickAtSqrtRatio x = .ok (if low = high then low else high - if sqrtRatio high > x then 1 else 0) := by
  obtain ⟨hlow, hhigh⟩ := tickBounds_mem h0 h1
  have hrange : ¬wsub 160 x MIN_SQRT_RATIO > MAX_MINUS_MIN_MINUS_ONE := by
    unfold MIN_SQRT_RATIO MAX_SQRT_RATIO at *
    unfold MAX_MINUS_MIN_MINUS_ONE
    rw [wsub_of_le h0 (by omega)]
    omega
  unfold getTickAtSqrtRatio
  rw [if_neg hrange]
  dsimp only
  generalize lowI32 (wsub 256 (logSqrt10001 x) 3402992956809132418596140100660247210 / 2 ^ 128) = low at *
  generalize lowI32 (wadd 256 (logSqrt10001 x) 291339464771989622907027621153398088495 / 2 ^ 128) = high at *
  have hwide : -887272 ≤ high ∧ high ≤ 887272 := hhigh
  by_cases heq : low = high
  · rw [if_pos heq, if_pos heq, toI24_eq (by omega)]
  · rw [if_neg heq, if_neg heq, toI24_eq (by omega), ok_bind, getSqrtRatioAtTick_eq hhigh, ok_bind,
      toI24_eq (by split <;> omega)]

/-- **`get_tick_at_sqrt_ratio` returns** on every price below the last ratio and not below the first. -/
theorem getTickAtSqrtRatio_ok {x : Nat} (h0 : MIN_SQRT_RATIO ≤ x) (h1 : x < MAX_SQRT_RATIO) :
    ∃ tick, getTickAtSqrtRatio x = .ok tick := ⟨_, getTickAtSqrtRatio_eq h0 h1⟩

end EvmDexPool.V3
