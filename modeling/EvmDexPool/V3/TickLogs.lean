import Mathlib.Analysis.Complex.ExponentialBounds
import EvmDexPool.Lib.BinaryLog
import EvmDexPool.V3.TickMath

/-!
# Ticks and prices are inverse (`v3/tick_math.rs`)

A tick is the logarithm of its price to the base `sqrt(1.0001)`. `get_sqrt_ratio_at_tick` multiplies powers
of the base and rounds, `get_tick_at_sqrt_ratio` takes fourteen binary digits of the logarithm and compares
once; both are told here by natural logarithms, one step of the tick being `stepLog`.
-/

namespace EvmDexPool.V3

open Fixed BinaryLog
open Real (log log_div log_mul log_pow log_le_log log_two_gt_d9 log_two_lt_d9 abs_log_sub_add_sum_range_le)

/-- The logarithm of `sqrt(1.0001)`. -/
noncomputable def stepLog : ℝ := log (10001 / 10000) / 2

/-- Four terms of the series. -/
theorem stepLog_bounds : 0.00004999750016 < stepLog ∧ stepLog < 0.00004999750017 := by
  have hseries := abs_log_sub_add_sum_range_le (x := -1 / 10000) (by norm_num [abs_lt]) 4
  have hlog : log (1 - (-1 / 10000 : ℝ)) = 2 * stepLog := by
    unfold stepLog
    norm_num
    ring
  rw [hlog] at hseries
  norm_num [Finset.sum_range_succ, abs_le] at hseries
  constructor <;> linarith

/-- The scale from binary digits to ticks is the ratio of the two logarithms: for any logarithm of a price,
of `k` steps of `2^-14`, it is off by less than a thousandth of a tick. -/
theorem scale_bounds : |255738958999603826347141 / 2 ^ 78 * stepLog - log 2 / 2 ^ 14| < 1 / 10 ^ 13 := by
  obtain ⟨hlo, hhi⟩ := stepLog_bounds
  have h2lo := log_two_gt_d9
  have h2hi := log_two_lt_d9
  rw [abs_lt]
  constructor <;> norm_num <;> linarith

/-! ## Logarithms of the constants -/

/-- How far the logarithm of a constant may be from its powers of the step. -/
noncomputable def slack : ℝ := 1 / 2 ^ 88

/-- The constants from bit `bit` on are powers of the step, up to `slack` a tick. -/
def NearPowers : (bit : Nat) → List Nat → Prop
  | _, [] => True
  | bit, c :: cs => |log (c / 2 ^ 128) + 2 ^ bit * stepLog| ≤ (2 ^ bit - 1 / 2) * slack ∧ NearPowers (bit + 1) cs

/-- A constant is the square of the one before it, rounded. -/
def Squared (c d : Nat) : Prop := 0 < c ∧ (d * 2 ^ 128 - c ^ 2 : Int).natAbs * 2 ^ 90 ≤ c ^ 2

instance (c d : Nat) : Decidable (Squared c d) := inferInstanceAs (Decidable (_ ∧ _))

theorem log_squared {c d : Nat} (h : Squared c d) : |log (d / 2 ^ 128) - 2 * log (c / 2 ^ 128)| ≤ slack / 2 := by
  obtain ⟨hc, hd⟩ := h
  have hc : (0 : ℝ) < c := Nat.cast_pos.2 hc
  have habs : |(d * 2 ^ 128 - c ^ 2 : ℝ)| * 2 ^ 90 ≤ c ^ 2 := by
    have hcast := Int.cast_le (R := ℝ) |>.2 (Int.ofNat_le.2 hd)
    push_cast at hcast
    norm_num at hcast ⊢
    exact hcast
  have hd : (d : ℝ) ≠ 0 := by
    rintro hd
    rw [hd] at habs
    norm_num [abs_of_pos hc] at habs
    nlinarith
  have hlog := abs_log_sub_le (x := (c : ℝ) ^ 2) (y := d * 2 ^ 128) (e := 1 / 2 ^ 90) (by positivity) (by norm_num)
    (by rw [mul_one_div, le_div_iff₀ (by positivity)]; exact habs)
  rw [log_mul hd (by positivity), log_pow, log_pow] at hlog
  rw [log_div hd (by positivity), log_div hc.ne' (by positivity), log_pow]
  unfold slack
  push_cast at hlog ⊢
  rw [abs_le] at hlog ⊢
  constructor <;> linarith

theorem nearPowers_of_squared : ∀ {cs : List Nat} {bit c : Nat}, (c :: cs).IsChain Squared →
    |log (c / 2 ^ 128) + 2 ^ bit * stepLog| ≤ (2 ^ bit - 1 / 2) * slack → NearPowers bit (c :: cs)
  | [], _, _, _, hc => ⟨hc, trivial⟩
  | d :: cs, bit, c, h, hc => by
    rw [List.isChain_cons_cons] at h
    obtain ⟨hcd, h⟩ := h
    refine ⟨hc, nearPowers_of_squared h ?_⟩
    have hsquare := log_squared hcd
    rw [abs_le] at hc hsquare ⊢
    rw [pow_succ]
    constructor <;> linarith

theorem tickRatios_squared : tickRatios.IsChain Squared := by decide +kernel

theorem tickRatios_near : NearPowers 0 tickRatios := by
  have hfirst : |(0xfffcb933bd6fad37aa2d162d1a594001 ^ 2 * 10001 - 2 ^ 256 * 10000 : ℝ)| ≤ 2 ^ 256 * 10000 * (1 / 2 ^ 120) := by
    norm_num [abs_le]
  have hlog := abs_log_sub_le (by norm_num) (by norm_num) hfirst
  rw [log_mul (by norm_num) (by norm_num), log_mul (by norm_num) (by norm_num), log_pow, log_pow] at hlog
  refine nearPowers_of_squared tickRatios_squared ?_
  unfold slack stepLog
  rw [log_div (by norm_num) (by norm_num), log_div (by norm_num) (by norm_num), log_pow]
  push_cast at hlog ⊢
  rw [abs_le] at hlog ⊢
  constructor <;> linarith

/-! ## Logarithms of the ratios -/

theorem ratioBits_le {n : Nat} : ∀ {cs : List Nat} {bit r : Nat}, (∀ c ∈ cs, c < 2 ^ 128) → r ≤ 2 ^ 128 →
    ratioBits n cs bit r ≤ r
  | [], _, _, _, _ => le_rfl
  | c :: cs, bit, r, hcs, hr => by
    obtain ⟨hc, hcs⟩ := List.forall_mem_cons.1 hcs
    have hmul := mulRatio_le hr hc
    unfold ratioBits
    split
    · exact (ratioBits_le hcs (hmul.trans hr)).trans hmul
    · exact ratioBits_le hcs hr

/-- One multiplication adds the logarithm of the constant, up to the rounding. -/
theorem log_mulRatio {r c : Nat} (hr : r ≤ 2 ^ 128) (hc : c < 2 ^ 128) (h : 2 ^ 64 ≤ mulRatio r c) :
    |log (mulRatio r c) - (log r + log (c / 2 ^ 128))| ≤ 1 / 2 ^ 64 := by
  rw [mulRatio_eq hr hc] at *
  have hpos : 0 < r * c / 2 ^ 128 := by omega
  have hprod : r * c ≠ 0 := by
    intro hzero
    rw [hzero, Nat.zero_div] at hpos
    exact absurd hpos (lt_irrefl 0)
  obtain ⟨hr0, hc0⟩ := Nat.mul_ne_zero_iff.1 hprod
  have hr0 : (r : ℝ) ≠ 0 := Nat.cast_ne_zero.2 hr0
  have hc0 : (c : ℝ) ≠ 0 := Nat.cast_ne_zero.2 hc0
  obtain ⟨hdown, hup⟩ := log_floor (a := r * c) (b := 2 ^ 128) (by norm_num) hpos
  have hexact : log (((r * c : Nat) : ℝ) / ((2 ^ 128 : Nat) : ℝ)) = log r + log (c / 2 ^ 128) := by
    push_cast
    rw [mul_div_assoc, log_mul hr0 (by positivity)]
    norm_num
  have hcost : (1 : ℝ) / ((r * c / 2 ^ 128 : Nat) : ℝ) ≤ 1 / 2 ^ 64 := by
    apply one_div_le_one_div_of_le (by positivity)
    exact_mod_cast h
  rw [hexact] at hdown hup
  rw [abs_le]
  constructor <;> linarith

/-- The bits from `bit` on take as many steps off the logarithm as they stand for. -/
theorem log_ratioBits {n : Nat} : ∀ {cs : List Nat} {bit r : Nat}, (∀ c ∈ cs, c < 2 ^ 128) → NearPowers bit cs →
    n < 2 ^ (bit + cs.length) → r ≤ 2 ^ 128 → 2 ^ 64 ≤ ratioBits n cs bit r →
    |log (ratioBits n cs bit r) - log r + (n / 2 ^ bit : Nat) * 2 ^ bit * stepLog| ≤
      (n / 2 ^ bit : Nat) * 2 ^ bit * slack + cs.length * (1 / 2 ^ 64)
  | [], bit, r, _, _, hn, _, _ => by
    rw [List.length_nil, add_zero] at hn
    simp [ratioBits, Nat.div_eq_of_lt hn]
  | c :: cs, bit, r, hcs, hnear, hn, hr, h => by
    obtain ⟨hc, hcs⟩ := List.forall_mem_cons.1 hcs
    obtain ⟨hstep, hnear⟩ := hnear
    have hhalf : n / 2 ^ (bit + 1) = n / 2 ^ bit / 2 := by rw [Nat.pow_succ, Nat.div_div_eq_div_mul]
    have hn : n < 2 ^ (bit + 1 + cs.length) := by rwa [List.length_cons, ← add_assoc, add_right_comm] at hn
    have hparts := Nat.div_add_mod (n / 2 ^ bit) 2
    rw [← hhalf] at hparts
    have hsteps : (n / 2 ^ bit : Nat) * (2 : ℝ) ^ bit =
        (n / 2 ^ (bit + 1) : Nat) * 2 ^ (bit + 1) + (n / 2 ^ bit % 2 : Nat) * 2 ^ bit := by
      have hcast := congrArg (Nat.cast (R := ℝ)) hparts
      push_cast at hcast
      linear_combination -(2 : ℝ) ^ bit * hcast
    have hslack : 0 < slack := by unfold slack; positivity
    have hlen : ((c :: cs).length : ℝ) = cs.length + 1 := by simp
    unfold ratioBits at h ⊢
    rw [Nat.testBit_eq_decide_div_mod_eq] at *
    rw [hsteps, hlen]
    rcases Nat.mod_two_eq_zero_or_one (n / 2 ^ bit) with hbit | hbit
    · rw [hbit] at h ⊢
      rw [if_neg (by simp)] at h ⊢
      have ih := log_ratioBits hcs hnear hn hr h
      rw [abs_le] at ih ⊢
      push_cast
      constructor <;> linarith
    · rw [hbit] at h ⊢
      rw [if_pos (by simp)] at h ⊢
      have hmul := (mulRatio_le hr hc).trans hr
      have ih := log_ratioBits hcs hnear hn hmul h
      have hone := log_mulRatio hr hc (h.trans (ratioBits_le hcs hmul))
      rw [abs_le] at ih hone hstep ⊢
      push_cast
      constructor <;> linarith

theorem log_ratioX128 {n : Nat} (hn : n ≤ 887272) : |log (ratioX128 n / 2 ^ 128) + n * stepLog| ≤ 1 / 2 ^ 59 := by
  obtain ⟨hlow, -⟩ := ratioX128_mem hn
  rw [ratioX128_eq] at *
  have hlog := log_ratioBits tickRatios_lt tickRatios_near (n := n) (by norm_num [tickRatios]; omega) le_rfl hlow
  have hpos : (0 : ℝ) < ratioBits n tickRatios 0 (2 ^ 128) := Nat.cast_pos.2 (by omega)
  have hcost : (n : ℝ) * slack ≤ 1 / 2 ^ 68 := by
    have hn : (n : ℝ) ≤ 887272 := by exact_mod_cast hn
    unfold slack
    linarith
  rw [log_div hpos.ne' (by positivity)]
  norm_num [tickRatios] at hlog ⊢
  rw [abs_le] at hlog ⊢
  constructor <;> linarith

/-- The ratio of a tick in 128 fractional bits. -/
def fullRatio (tick : Int) : Nat :=
  if tick > 0 then (2 ^ 256 - 1) / ratioX128 tick.natAbs else ratioX128 tick.natAbs

/-- Above tick 0 the logarithm changes its sign, and the quotient is rounded. -/
theorem log_invRatio {r : Nat} (hlow : 2 ^ 64 ≤ r) (hhigh : r ≤ 2 ^ 128) :
    2 ^ 64 ≤ (2 ^ 256 - 1) / r ∧
      |log (((2 ^ 256 - 1) / r : Nat) / 2 ^ 128) + log (r / 2 ^ 128)| ≤ 1 / 2 ^ 100 := by
  have hquot : 2 ^ 127 ≤ (2 ^ 256 - 1) / r := by
    rw [Nat.le_div_iff_mul_le (by omega)]
    omega
  refine ⟨by omega, ?_⟩
  have hr : (0 : ℝ) < r := Nat.cast_pos.2 (by omega)
  have hq : (0 : ℝ) < ((2 ^ 256 - 1) / r : Nat) := Nat.cast_pos.2 (by omega)
  obtain ⟨hdown, hup⟩ := log_floor (a := 2 ^ 256 - 1) (b := r) (by omega) (by omega)
  have hcost : (1 : ℝ) / ((2 ^ 256 - 1) / r : Nat) ≤ 1 / 2 ^ 127 := by
    apply one_div_le_one_div_of_le (by positivity)
    exact_mod_cast hquot
  have hlast : |log (2 ^ 256 - 1) - 256 * log 2| ≤ 1 / 2 ^ 120 := by
    have h := abs_log_sub_le (x := (2 : ℝ) ^ 256) (y := 2 ^ 256 - 1) (e := 1 / 2 ^ 121) (by positivity)
      (by norm_num) (by norm_num)
    rw [log_pow] at h
    norm_num at h ⊢
    exact h
  have hexact : log (((2 ^ 256 - 1 : Nat) : ℝ) / (r : ℝ)) = log (2 ^ 256 - 1) - log r := by
    rw [log_div (by norm_num) hr.ne']
    norm_num
  rw [hexact] at hdown hup
  rw [log_div hq.ne' (by positivity), log_div hr.ne' (by positivity), log_pow]
  push_cast
  rw [abs_le] at hlast ⊢
  constructor <;> linarith

theorem log_fullRatio {t : Int} (h : MIN_TICK ≤ t ∧ t ≤ MAX_TICK) :
    2 ^ 64 ≤ fullRatio t ∧ |log (fullRatio t / 2 ^ 128) - t * stepLog| ≤ 1 / 2 ^ 58 := by
  unfold MIN_TICK MAX_TICK at h
  obtain ⟨hlow, hhigh⟩ := ratioX128_mem (n := t.natAbs) (by omega)
  have hlog := log_ratioX128 (n := t.natAbs) (by omega)
  unfold fullRatio
  split
  next hpos =>
    obtain ⟨hinv, hsign⟩ := log_invRatio hlow hhigh
    have habs : (t.natAbs : ℝ) = t := by rw [Nat.cast_natAbs, abs_of_pos hpos]
    rw [habs] at hlog
    refine ⟨hinv, ?_⟩
    rw [abs_le] at hlog hsign ⊢
    constructor <;> linarith
  next hpos =>
    have habs : (t.natAbs : ℝ) = -t := by rw [Nat.cast_natAbs, abs_of_nonpos (Int.not_lt.1 hpos), Int.cast_neg]
    rw [habs] at hlog
    refine ⟨hlow, ?_⟩
    rw [abs_le] at hlog ⊢
    constructor <;> linarith

/-- The price of a tick is rounded up to 96 fractional bits. -/
theorem log_sqrtRatio {t : Int} (h : MIN_TICK ≤ t ∧ t ≤ MAX_TICK) :
    t * stepLog - 1 / 2 ^ 58 ≤ log (sqrtRatio t / 2 ^ 96) ∧
      log (sqrtRatio t / 2 ^ 96) ≤ t * stepLog + 1 / 2 ^ 58 + 1 / 2 ^ 32 := by
  obtain ⟨hlow, hlog⟩ := log_fullRatio h
  have hround : fullRatio t ≤ sqrtRatio t * 2 ^ 32 ∧ sqrtRatio t * 2 ^ 32 ≤ fullRatio t + 2 ^ 32 := by
    change fullRatio t ≤ (fullRatio t + 0xffffffff) / 2 ^ 32 * 2 ^ 32 ∧ (fullRatio t + 0xffffffff) / 2 ^ 32 * 2 ^ 32 ≤ _
    omega
  have hfull : (2 : ℝ) ^ 64 ≤ fullRatio t := by exact_mod_cast hlow
  have hpos : (0 : ℝ) < fullRatio t := by linarith
  have hdown : (fullRatio t : ℝ) ≤ sqrtRatio t * 2 ^ 32 := by exact_mod_cast hround.1
  have hup : (sqrtRatio t * 2 ^ 32 : ℝ) ≤ fullRatio t + 2 ^ 32 := by exact_mod_cast hround.2
  have hratio : (0 : ℝ) < sqrtRatio t := by linarith
  have hlogdown := log_le_log hpos hdown
  have hlogup := log_le_add hpos (hpos.trans_le hdown)
  have hcost : (sqrtRatio t * 2 ^ 32 - fullRatio t : ℝ) / fullRatio t ≤ 1 / 2 ^ 32 := by
    rw [div_le_iff₀ hpos]
    linarith
  rw [log_mul hratio.ne' (by positivity), log_pow] at hlogdown hlogup
  rw [log_div hpos.ne' (by positivity), log_pow] at hlog
  rw [log_div hratio.ne' (by positivity), log_pow]
  push_cast at *
  rw [abs_le] at hlog
  constructor <;> linarith

/-- A price is strictly below the price of the next tick. -/
theorem sqrtRatio_strictMono {s t : Int} (hs : MIN_TICK ≤ s) (hst : s < t) (ht : t ≤ MAX_TICK) :
    sqrtRatio s < sqrtRatio t := by
  obtain ⟨-, hup⟩ := log_sqrtRatio ⟨hs, hst.le.trans ht⟩
  obtain ⟨hdown, -⟩ := log_sqrtRatio ⟨hs.trans hst.le, ht⟩
  obtain ⟨hstep, -⟩ := stepLog_bounds
  have hticks : (s : ℝ) + 1 ≤ t := by exact_mod_cast hst
  have hlog : log (sqrtRatio s / 2 ^ 96) < log (sqrtRatio t / 2 ^ 96) := by nlinarith
  by_contra hle
  have hle : (sqrtRatio t : ℝ) ≤ sqrtRatio s := by exact_mod_cast Nat.not_lt.1 hle
  have hpos : (0 : ℝ) < sqrtRatio t := by
    have hmin := (sqrtRatio_mem ⟨hs.trans hst.le, ht⟩).1
    exact Nat.cast_pos.2 (Nat.lt_of_lt_of_le (by decide) hmin)
  have := log_le_log (by positivity) (div_le_div_of_nonneg_right hle (by positivity : (0 : ℝ) ≤ 2 ^ 96))
  linarith

/-- Every price in range lies between the prices of two ticks in succession. -/
theorem exists_tick {x : Nat} (h0 : MIN_SQRT_RATIO ≤ x) (h1 : x < MAX_SQRT_RATIO) :
    ∃ t : Int, MIN_TICK ≤ t ∧ t < MAX_TICK ∧ sqrtRatio t ≤ x ∧ x < sqrtRatio (t + 1) := by
  let below (t : Int) : Prop := MIN_TICK ≤ t ∧ t ≤ MAX_TICK ∧ sqrtRatio t ≤ x
  have hmin : below MIN_TICK := ⟨le_rfl, by decide, sqrtRatio_min ▸ h0⟩
  obtain ⟨t, ⟨hlo, hhi, hle⟩, hmax⟩ := Int.exists_greatest_of_bdd (P := below) ⟨MAX_TICK, fun _ h => h.2.1⟩ ⟨_, hmin⟩
  have hlt : t < MAX_TICK := by
    refine lt_of_le_of_ne hhi ?_
    rintro rfl
    rw [sqrtRatio_max] at hle
    exact absurd h1 (Nat.not_lt.2 hle)
  refine ⟨t, hlo, hlt, hle, ?_⟩
  by_contra hnext
  have hgreater := hmax (t + 1) ⟨by omega, by omega, Nat.not_lt.1 hnext⟩
  omega

/-! ## The logarithm of a price -/

/-- The fourteen squarings are the binary digits of the mantissa. -/
theorem logBits_eq : ∀ {n r decimals : Nat}, Mantissa 127 r → decimals % 2 ^ (n + 50) = 0 →
    logBits n r decimals = decimals + digits 127 n r * 2 ^ 50
  | 0, _, _, _, _ => by simp [logBits, digits]
  | n + 1, r, decimals, hr, hdecimals => by
    have hsquare : wmul 256 r r = r * r := wmul_of_lt (square_mem hr).2
    have hdigit : r * r / 2 ^ 255 = digit 127 r := rfl
    have hdigit_le := digit_le hr
    have hlt : digit 127 r * 2 ^ (n + 50) < 2 ^ (n + 1 + 50) := by
      calc digit 127 r * 2 ^ (n + 50) ≤ 1 * 2 ^ (n + 50) := Nat.mul_le_mul_right _ hdigit_le
        _ < 2 ^ (n + 1 + 50) := by rw [one_mul]; exact Nat.pow_lt_pow_right (by decide) (by omega)
    have hor : decimals ||| digit 127 r * 2 ^ (n + 50) = decimals + digit 127 r * 2 ^ (n + 50) := by
      rw [← Nat.div_add_mod decimals (2 ^ (n + 1 + 50)), hdecimals, add_zero]
      exact (Nat.two_pow_add_eq_or_of_lt hlt _).symm
    have hmod : (decimals + digit 127 r * 2 ^ (n + 50)) % 2 ^ (n + 50) = 0 := by
      have hdvd : 2 ^ (n + 50) ∣ decimals := (pow_dvd_pow 2 (by omega)).trans (Nat.dvd_of_mod_eq_zero hdecimals)
      exact Nat.mod_eq_zero_of_dvd (hdvd.add (Dvd.intro_left _ rfl))
    unfold logBits digits
    dsimp only
    rw [hsquare, hdigit, hor]
    rw [show r * r / 2 ^ (127 + digit 127 r) = next 127 r from rfl, logBits_eq (mantissa_next hr) hmod, pow_add]
    ring

/-- The first 128 significant figures of the price. -/
theorem mantissa_price {x : Nat} (h0 : MIN_SQRT_RATIO ≤ x) (h1 : x < MAX_SQRT_RATIO) :
    x * 2 ^ 96 % 2 ^ 256 = x * 2 ^ 96 ∧ Mantissa 127 (x * 2 ^ 96 / 2 ^ (x.log2 - 31)) := by
  obtain ⟨hlog0, hlog1⟩ := log2_mem h0 h1
  unfold MIN_SQRT_RATIO MAX_SQRT_RATIO at *
  have hpow : 2 ^ x.log2 = 2 ^ (x.log2 - 31) * 2 ^ 31 := by rw [← pow_add, Nat.sub_add_cancel (by omega)]
  have hself := Nat.log2_self_le (n := x) (by omega)
  have hlt : x < 2 ^ (x.log2 + 1) := Nat.lt_log2_self
  rw [pow_succ] at hlt
  rw [hpow] at hself hlt
  generalize x.log2 - 31 = e at *
  have hpos := Nat.two_pow_pos e
  refine ⟨Nat.mod_eq_of_lt (by omega), ?_, ?_⟩
  · rw [Nat.le_div_iff_mul_le hpos]
    omega
  · rw [Nat.div_lt_iff_lt_mul hpos]
    omega

/-- The whole digits of the logarithm and the fourteen after them, as one number. -/
def logDigits (x : Nat) : Int := ((x.log2 : Int) - 96) * 2 ^ 14 + digits 127 14 (x * 2 ^ 96 / 2 ^ (x.log2 - 31))

theorem logDigits_eq {x : Nat} (h0 : MIN_SQRT_RATIO ≤ x) (h1 : x < MAX_SQRT_RATIO) :
    ((x.log2 : Int) - 96) * 2 ^ 64 + (logBits 14 (x * 2 ^ 96 % 2 ^ 256 / 2 ^ (x.log2 - 31)) 0 : Nat) =
      logDigits x * 2 ^ 50 := by
  obtain ⟨hexact, hmantissa⟩ := mantissa_price h0 h1
  rw [hexact, logBits_eq hmantissa (Nat.zero_mod _)]
  unfold logDigits
  push_cast
  ring

theorem logDigits_mem {x : Nat} (h0 : MIN_SQRT_RATIO ≤ x) (h1 : x < MAX_SQRT_RATIO) :
    -2 ^ 20 ≤ logDigits x ∧ logDigits x ≤ 2 ^ 20 := by
  obtain ⟨hlog0, hlog1⟩ := log2_mem h0 h1
  have hdigits := digits_lt (mantissa_price h0 h1).2 14
  unfold logDigits
  omega

theorem log_price {x : Nat} (h0 : MIN_SQRT_RATIO ≤ x) (h1 : x < MAX_SQRT_RATIO) :
    logDigits x * log 2 ≤ 2 ^ 14 * log (x / 2 ^ 96) ∧
      2 ^ 14 * log (x / 2 ^ 96) ≤ (logDigits x + 1) * log 2 + 1 / 2 ^ 100 := by
  obtain ⟨hlog0, hlog1⟩ := log2_mem h0 h1
  obtain ⟨-, hmantissa⟩ := mantissa_price h0 h1
  obtain ⟨hdown, hup⟩ := digits_log hmantissa 14
  have hfigures : 2 ^ 127 ≤ x * 2 ^ 96 / 2 ^ (x.log2 - 31) := hmantissa.1
  obtain ⟨hfloor, hceil⟩ := log_floor (a := x * 2 ^ 96) (Nat.two_pow_pos (x.log2 - 31)) (by omega)
  have hx : (0 : ℝ) < x := Nat.cast_pos.2 (Nat.lt_of_lt_of_le (by decide) h0)
  have hr : (0 : ℝ) < (x * 2 ^ 96 / 2 ^ (x.log2 - 31) : Nat) := Nat.cast_pos.2 (by omega)
  have hcost : (1 : ℝ) / (x * 2 ^ 96 / 2 ^ (x.log2 - 31) : Nat) ≤ 1 / 2 ^ 127 := by
    apply one_div_le_one_div_of_le (by positivity)
    exact_mod_cast hfigures
  have hexact : log (((x * 2 ^ 96 : Nat) : ℝ) / ((2 ^ (x.log2 - 31) : Nat) : ℝ)) =
      log (x / 2 ^ 96) - (x.log2 - 96) * log 2 + 127 * log 2 := by
    rw [Nat.cast_mul, Nat.cast_pow, Nat.cast_pow, Nat.cast_ofNat]
    rw [log_div (by positivity) (by positivity), log_mul hx.ne' (by positivity), log_div hx.ne' (by positivity),
      log_pow, log_pow, Nat.cast_sub (by omega)]
    push_cast
    ring
  rw [hexact] at hfloor hceil
  unfold logDigits
  rw [log_div hr.ne' (by positivity), log_pow] at hdown hup
  push_cast at *
  constructor <;> linarith

/-- The two error bounds: the tick of a price is between the candidates. -/
theorem candidates_bracket {k t : Int} {y : ℝ} (hk : -2 ^ 20 ≤ k ∧ k ≤ 2 ^ 20) (hdown : k * log 2 ≤ 2 ^ 14 * y)
    (hup : 2 ^ 14 * y ≤ (k + 1) * log 2 + 1 / 2 ^ 100) (ht : t * stepLog - 1 / 2 ^ 58 ≤ y)
    (ht' : y ≤ (t + 1) * stepLog + 1 / 2 ^ 58 + 1 / 2 ^ 32) :
    (k * 2 ^ 50 * 255738958999603826347141 - 3402992956809132418596140100660247210) / 2 ^ 128 ≤ t ∧
      t ≤ (k * 2 ^ 50 * 255738958999603826347141 + 291339464771989622907027621153398088495) / 2 ^ 128 := by
  obtain ⟨hstep, hstep'⟩ := stepLog_bounds
  have hscale := scale_bounds
  have hkabs : |(k : ℝ)| ≤ 2 ^ 20 := by
    rw [abs_le]
    exact_mod_cast hk
  have hcost : |k * (255738958999603826347141 / 2 ^ 78 * stepLog - log 2 / 2 ^ 14)| ≤ 2 ^ 20 * (1 / 10 ^ 13) := by
    rw [abs_mul]
    exact mul_le_mul hkabs hscale.le (abs_nonneg _) (by positivity)
  rw [abs_le] at hcost
  rw [abs_lt] at hscale
  constructor
  · rw [← Int.lt_add_one_iff, Int.ediv_lt_iff_lt_mul (by positivity)]
    have hreal : (k * 2 ^ 50 * 255738958999603826347141 - 3402992956809132418596140100660247210 : ℝ) <
        (t + 1) * 2 ^ 128 := by
      by_contra hle
      have hmul := mul_le_mul_of_nonneg_right (not_lt.1 hle) (by linarith : 0 ≤ stepLog)
      norm_num at *
      linarith
    exact_mod_cast hreal
  · rw [Int.le_ediv_iff_mul_le (by positivity)]
    have hreal : (t * 2 ^ 128 : ℝ) ≤
        k * 2 ^ 50 * 255738958999603826347141 + 291339464771989622907027621153398088495 := by
      by_contra hlt
      have hmul := mul_le_mul_of_nonneg_right (not_le.1 hlt).le (by linarith : 0 ≤ stepLog)
      norm_num at *
      linarith
    exact_mod_cast hreal

/-- The one comparison picks the tick of the price among the candidates. -/
theorem getTickAtSqrtRatio_floor {t : Int} {x : Nat} (ht : MIN_TICK ≤ t ∧ t < MAX_TICK) (hle : sqrtRatio t ≤ x)
    (hlt : x < sqrtRatio (t + 1)) : getTickAtSqrtRatio x = .ok t := by
  have htick : MIN_TICK ≤ t ∧ t ≤ MAX_TICK := ⟨ht.1, ht.2.le⟩
  have hnext : MIN_TICK ≤ t + 1 ∧ t + 1 ≤ MAX_TICK := ⟨by omega, by omega⟩
  have h0 : MIN_SQRT_RATIO ≤ x := (sqrtRatio_mem htick).1.trans hle
  have h1 : x < MAX_SQRT_RATIO := hlt.trans_le (sqrtRatio_mem hnext).2
  have hpos : (0 : ℝ) < sqrtRatio t := Nat.cast_pos.2 (Nat.lt_of_lt_of_le (by decide) (sqrtRatio_mem htick).1)
  have hx : (0 : ℝ) < x := Nat.cast_pos.2 (Nat.lt_of_lt_of_le (by decide) h0)
  have hlog : log (sqrtRatio t / 2 ^ 96) ≤ log (x / 2 ^ 96) := by
    refine log_le_log (by positivity) (div_le_div_of_nonneg_right ?_ (by positivity))
    exact_mod_cast hle
  have hlog' : log (x / 2 ^ 96) ≤ log (sqrtRatio (t + 1) / 2 ^ 96) := by
    refine log_le_log (by positivity) (div_le_div_of_nonneg_right ?_ (by positivity))
    exact_mod_cast hlt.le
  obtain ⟨hdown, hup⟩ := log_price h0 h1
  have hupper := (log_sqrtRatio hnext).2
  push_cast at hupper
  obtain ⟨hlow, hhigh⟩ := candidates_bracket (logDigits_mem h0 h1) hdown hup ((log_sqrtRatio htick).1.trans hlog)
    (hlog'.trans hupper)
  obtain ⟨D, hD, -, -, hlowEq, hhighEq⟩ := tickBounds_eq h0 h1
  rw [hD, logDigits_eq h0 h1] at hlowEq hhighEq
  rw [← hlowEq] at hlow
  rw [← hhighEq] at hhigh
  obtain ⟨-, hhighMem⟩ := tickBounds_mem h0 h1
  rw [getTickAtSqrtRatio_eq h0 h1]
  have hclose : lowI32 (wadd 256 (logSqrt10001 x) 291339464771989622907027621153398088495 / 2 ^ 128) ≤
      lowI32 (wsub 256 (logSqrt10001 x) 3402992956809132418596140100660247210 / 2 ^ 128) + 1 := by
    rw [hlowEq, hhighEq]
    omega
  generalize lowI32 (wsub 256 (logSqrt10001 x) 3402992956809132418596140100660247210 / 2 ^ 128) = low at *
  generalize lowI32 (wadd 256 (logSqrt10001 x) 291339464771989622907027621153398088495 / 2 ^ 128) = high at *
  congr 1
  by_cases heq : low = high
  · rw [if_pos heq]
    omega
  rw [if_neg heq]
  split
  next hgt =>
    -- the upper candidate costs more than the price
    have hne : t ≠ high := by
      rintro rfl
      omega
    omega
  next hgt =>
    have hne : t ≠ low := by
      rintro rfl
      have : high = t + 1 := by omega
      subst this
      omega
    omega

theorem getTickAtSqrtRatio_error {p : Nat} (hp : p < 2 ^ 160) (h : p < MIN_SQRT_RATIO ∨ MAX_SQRT_RATIO ≤ p) :
    getTickAtSqrtRatio p = .error (.error s!"Invalid sqrt price: {p}") := by
  refine if_pos ?_
  unfold MIN_SQRT_RATIO MAX_SQRT_RATIO at h
  unfold wsub MIN_SQRT_RATIO MAX_MINUS_MIN_MINUS_ONE
  omega

theorem getSqrtRatioAtTick_error {t : Int} (ht : t ≠ -2 ^ 23) (h : ¬(MIN_TICK ≤ t ∧ t ≤ MAX_TICK)) :
    getSqrtRatioAtTick t = .error (.error s!"Invalid tick: {t}") := by
  unfold MIN_TICK MAX_TICK at h
  unfold getSqrtRatioAtTick
  dsimp only
  rw [if_neg ht, if_pos (by unfold MAX_TICK; omega)]

/-- What `get_tick_at_sqrt_ratio` returns is the floor tick. -/
theorem getTickAtSqrtRatio_spec {p : Nat} {t : Int} (hp : p < 2 ^ 160) (h : getTickAtSqrtRatio p = .ok t) :
    (MIN_TICK ≤ t ∧ t < MAX_TICK) ∧ sqrtRatio t ≤ p ∧ p < sqrtRatio (t + 1) := by
  by_cases hmem : p < MIN_SQRT_RATIO ∨ MAX_SQRT_RATIO ≤ p
  · cases (getTickAtSqrtRatio_error hp hmem).symm.trans h
  · obtain ⟨u, hu0, hu1, hle, hlt⟩ := exists_tick (x := p) (by omega) (by omega)
    cases (getTickAtSqrtRatio_floor ⟨hu0, hu1⟩ hle hlt).symm.trans h
    exact ⟨⟨hu0, hu1⟩, hle, hlt⟩

/-! ## The two conversions -/

/-- Tick and price conversions are exact inverses, at a tick `t` and a price `p`. -/
structure TicksInverse (t : Int) (p : Nat) : Prop where
  increasing : ∀ s, MIN_TICK ≤ t → t < s → s ≤ MAX_TICK →
    ∃ a b, getSqrtRatioAtTick t = .ok a ∧ getSqrtRatioAtTick s = .ok b ∧ a < b
  outside : ¬(MIN_TICK ≤ t ∧ t ≤ MAX_TICK) → ∃ msg, getSqrtRatioAtTick t = .error (.error msg)
  priced : MIN_SQRT_RATIO ≤ p → p < MAX_SQRT_RATIO →
    ∃ u a b, getTickAtSqrtRatio p = .ok u ∧ getSqrtRatioAtTick u = .ok a ∧ a ≤ p ∧
      getSqrtRatioAtTick (u + 1) = .ok b ∧ p < b
  unpriced : p < MIN_SQRT_RATIO ∨ MAX_SQRT_RATIO ≤ p → ∃ msg, getTickAtSqrtRatio p = .error (.error msg)
  roundTrip : MIN_TICK ≤ t → t ≤ MAX_TICK - 1 → (getSqrtRatioAtTick t >>= getTickAtSqrtRatio) = .ok t

/-- **The conversions are inverse** but for the least 24-bit tick, which `tick.abs()` has no value for. -/
theorem ticks_inverse {t : Int} {p : Nat} (ht : -2 ^ 23 ≤ t ∧ t < 2 ^ 23) (hp : p < 2 ^ 160) :
    TicksInverse t p ↔ t ≠ -2 ^ 23 := by
  constructor
  · rintro ⟨-, houtside, -, -, -⟩ rfl
    obtain ⟨msg, hmsg⟩ := houtside (by decide)
    cases hmsg
  intro hleast
  refine ⟨fun s hmin hlt hmax => ?_, fun h => ⟨_, getSqrtRatioAtTick_error hleast h⟩, fun h0 h1 => ?_,
    fun h => ⟨_, getTickAtSqrtRatio_error hp h⟩, fun hmin hmax => ?_⟩
  · exact ⟨_, _, getSqrtRatioAtTick_eq ⟨hmin, hlt.le.trans hmax⟩, getSqrtRatioAtTick_eq ⟨hmin.trans hlt.le, hmax⟩,
      sqrtRatio_strictMono hmin hlt hmax⟩
  · obtain ⟨u, hu0, hu1, hle, hlt⟩ := exists_tick h0 h1
    exact ⟨u, _, _, getTickAtSqrtRatio_floor ⟨hu0, hu1⟩ hle hlt, getSqrtRatioAtTick_eq ⟨hu0, hu1.le⟩, hle,
      getSqrtRatioAtTick_eq ⟨by omega, by omega⟩, hlt⟩
  · have hlt : t < MAX_TICK := by omega
    have hnext := sqrtRatio_strictMono hmin (Int.lt_succ t) hlt
    rw [getSqrtRatioAtTick_eq ⟨hmin, hlt.le⟩, ok_bind]
    exact getTickAtSqrtRatio_floor ⟨hmin, hlt⟩ le_rfl hnext

theorem ticks_inverse_zero : TicksInverse 0 (2 ^ 96) :=
  (ticks_inverse (by decide) (by decide)).2 (by decide)

/-- The least 24-bit tick is outside, and is no error. -/
theorem ticks_inverse_fails :
    ¬∀ (t : Int) (p : Nat), -2 ^ 23 ≤ t ∧ t < 2 ^ 23 → p < 2 ^ 160 → TicksInverse t p := by
  intro h
  obtain ⟨msg, hmsg⟩ := (h (-2 ^ 23) 0 (by decide) (by decide)).outside (by decide)
  cases hmsg

end EvmDexPool.V3
