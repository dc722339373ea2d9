import EvmDexPool.V2.ConstantProduct

/-!
# Calibrating the fee of a pair (`v2/fetcher.rs`)

The pair is asked to quote two probes of its own reserves, and the curve is solved for the fee. A quote is
floored, so the solution falls short of the fee's complement by a fraction of a millionth; that is under a
half, and lost in the rounding, from `2 * 10^7` of the counter-reserve on (`calibrate_recovers`).
-/

namespace EvmDexPool.V2

open Fixed

def FEE_BASIS : Nat := 1000000
def MAX_SANE_FEE : Nat := 100000

/-- The `solve` of `calibrate_v2_fee` (fetcher.rs:107). -/
def solve (reserve0 reserve1 ain out : Nat) : Except Fault (Option Nat) :=
  if ain = 0 ∨ out = 0 ∨ out ≥ reserve1 then .ok none
  else do
    let denominator := wmul 256 ain (wsub 256 reserve1 out)
    let oneMinusF ← udiv (wadd 256 (wmul 256 (wmul 256 out reserve0) FEE_BASIS) (denominator / 2)) denominator
    .ok (checkedSub FEE_BASIS oneMinusF)

/-- `calibrate_v2_fee` (fetcher.rs:83). `multicall` answers the two probes: with nothing when the request
fails, and for either probe with nothing when its call does. -/
def calibrateV2Fee (multicall : Nat → Nat → Option (Option Nat × Option Nat)) (reserve0 reserve1 : Nat) :
    Except Fault (Option Nat) :=
  if reserve0 = 0 ∨ reserve1 = 0 then .ok none
  else
    let probe0 := reserve0 / 2
    let probe1 := wmul 256 reserve0 4
    match multicall probe0 probe1 with
    | some (some out0, quote1) => do
      match ← solve reserve0 reserve1 probe0 out0, quote1 with
      | some low, some out1 =>
        match ← solve reserve0 reserve1 probe1 out1 with
        | some high => if low ≠ high ∨ low = 0 ∨ low > MAX_SANE_FEE then .ok none else .ok (some low)
        | none => .ok none
      | _, _ => .ok none
    | _ => .ok none

/-! ## Solving a floored quote -/

section Solve
variable {reserve0 reserve1 ain complement : Nat}

/-- What a quote leaves of the counter-reserve, before it is floored. -/
theorem left_le (reserve0 reserve1 ain complement : Nat) :
    reserve0 * FEE_DENOMINATOR * reserve1 ≤
      (reserve1 - exactOutput reserve0 reserve1 (ain * complement)) * (reserve0 * FEE_DENOMINATOR + ain * complement) := by
  have hle := exactOutput_mul_le reserve0 reserve1 (ain * complement)
  generalize exactOutput reserve0 reserve1 (ain * complement) = out at *
  rw [Nat.sub_mul]
  calc reserve0 * FEE_DENOMINATOR * reserve1
      = reserve1 * (reserve0 * FEE_DENOMINATOR + ain * complement) - ain * complement * reserve1 := by
        rw [Nat.mul_add, Nat.mul_comm reserve1 (ain * complement), Nat.add_sub_cancel, Nat.mul_comm reserve1]
    _ ≤ _ := Nat.sub_le_sub_left hle _

/-- The solution is the fee's complement and a fraction, `rest / (ain * left)`, that was floored away. -/
theorem solved_eq (ain complement : Nat) (hpos : 0 < reserve0) (hpos1 : 0 < reserve1) :
    complement * (ain * (reserve1 - exactOutput reserve0 reserve1 (ain * complement))) =
      exactOutput reserve0 reserve1 (ain * complement) * reserve0 * FEE_DENOMINATOR +
        ain * complement * reserve1 % (reserve0 * FEE_DENOMINATOR + ain * complement) := by
  have hdiv := Nat.div_add_mod (ain * complement * reserve1) (reserve0 * FEE_DENOMINATOR + ain * complement)
  have hlt := exactOutput_lt (ain * complement) hpos hpos1
  change _ * exactOutput reserve0 reserve1 (ain * complement) + _ = _ at hdiv
  generalize exactOutput reserve0 reserve1 (ain * complement) = out at *
  generalize ain * complement * reserve1 % (reserve0 * FEE_DENOMINATOR + ain * complement) = rest at *
  obtain ⟨left, rfl⟩ := Nat.exists_eq_add_of_le hlt.le
  rw [Nat.add_sub_cancel_left]
  have hsplit : ain * complement * out + (out * reserve0 * FEE_DENOMINATOR + rest) =
      ain * complement * out + complement * (ain * left) := by
    calc ain * complement * out + (out * reserve0 * FEE_DENOMINATOR + rest)
        = (reserve0 * FEE_DENOMINATOR + ain * complement) * out + rest := by ring
      _ = ain * complement * (out + left) := hdiv
      _ = ain * complement * out + complement * (ain * left) := by ring
  exact (Nat.add_left_cancel hsplit).symm

/-- Where the probe and the reserves are large against the curve's denominator, rounding to the nearest
gives the complement back. -/
theorem rounds_to_complement (complement : Nat) (hain : 0 < ain) (hpos : 0 < reserve0) (hpos1 : 0 < reserve1)
    (hlarge : 2 * (reserve0 * FEE_DENOMINATOR + ain * complement) ^ 2 ≤ ain * (reserve0 * FEE_DENOMINATOR * reserve1)) :
    (exactOutput reserve0 reserve1 (ain * complement) * reserve0 * FEE_DENOMINATOR +
        ain * (reserve1 - exactOutput reserve0 reserve1 (ain * complement)) / 2) /
      (ain * (reserve1 - exactOutput reserve0 reserve1 (ain * complement))) = complement := by
  have hsolved := solved_eq ain complement hpos hpos1
  have hleft := left_le reserve0 reserve1 ain complement
  have hlt := exactOutput_lt (ain * complement) hpos hpos1
  have hden : 0 < reserve0 * FEE_DENOMINATOR + ain * complement :=
    Nat.add_pos_left (Nat.mul_pos hpos (by decide)) _
  have hrest := Nat.mod_lt (ain * complement * reserve1) hden
  generalize exactOutput reserve0 reserve1 (ain * complement) = out at *
  generalize ain * complement * reserve1 % (reserve0 * FEE_DENOMINATOR + ain * complement) = rest at *
  generalize reserve0 * FEE_DENOMINATOR + ain * complement = den at *
  have hpart : 0 < ain * (reserve1 - out) := Nat.mul_pos hain (by omega)
  -- what was floored away is at most half of what is divided by
  have hhalf : 2 * rest ≤ ain * (reserve1 - out) := by
    refine Nat.le_of_mul_le_mul_right ?_ hden
    calc 2 * rest * den ≤ 2 * den * den := Nat.mul_le_mul_right _ (by omega)
      _ = 2 * den ^ 2 := by ring
      _ ≤ ain * (reserve0 * FEE_DENOMINATOR * reserve1) := hlarge
      _ ≤ ain * ((reserve1 - out) * den) := Nat.mul_le_mul_left _ hleft
      _ = ain * (reserve1 - out) * den := (Nat.mul_assoc _ _ _).symm
  refine Nat.div_eq_of_lt_le ?_ ?_
  · rw [hsolved]
    omega
  · rw [Nat.add_mul, hsolved]
    omega

/-- A probe between a third and several times its reserve is large enough, the counter-reserve being
twenty fee bases. -/
theorem large_enough (hprobe : (reserve0 + ain) ^ 2 ≤ 10 * (ain * reserve0)) (hc : complement ≤ FEE_DENOMINATOR)
    (h1 : 20 * FEE_DENOMINATOR ≤ reserve1) :
    2 * (reserve0 * FEE_DENOMINATOR + ain * complement) ^ 2 ≤ ain * (reserve0 * FEE_DENOMINATOR * reserve1) := by
  have hden : reserve0 * FEE_DENOMINATOR + ain * complement ≤ (reserve0 + ain) * FEE_DENOMINATOR := by
    rw [Nat.add_mul]
    exact Nat.add_le_add_left (Nat.mul_le_mul_left _ hc) _
  calc 2 * (reserve0 * FEE_DENOMINATOR + ain * complement) ^ 2
      ≤ 2 * ((reserve0 + ain) * FEE_DENOMINATOR) ^ 2 := Nat.mul_le_mul_left _ (Nat.pow_le_pow_left hden 2)
    _ = 2 * FEE_DENOMINATOR ^ 2 * (reserve0 + ain) ^ 2 := by ring
    _ ≤ 2 * FEE_DENOMINATOR ^ 2 * (10 * (ain * reserve0)) := Nat.mul_le_mul_left _ hprobe
    _ = ain * (reserve0 * FEE_DENOMINATOR * (20 * FEE_DENOMINATOR)) := by ring
    _ ≤ ain * (reserve0 * FEE_DENOMINATOR * reserve1) := Nat.mul_le_mul_left _ (Nat.mul_le_mul_left _ h1)

end Solve

/-! ## The calibration -/

/-- What `solve` computes with fits its words. -/
structure SolveFits (reserve0 reserve1 ain out : Nat) : Prop where
  left : out < reserve1
  denominator : ain * (reserve1 - out) < 2 ^ 256
  numerator : out * reserve0 * FEE_BASIS + ain * (reserve1 - out) / 2 < 2 ^ 256

/-- The pair's own `getAmountOut`. -/
def pairQuote (reserve0 reserve1 fee ain : Nat) : Nat := exactOutput reserve0 reserve1 (ain * (FEE_DENOMINATOR - fee))

section Pair
variable {reserve0 reserve1 ain : Nat} (hpos : 0 < reserve0) (h0 : reserve0 < 2 ^ 112)
  (h1 : 20 * FEE_DENOMINATOR ≤ reserve1) (h1' : reserve1 < 2 ^ 112)
include hpos h0 h1 h1'

theorem solve_fits (fee : Nat) (hain : ain < 2 ^ 114) : SolveFits reserve0 reserve1 ain (pairQuote reserve0 reserve1 fee ain) := by
  have hlt : pairQuote reserve0 reserve1 fee ain < reserve1 := exactOutput_lt _ hpos (by unfold FEE_DENOMINATOR at h1; omega)
  generalize pairQuote reserve0 reserve1 fee ain = out at *
  have hden : ain * (reserve1 - out) ≤ 2 ^ 114 * 2 ^ 112 := Nat.mul_le_mul hain.le (by omega)
  have hnum : out * reserve0 ≤ 2 ^ 112 * 2 ^ 112 := Nat.mul_le_mul (by omega) h0.le
  exact ⟨hlt, by omega, by unfold FEE_BASIS; omega⟩

/-- A probe that the curve can tell the fee from solves back to it. -/
theorem solve_pairQuote (fee : Nat) (hpositive : 0 < ain) (hain : ain < 2 ^ 114) (hprobe : (reserve0 + ain) ^ 2 ≤ 10 * (ain * reserve0))
    (hfee : fee < FEE_DENOMINATOR) :
    solve reserve0 reserve1 ain (pairQuote reserve0 reserve1 fee ain) = .ok (some fee) := by
  have hfits := solve_fits hpos h0 h1 h1' fee hain
  have hrounds := rounds_to_complement (FEE_DENOMINATOR - fee) hpositive hpos
    (by unfold FEE_DENOMINATOR at h1; omega) (large_enough hprobe (Nat.sub_le _ _) h1)
  change (pairQuote reserve0 reserve1 fee ain * reserve0 * FEE_BASIS +
    ain * (reserve1 - pairQuote reserve0 reserve1 fee ain) / 2) /
      (ain * (reserve1 - pairQuote reserve0 reserve1 fee ain)) = _ at hrounds
  generalize pairQuote reserve0 reserve1 fee ain = out at *
  obtain ⟨hlt, hden, hnum⟩ := hfits
  have hdenpos : 0 < ain * (reserve1 - out) := Nat.mul_pos hpositive (by omega)
  have hout : out ≠ 0 := by
    rintro rfl
    rw [Nat.zero_mul, Nat.zero_mul, Nat.zero_add, Nat.div_eq_of_lt (by omega)] at hrounds
    omega
  have hscaled : out * reserve0 * FEE_BASIS < 2 ^ 256 := lt_of_le_of_lt (Nat.le_add_right _ _) hnum
  have hprod : out * reserve0 < 2 ^ 256 :=
    lt_of_le_of_lt (Nat.le_mul_of_pos_right _ (by decide : 0 < FEE_BASIS)) hscaled
  unfold solve
  rw [if_neg (by omega)]
  dsimp only
  rw [wsub_of_le hlt.le (by omega), wmul_of_lt hden, wmul_of_lt hprod, wmul_of_lt hscaled, wadd_of_lt hnum,
    udiv_of_pos hdenpos, ok_bind, hrounds, checkedSub, if_pos (show FEE_DENOMINATOR - fee ≤ FEE_BASIS from Nat.sub_le _ _)]
  exact congrArg (fun n => Except.ok (some n)) (Nat.sub_sub_self hfee.le)

end Pair

section Probes
variable {reserve0 reserve1 fee : Nat} (h0 : 2 ≤ reserve0) (h0' : reserve0 < 2 ^ 112) (h1 : 20 * FEE_DENOMINATOR ≤ reserve1)
  (h1' : reserve1 < 2 ^ 112)
include h0 h0' h1 h1'

/-- Half the reserve and four times it are probes that the curve can tell the fee from. -/
theorem solve_probe (hfee : fee < FEE_DENOMINATOR) {ain : Nat} (hain : ain = reserve0 / 2 ∨ ain = reserve0 * 4) :
    solve reserve0 reserve1 ain (pairQuote reserve0 reserve1 fee ain) = .ok (some fee) ∧
      SolveFits reserve0 reserve1 ain (pairQuote reserve0 reserve1 fee ain) := by
  have hprobe : (reserve0 + ain) ^ 2 ≤ 10 * (ain * reserve0) := by
    rcases hain with rfl | rfl
    · have hle : reserve0 + reserve0 / 2 ≤ 4 * (reserve0 / 2) := by omega
      have hle' : reserve0 + reserve0 / 2 ≤ 2 * reserve0 := by omega
      calc (reserve0 + reserve0 / 2) ^ 2 = (reserve0 + reserve0 / 2) * (reserve0 + reserve0 / 2) := sq _
        _ ≤ 4 * (reserve0 / 2) * (2 * reserve0) := Nat.mul_le_mul hle hle'
        _ = 8 * (reserve0 / 2 * reserve0) := by ring
        _ ≤ 10 * (reserve0 / 2 * reserve0) := Nat.mul_le_mul_right _ (by decide)
    · calc (reserve0 + reserve0 * 4) ^ 2 = 25 * (reserve0 * reserve0) := by ring
        _ ≤ 40 * (reserve0 * reserve0) := Nat.mul_le_mul_right _ (by decide)
        _ = 10 * (reserve0 * 4 * reserve0) := by ring
  exact ⟨solve_pairQuote (by omega) h0' h1 h1' fee (by omega) (by omega) hprobe hfee,
    solve_fits (by omega) h0' h1 h1' fee (by omega)⟩

/-- A pair that quotes its own curve is calibrated to its fee. -/
theorem calibrateV2Fee_quotes {quotes : Nat → Nat → Option (Option Nat × Option Nat)} (hfee : 1 ≤ fee) (hfee' : fee ≤ MAX_SANE_FEE)
    (hquotes : ∀ a b, quotes a b = some (some (pairQuote reserve0 reserve1 fee a), some (pairQuote reserve0 reserve1 fee b))) :
    calibrateV2Fee quotes reserve0 reserve1 = .ok (some fee) := by
  have hlt : fee < FEE_DENOMINATOR := lt_of_le_of_lt hfee' (by decide)
  have hpos : 0 < reserve1 := lt_of_lt_of_le (by decide) h1
  unfold calibrateV2Fee
  rw [if_neg (by omega)]
  dsimp only
  rw [wmul_of_lt (by omega), hquotes]
  dsimp only
  rw [(solve_probe h0 h0' h1 h1' hlt (.inl rfl)).1, ok_bind]
  dsimp only
  rw [(solve_probe h0 h0' h1 h1' hlt (.inr rfl)).1, ok_bind]
  dsimp only
  rw [if_neg (by omega)]

end Probes

/-- **The calibration recovers the fee** of a pair that quotes its own curve: both probes solve back to
it, nothing wrapping. -/
theorem calibrate_recovers (reserve0 reserve1 fee : Nat) (h0 : 2 ≤ reserve0) (h0' : reserve0 < 2 ^ 112)
    (h1 : 2 * 10 ^ 7 ≤ reserve1) (h1' : reserve1 < 2 ^ 112) (hfee : 1 ≤ fee) (hfee' : fee ≤ 100000) :
    calibrateV2Fee
        (fun a b => some (some (pairQuote reserve0 reserve1 fee a), some (pairQuote reserve0 reserve1 fee b)))
        reserve0 reserve1 = .ok (some fee) ∧
      reserve0 * 4 < 2 ^ 256 ∧
      ∀ ain, ain = reserve0 / 2 ∨ ain = reserve0 * 4 →
        solve reserve0 reserve1 ain (pairQuote reserve0 reserve1 fee ain) = .ok (some fee) ∧
          SolveFits reserve0 reserve1 ain (pairQuote reserve0 reserve1 fee ain) :=
  ⟨calibrateV2Fee_quotes h0 h0' h1 h1' hfee hfee' fun _ _ => rfl, by omega,
    fun _ hain => solve_probe h0 h0' h1 h1' (lt_of_le_of_lt hfee' (by decide)) hain⟩

/-- The smallest reserves that are covered. -/
theorem calibrate_recovers_smallest :
    calibrateV2Fee (fun a b => some (some (pairQuote 2 20000000 3000 a), some (pairQuote 2 20000000 3000 b))) 2 20000000 =
      .ok (some 3000) :=
  (calibrate_recovers 2 20000000 3000 (by decide) (by decide) (by decide) (by decide) (by decide) (by decide)).1

end EvmDexPool.V2
