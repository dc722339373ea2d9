import EvmDexPool.Lib.Ranges
import EvmDexPool.Log
import Mathlib.Tactic.Linarith

/-!
# The tick map (`v3/tick.rs`)

Ticks are `i32`; for 24-bit ticks and spacings no product in the word search leaves `i32`
(`wordEdges_fit`), so they are plain integers here.
-/

namespace EvmDexPool.V3

open Std

structure Tick where
  index : Int
  liquidityNet : Int
  liquidityGross : Nat
deriving DecidableEq, Repr

abbrev TickMap := ExtTreeMap Int Tick

/-- Where a swap step may end, besides the target price. -/
inductive TickSearch
  | wordBounded (tickSpacing : Int)
  | nextInitialized
deriving DecidableEq, Repr

/-- `(x >> 8) << 8`. -/
def wordStart (x : Int) : Int := x / 256 * 256

/-- `get_tick` (tick.rs:71). -/
def getTick (m : TickMap) (tick : Int) : Except Fault Tick :=
  match m[tick]? with
  | some t => .ok t
  | none => .error (.error "Tick not found")

/-- `next_initialized_tick` (tick.rs:76): where the next swap step ends, and whether that tick is
initialized. -/
def nextInitializedTick (m : TickMap) (tick : Int) (lte : Bool) : TickSearch → Except Fault (Int × Bool)
  | .nextInitialized =>
    if lte then
      match (Ranges.range m fun k => k ≤ tick).getLast? with
      | some (t, _) => .ok (t, true)
      | none => .ok (tick, false)
    else
      match (Ranges.range m fun k => tick + 1 ≤ k).head? with
      | some (t, _) => .ok (t, true)
      | none => .ok (tick, false)
  | .wordBounded tickSpacing =>
    if tickSpacing ≤ 0 then .error (.error s!"tick_spacing must be positive, got {tickSpacing}")
    else
      let compressed := tick / tickSpacing
      if lte then
        let lo := wordStart compressed * tickSpacing
        let hi := compressed * tickSpacing
        match (Ranges.range m fun k => lo ≤ k ∧ k ≤ hi).getLast? with
        | some (t, _) => .ok (t, true)
        | none => .ok (lo, false)
      else
        let next := compressed + 1
        let lo := next * tickSpacing
        let hi := (wordStart next + 255) * tickSpacing
        match (Ranges.range m fun k => lo ≤ k ∧ k ≤ hi).head? with
        | some (t, _) => .ok (t, true)
        | none => .ok (hi, false)

theorem nextInitializedTick_returns (m : TickMap) (tick : Int) (lte : Bool) (search : TickSearch) :
    Returns (nextInitializedTick m tick lte search) := by
  unfold nextInitializedTick
  cases search with
  | nextInitialized => dsimp only; split <;> split <;> exact returns_ok _
  | wordBounded tickSpacing =>
    dsimp only
    split
    · exact returns_msg _
    · split <;> split <;> exact returns_ok _

/-- With a spacing of at least one every search finds a tick or an edge. -/
theorem nextInitializedTick_finds (m : TickMap) (tick : Int) (lte : Bool) {search : TickSearch}
    (h : ∀ tickSpacing, search = .wordBounded tickSpacing → 0 < tickSpacing) :
    ∃ t initialized, nextInitializedTick m tick lte search = .ok (t, initialized) := by
  unfold nextInitializedTick
  cases search with
  | nextInitialized => dsimp only; split <;> split <;> exact ⟨_, _, rfl⟩
  | wordBounded tickSpacing =>
    have hpos := h _ rfl
    dsimp only
    rw [if_neg (by omega)]
    split <;> split <;> exact ⟨_, _, rfl⟩

theorem wordStart_le (x : Int) : wordStart x ≤ x ∧ x < wordStart x + 256 := by
  unfold wordStart; omega

/-- Both edges of a word search are `i32`, for a 24-bit tick and a spacing below `2^23`. -/
theorem wordEdges_fit {tick tickSpacing : Int} (ht : -2 ^ 23 ≤ tick ∧ tick < 2 ^ 23)
    (hs : 0 < tickSpacing ∧ tickSpacing < 2 ^ 23) :
    -2 ^ 31 ≤ wordStart (tick / tickSpacing) * tickSpacing ∧
      (wordStart (tick / tickSpacing + 1) + 255) * tickSpacing < 2 ^ 31 := by
  obtain ⟨hs0, hs1⟩ := hs
  have hlo := Int.ediv_mul_le tick (ne_of_gt hs0)
  have hhi := Int.lt_ediv_add_one_mul_self tick hs0
  generalize tick / tickSpacing = c at *
  obtain ⟨h1, h2⟩ := wordStart_le c
  obtain ⟨h3, h4⟩ := wordStart_le (c + 1)
  constructor
  · by_cases hc : -256 ≤ c
    · -- at worst the word below zero
      have hw : -256 ≤ wordStart c := by unfold wordStart; omega
      have : -256 * tickSpacing ≤ wordStart c * tickSpacing := Int.mul_le_mul_of_nonneg_right hw hs0.le
      omega
    · have hl : (c - 255) * tickSpacing ≤ wordStart c * tickSpacing :=
        Int.mul_le_mul_of_nonneg_right (by omega) hs0.le
      nlinarith
  · by_cases hc : c + 1 ≤ 255
    · have hw : wordStart (c + 1) + 255 ≤ 255 := by unfold wordStart; omega
      have : (wordStart (c + 1) + 255) * tickSpacing ≤ 255 * tickSpacing := Int.mul_le_mul_of_nonneg_right hw hs0.le
      omega
    · have hu : (wordStart (c + 1) + 255) * tickSpacing ≤ (c + 256) * tickSpacing :=
        Int.mul_le_mul_of_nonneg_right (by omega) hs0.le
      nlinarith

/-! ## What a search finds -/

/-- The keys a word search counts in units of its spacing are multiples of it. -/
def TickSearch.Aligned (m : TickMap) : TickSearch → Prop
  | .wordBounded tickSpacing => ∀ k v, m[k]? = some v → tickSpacing ∣ k
  | .nextInitialized => True

/-- The last key of a range, or a fallback below every key there. -/
theorem lastOr_spec {m : TickMap} {p : Int → Bool} {fallback t : Int} {initialized : Bool}
    (h : (match (Ranges.range m p).getLast? with
      | some (t, _) => Except.ok (t, true)
      | none => Except.ok (fallback, false) : Except Fault (Int × Bool)) = .ok (t, initialized)) :
    (initialized = true ∧ p t = true ∧ (∃ v, m[t]? = some v) ∧ ∀ k v, m[k]? = some v → p k = true → k ≤ t) ∨
      (initialized = false ∧ t = fallback ∧ ∀ k v, m[k]? = some v → p k = false) := by
  split at h
  · rename_i k v hlast
    cases h
    obtain ⟨hm, hp, hmax⟩ := Ranges.range_getLast hlast
    exact .inl ⟨rfl, hp, ⟨v, hm⟩, hmax⟩
  · rename_i hnone
    cases h
    exact .inr ⟨rfl, rfl, fun k v hk => Ranges.range_empty (List.getLast?_eq_none_iff.1 hnone) hk⟩

/-- The first key of a range, or a fallback above every key there. -/
theorem headOr_spec {m : TickMap} {p : Int → Bool} {fallback t : Int} {initialized : Bool}
    (h : (match (Ranges.range m p).head? with
      | some (t, _) => Except.ok (t, true)
      | none => Except.ok (fallback, false) : Except Fault (Int × Bool)) = .ok (t, initialized)) :
    (initialized = true ∧ p t = true ∧ (∃ v, m[t]? = some v) ∧ ∀ k v, m[k]? = some v → p k = true → t ≤ k) ∨
      (initialized = false ∧ t = fallback ∧ ∀ k v, m[k]? = some v → p k = false) := by
  split at h
  · rename_i k v hhead
    cases h
    obtain ⟨hm, hp, hmin⟩ := Ranges.range_head hhead
    exact .inl ⟨rfl, hp, ⟨v, hm⟩, hmin⟩
  · rename_i hnone
    cases h
    exact .inr ⟨rfl, rfl, fun k v hk => Ranges.range_empty (List.head?_eq_none_iff.1 hnone) hk⟩

variable {m : TickMap} {tick t : Int} {initialized : Bool} {search : TickSearch}

/-- A search down ends at or below its tick, and passes no key. -/
theorem nextInitializedTick_down (h : nextInitializedTick m tick true search = .ok (t, initialized)) :
    t ≤ tick ∧ (initialized = true ↔ ∃ v, m[t]? = some v) ∧
      (search.Aligned m → ∀ k v, m[k]? = some v → k ≤ tick → k ≤ t) := by
  unfold nextInitializedTick at h
  cases search with
  | nextInitialized =>
    simp only [if_true] at h
    rcases lastOr_spec h with ⟨rfl, hp, hm, hmax⟩ | ⟨rfl, rfl, hnone⟩
    · exact ⟨of_decide_eq_true hp, by simpa using hm, fun _ k v hk hle => hmax k v hk (decide_eq_true hle)⟩
    · refine ⟨le_rfl, ⟨nofun, fun ⟨v, hv⟩ => ?_⟩, fun _ k v hk hle => hle⟩
      have := of_decide_eq_false (hnone t v hv)
      omega
  | wordBounded tickSpacing =>
    simp only [if_true] at h
    split at h
    · cases h
    rename_i hpos
    have hdiv := Int.ediv_mul_le tick (b := tickSpacing) (by omega)
    have hword : wordStart (tick / tickSpacing) * tickSpacing ≤ tick / tickSpacing * tickSpacing :=
      Int.mul_le_mul_of_nonneg_right (wordStart_le _).1 (by omega)
    have halign : ∀ k, tickSpacing ∣ k → k ≤ tick → k ≤ tick / tickSpacing * tickSpacing := by
      rintro k ⟨j, rfl⟩ hle
      rw [Int.mul_comm]
      exact Int.mul_le_mul_of_nonneg_right ((Int.le_ediv_iff_mul_le (by omega)).2 (by rwa [Int.mul_comm])) (by omega)
    rcases lastOr_spec h with ⟨rfl, hp, hm, hmax⟩ | ⟨rfl, rfl, hnone⟩
    · have hp := of_decide_eq_true hp
      refine ⟨by omega, by simpa using hm, fun ha k v hk hle => ?_⟩
      have hhi := halign k (ha k v hk) hle
      by_cases hlo : wordStart (tick / tickSpacing) * tickSpacing ≤ k
      · exact hmax k v hk (decide_eq_true ⟨hlo, hhi⟩)
      · omega
    · refine ⟨by omega, ⟨nofun, fun ⟨v, hv⟩ => ?_⟩, fun ha k v hk hle => ?_⟩
      · have := of_decide_eq_false (hnone _ v hv)
        omega
      · have hhi := halign k (ha k v hk) hle
        have := of_decide_eq_false (hnone k v hk)
        omega

/-- A search up ends above its tick, or at it when nothing above is initialized; it passes no key. -/
theorem nextInitializedTick_up (h : nextInitializedTick m tick false search = .ok (t, initialized)) :
    (tick < t ∧ (initialized = true ↔ ∃ v, m[t]? = some v) ∧ (search = .nextInitialized → initialized = true) ∨
      t = tick ∧ initialized = false ∧ search = .nextInitialized ∧ ∀ k v, m[k]? = some v → k ≤ tick) ∧
      (search.Aligned m → ∀ k v, m[k]? = some v → tick < k → t ≤ k) := by
  unfold nextInitializedTick at h
  cases search with
  | nextInitialized =>
    simp only [Bool.false_eq_true, if_false] at h
    rcases headOr_spec h with ⟨rfl, hp, hm, hmin⟩ | ⟨rfl, rfl, hnone⟩
    · have hp := of_decide_eq_true hp
      exact ⟨.inl ⟨by omega, by simpa using hm, fun _ => rfl⟩, fun _ k v hk hlt => hmin k v hk (decide_eq_true (by omega))⟩
    · have hbelow : ∀ k v, m[k]? = some v → k ≤ t := fun k v hk => by
        have := of_decide_eq_false (hnone k v hk)
        omega
      exact ⟨.inr ⟨rfl, rfl, rfl, hbelow⟩, fun _ k v hk hlt => hlt.le⟩
  | wordBounded tickSpacing =>
    simp only [Bool.false_eq_true, if_false] at h
    split at h
    · cases h
    rename_i hpos
    have hdiv : tick < (tick / tickSpacing + 1) * tickSpacing := Int.lt_ediv_add_one_mul_self tick (by omega)
    have hword : (tick / tickSpacing + 1) * tickSpacing ≤ (wordStart (tick / tickSpacing + 1) + 255) * tickSpacing :=
      Int.mul_le_mul_of_nonneg_right (by have := wordStart_le (tick / tickSpacing + 1); omega) (by omega)
    have halign : ∀ k, tickSpacing ∣ k → tick < k → (tick / tickSpacing + 1) * tickSpacing ≤ k := by
      rintro k ⟨j, rfl⟩ hlt
      rw [Int.mul_comm tickSpacing j]
      refine Int.mul_le_mul_of_nonneg_right ?_ (by omega)
      exact Int.add_one_le_of_lt ((Int.ediv_lt_iff_lt_mul (by omega)).2 (by rwa [Int.mul_comm]))
    rcases headOr_spec h with ⟨rfl, hp, hm, hmin⟩ | ⟨rfl, rfl, hnone⟩
    · have hp := of_decide_eq_true hp
      refine ⟨.inl ⟨by omega, by simpa using hm, nofun⟩, fun ha k v hk hlt => ?_⟩
      have hlo := halign k (ha k v hk) hlt
      by_cases hhi : k ≤ (wordStart (tick / tickSpacing + 1) + 255) * tickSpacing
      · exact hmin k v hk (decide_eq_true ⟨hlo, hhi⟩)
      · omega
    · refine ⟨.inl ⟨by omega, ⟨nofun, fun ⟨v, hv⟩ => ?_⟩, nofun⟩, fun ha k v hk hlt => ?_⟩
      · have := of_decide_eq_false (hnone _ v hv)
        omega
      · have hlo := halign k (ha k v hk) hlt
        have := of_decide_eq_false (hnone k v hk)
        omega

end EvmDexPool.V3
