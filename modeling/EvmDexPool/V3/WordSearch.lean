import EvmDexPool.V3.Tick
import EvmDexPool.V3.TickMath

/-!
# Searching word by word (`v3/tick.rs`)

The word-bounded search reads one bitmap word, as the pool contract does, and stops at the word's edge; the
direct search goes to the next initialized tick at once. Restarted at the edges, the one finds what the
other does (`searchWords_direct`).
-/

namespace EvmDexPool.V3

/-- Where a search that ended at an edge goes on: from the edge going up, from below it going down. -/
def restart (lte : Bool) (edge : Int) : Int := if lte then edge - 1 else edge

/-- Word after word, until an initialized tick comes or the ticks there are have been passed. -/
def searchWords (m : TickMap) (tickSpacing : Int) (lte : Bool) : Nat → Int → Except Fault (Option Int)
  | 0, _ => .error .diverges
  | fuel + 1, tick => do
    let (t, initialized) ← nextInitializedTick m tick lte (.wordBounded tickSpacing)
    if initialized then .ok (some t)
    else if restart lte t < MIN_TICK ∨ MAX_TICK < restart lte t then .ok none
    else searchWords m tickSpacing lte fuel (restart lte t)

/-- The tick the direct search reports, when there is one. -/
def directTick (m : TickMap) (tick : Int) (lte : Bool) : Option Int :=
  match nextInitializedTick m tick lte .nextInitialized with
  | .ok (t, true) => some t
  | _ => none

/-- The tick is one a search from `tick` looks for: going down the start counts, going up it does not. -/
def Ahead (lte : Bool) (tick k : Int) : Prop := if lte then k ≤ tick else tick < k

/-- The keys are ticks a pool of the spacing can have. -/
def Placed (m : TickMap) (tickSpacing : Int) : Prop :=
  ∀ k v, m[k]? = some v → tickSpacing ∣ k ∧ MIN_TICK ≤ k ∧ k ≤ MAX_TICK

/-- What a step of the search does: it says whether its tick is initialized, the search goes on strictly
further, and an initialized tick it leaves behind is the one it reports. -/
structure StepsOn (m : TickMap) (lte : Bool) (tick t : Int) (initialized : Bool) : Prop where
  key : initialized = true ↔ ∃ v, m[t]? = some v
  ahead : Ahead lte tick t
  progress : if lte then restart lte t < tick else tick < restart lte t
  passes : ∀ k v, m[k]? = some v → Ahead lte tick k → k ≠ t → Ahead lte (restart lte t) k

/-- The products of a word search from a tick are `i32`. -/
def EdgesFit (tickSpacing tick : Int) : Prop :=
  ∀ n ∈ [wordStart (tick / tickSpacing), tick / tickSpacing, tick / tickSpacing + 1,
    wordStart (tick / tickSpacing + 1) + 255], -2 ^ 31 ≤ n * tickSpacing ∧ n * tickSpacing < 2 ^ 31

/-! ## The direct search -/

section Direct
variable {m : TickMap} {tick t : Int}

/-- The last key up to the tick. -/
theorem directTick_down (htick : (∃ v, m[t]? = some v) ∧ t ≤ tick) (hmax : ∀ k v, m[k]? = some v → k ≤ tick → k ≤ t) :
    directTick m tick true = some t := by
  unfold directTick
  cases h : nextInitializedTick m tick true .nextInitialized with
  | error e =>
    unfold nextInitializedTick at h
    simp only [if_true] at h
    split at h <;> cases h
  | ok r =>
    obtain ⟨t', initialized⟩ := r
    obtain ⟨⟨v, hv⟩, hle⟩ := htick
    obtain ⟨hle', hkey, hpass⟩ := nextInitializedTick_down h
    have hge : t ≤ t' := hpass trivial t v hv hle
    cases initialized with
    | true =>
      obtain ⟨v', hv'⟩ := hkey.1 rfl
      exact congrArg some (Int.le_antisymm (hmax t' v' hv' hle') hge)
    | false =>
      -- without a key up to it the search reports its own tick
      unfold nextInitializedTick at h
      simp only [if_true] at h
      rcases lastOr_spec h with ⟨hinit, -⟩ | ⟨-, -, hnone⟩
      · cases hinit
      · exact absurd hle (of_decide_eq_false (hnone t v hv))

theorem directTick_down_none (hnone : ∀ k v, m[k]? = some v → ¬k ≤ tick) : directTick m tick true = none := by
  unfold directTick
  split
  · next t h =>
    obtain ⟨hle, hkey, -⟩ := nextInitializedTick_down h
    obtain ⟨v, hv⟩ := hkey.1 rfl
    exact absurd hle (hnone t v hv)
  · rfl

/-- The first key above the tick. -/
theorem directTick_up (htick : (∃ v, m[t]? = some v) ∧ tick < t) (hmin : ∀ k v, m[k]? = some v → tick < k → t ≤ k) :
    directTick m tick false = some t := by
  unfold directTick
  cases h : nextInitializedTick m tick false .nextInitialized with
  | error e =>
    unfold nextInitializedTick at h
    simp only [Bool.false_eq_true, if_false] at h
    split at h <;> cases h
  | ok r =>
    obtain ⟨t', initialized⟩ := r
    obtain ⟨⟨v, hv⟩, hlt⟩ := htick
    obtain ⟨hfound, hpass⟩ := nextInitializedTick_up h
    rcases hfound with ⟨hlt', hkey, hinit⟩ | ⟨-, -, -, hbelow⟩
    · cases hinit rfl
      obtain ⟨v', hv'⟩ := hkey.1 rfl
      exact congrArg some (Int.le_antisymm (hpass trivial t v hv hlt) (hmin t' v' hv' hlt'))
    · exact absurd (hbelow t v hv) (Int.not_le.2 hlt)

theorem directTick_up_none (hnone : ∀ k v, m[k]? = some v → ¬tick < k) : directTick m tick false = none := by
  unfold directTick
  split
  · next t h =>
    rcases (nextInitializedTick_up h).1 with ⟨hlt, hkey, -⟩ | ⟨-, hinit, -⟩
    · obtain ⟨v, hv⟩ := hkey.1 rfl
      exact absurd hlt (hnone t v hv)
    · cases hinit
  · rfl

/-- What there is to find from a tick: the key ahead that no other comes before, or nothing. -/
def Finds (m : TickMap) (lte : Bool) (tick : Int) : Option Int → Prop
  | some t => (∃ v, m[t]? = some v) ∧ Ahead lte tick t ∧
      ∀ k v, m[k]? = some v → Ahead lte tick k → k ≠ t → Ahead lte (restart lte t) k
  | none => ∀ k v, m[k]? = some v → ¬Ahead lte tick k

/-- The direct search finds it. -/
theorem Finds.direct {lte : Bool} {r : Option Int} (h : Finds m lte tick r) : directTick m tick lte = r := by
  cases r with
  | none =>
    cases lte with
    | true => exact directTick_down_none h
    | false => exact directTick_up_none h
  | some t =>
    obtain ⟨hkey, hahead, hfirst⟩ := h
    unfold Ahead restart at *
    cases lte with
    | true =>
      refine directTick_down ⟨hkey, hahead⟩ fun k v hk hle => ?_
      by_contra hlt
      have := hfirst k v hk hle (by omega)
      simp only [if_true] at this
      omega
    | false =>
      refine directTick_up ⟨hkey, hahead⟩ fun k v hk hlt => ?_
      by_contra hle
      have := hfirst k v hk hlt (by omega)
      simp only [Bool.false_eq_true, if_false] at this
      omega

end Direct

/-! ## One step -/

section Step
variable {m : TickMap} {tickSpacing tick t : Int} {lte initialized : Bool}

theorem wordBounded_pos (hs : 1 ≤ tickSpacing) : ∀ spacing, TickSearch.wordBounded tickSpacing = .wordBounded spacing → 0 < spacing := by
  rintro _ ⟨⟩
  omega

theorem stepsOn (hp : Placed m tickSpacing)
    (h : nextInitializedTick m tick lte (.wordBounded tickSpacing) = .ok (t, initialized)) :
    StepsOn m lte tick t initialized := by
  have haligned : (TickSearch.wordBounded tickSpacing).Aligned m := fun k v hk => (hp k v hk).1
  cases lte with
  | true =>
    obtain ⟨hle, hkey, hpass⟩ := nextInitializedTick_down h
    refine ⟨hkey, hle, ?_, fun k v hk hahead hne => ?_⟩
    · simp only [restart, if_true]
      omega
    · have := hpass haligned k v hk hahead
      simp only [Ahead, restart, if_true]
      omega
  | false =>
    obtain ⟨hfound, hpass⟩ := nextInitializedTick_up h
    obtain ⟨hlt, hkey, -⟩ := hfound.resolve_right fun hnone => nomatch hnone.2.2.1
    refine ⟨hkey, hlt, ?_, fun k v hk hahead hne => ?_⟩
    · simp only [restart, Bool.false_eq_true, if_false]
      omega
    · have := hpass haligned k v hk hahead
      simp only [Ahead, restart, Bool.false_eq_true, if_false]
      omega

/-- What is found from an edge that is not initialized is found from before it. -/
theorem StepsOn.finds (h : StepsOn m lte tick t false) {r : Option Int} (hr : Finds m lte (restart lte t) r) :
    Finds m lte tick r := by
  have hkeys : ∀ k v, m[k]? = some v → Ahead lte tick k → Ahead lte (restart lte t) k := fun k v hk hahead =>
    h.passes k v hk hahead fun hkt => Bool.false_ne_true (h.key.2 ⟨v, hkt ▸ hk⟩)
  cases r with
  | none => exact fun k v hk hahead => hr k v hk (hkeys k v hk hahead)
  | some k' =>
    obtain ⟨hkey, hahead, hfirst⟩ := hr
    refine ⟨hkey, ?_, fun k v hk ha hne => hfirst k v hk (hkeys k v hk ha) hne⟩
    have hprogress := h.progress
    unfold Ahead at *
    cases lte with
    | true =>
      simp only [if_true] at *
      omega
    | false =>
      simp only [Bool.false_eq_true, if_false] at *
      omega

end Step

/-! ## The whole search -/

/-- The ticks that are left to look at. -/
def left (lte : Bool) (tick : Int) : Int := if lte then tick - MIN_TICK else MAX_TICK - tick

/-- Beyond the ticks there are is nothing to find. -/
theorem finds_none {m : TickMap} {tickSpacing tick t : Int} {lte initialized : Bool} (hp : Placed m tickSpacing)
    (hstep : StepsOn m lte tick t initialized) (htick : MIN_TICK ≤ tick ∧ tick ≤ MAX_TICK)
    (hpassed : restart lte t < MIN_TICK ∨ MAX_TICK < restart lte t) : Finds m lte (restart lte t) none := by
  intro k v hk hahead
  obtain ⟨-, hmin, hmax⟩ := hp k v hk
  have hprogress := hstep.progress
  unfold Ahead at hahead
  cases lte with
  | true =>
    simp only [if_true] at hahead hprogress
    omega
  | false =>
    simp only [Bool.false_eq_true, if_false] at hahead hprogress
    omega

/-- Enough words find what there is to find. -/
theorem searchWords_finds {m : TickMap} {tickSpacing : Int} (lte : Bool) (hs : 1 ≤ tickSpacing) (hp : Placed m tickSpacing)
    (fuel : Nat) (tick : Int) (htick : MIN_TICK ≤ tick ∧ tick ≤ MAX_TICK) (hfuel : left lte tick < fuel) :
    ∃ r, searchWords m tickSpacing lte fuel tick = .ok r ∧ Finds m lte tick r := by
  induction fuel generalizing tick with
  | zero =>
    unfold left at hfuel
    split at hfuel <;> omega
  | succ fuel ih =>
    obtain ⟨t, initialized, hnext⟩ := nextInitializedTick_finds m tick lte (wordBounded_pos hs)
    have hstep := stepsOn hp hnext
    rw [searchWords, hnext, ok_bind]
    cases initialized with
    | true => exact ⟨some t, rfl, hstep.key.1 rfl, hstep.ahead, hstep.passes⟩
    | false =>
      dsimp only
      rw [if_neg Bool.false_ne_true]
      by_cases hpassed : restart lte t < MIN_TICK ∨ MAX_TICK < restart lte t
      · rw [if_pos hpassed]
        exact ⟨none, rfl, hstep.finds (finds_none hp hstep htick hpassed)⟩
      · rw [if_neg hpassed]
        have hprogress := hstep.progress
        have hfuel' : left lte (restart lte t) < fuel := by
          unfold left at *
          split at hfuel
          · next hlte =>
            rw [if_pos hlte] at hprogress ⊢
            omega
          · next hlte =>
            rw [if_neg hlte] at hprogress ⊢
            omega
        obtain ⟨r, hr, hfinds⟩ := ih (restart lte t) (by omega) hfuel'
        exact ⟨r, hr, hstep.finds hfinds⟩

/-- For the ticks there are and a spacing below `2^23` no product leaves `i32`. -/
theorem edgesFit {tickSpacing tick : Int} (hs : 1 ≤ tickSpacing) (hs' : tickSpacing < 2 ^ 23)
    (htick : MIN_TICK ≤ tick ∧ tick ≤ MAX_TICK) : EdgesFit tickSpacing tick := by
  unfold MIN_TICK MAX_TICK at htick
  obtain ⟨hlow, hhigh⟩ := wordEdges_fit (show -2 ^ 23 ≤ tick ∧ tick < 2 ^ 23 by omega) ⟨hs, hs'⟩
  obtain ⟨h1, h2⟩ := wordStart_le (tick / tickSpacing)
  obtain ⟨h3, h4⟩ := wordStart_le (tick / tickSpacing + 1)
  have hbetween : ∀ n, wordStart (tick / tickSpacing) ≤ n → n ≤ wordStart (tick / tickSpacing + 1) + 255 →
      -2 ^ 31 ≤ n * tickSpacing ∧ n * tickSpacing < 2 ^ 31 := fun n hn hn' =>
    ⟨hlow.trans (Int.mul_le_mul_of_nonneg_right hn (by omega)),
      (Int.mul_le_mul_of_nonneg_right hn' (by omega)).trans_lt hhigh⟩
  intro n hn
  have hn : n = wordStart (tick / tickSpacing) ∨ n = tick / tickSpacing ∨ n = tick / tickSpacing + 1 ∨
      n = wordStart (tick / tickSpacing + 1) + 255 := by simpa using hn
  exact hbetween n (by omega) (by omega)

/-- **The two searches agree**: for a map of ticks of the spacing, from every tick there is and either way, the
word search ends and finds what the direct search reports; each of its steps goes on and leaves no initialized
tick behind; and below a spacing of `2^23` its products are `i32`. -/
theorem searchWords_direct (m : TickMap) (tickSpacing tick : Int) (lte : Bool) (hs : 1 ≤ tickSpacing)
    (hp : Placed m tickSpacing) (htick : MIN_TICK ≤ tick ∧ tick ≤ MAX_TICK) :
    (∃ fuel, searchWords m tickSpacing lte fuel tick = .ok (directTick m tick lte)) ∧
      (∃ t initialized, nextInitializedTick m tick lte (.wordBounded tickSpacing) = .ok (t, initialized) ∧
        StepsOn m lte tick t initialized) ∧
      (tickSpacing < 2 ^ 23 → EdgesFit tickSpacing tick) := by
  refine ⟨?_, ?_, fun hs' => edgesFit hs hs' htick⟩
  · obtain ⟨r, hr, hfinds⟩ :=
      searchWords_finds lte hs hp ((left lte tick).toNat + 1) tick htick (by omega)
    exact ⟨_, hr.trans (congrArg Except.ok hfinds.direct.symm)⟩
  · obtain ⟨t, initialized, hnext⟩ := nextInitializedTick_finds m tick lte (wordBounded_pos hs)
    exact ⟨t, initialized, hnext, stepsOn hp hnext⟩

/-- One tick, sixteen words below the start. -/
theorem searchWords_direct_far :
    (∃ fuel, searchWords ((∅ : TickMap).insert (-4200) ⟨-4200, 1, 1⟩) 1 true fuel 0 =
        .ok (directTick ((∅ : TickMap).insert (-4200) ⟨-4200, 1, 1⟩) 0 true)) ∧
      (∃ t initialized, nextInitializedTick ((∅ : TickMap).insert (-4200) ⟨-4200, 1, 1⟩) 0 true (.wordBounded 1) =
        .ok (t, initialized) ∧ StepsOn ((∅ : TickMap).insert (-4200) ⟨-4200, 1, 1⟩) true 0 t initialized) ∧
      ((1 : Int) < 2 ^ 23 → EdgesFit 1 0) := by
  refine searchWords_direct _ 1 0 true le_rfl (fun k v hk => ?_) (by decide)
  rw [Ranges.lookup_insert] at hk
  split at hk
  · next hk' =>
    rw [hk']
    decide
  · simp at hk

end EvmDexPool.V3
