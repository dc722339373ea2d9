import EvmDexPool.LB.Pool

/-!
# The bins a quote walks through

Trading order is downwards for `swap_for_y` and upwards otherwise. `next_non_empty_bin` is the
nearest bin in that order, so when the walk stands at a bin it has passed exactly the bins
between it and the active one (`reserveBefore_next`), and it ends (`binLoop_ne_diverges`).
-/

namespace EvmDexPool.LB.LBPool

open Std

variable {p : LBPool} {swapForY : Bool}

/-- The reserve a bin holds of the token that is bought. -/
def outSide (swapForY : Bool) (r : Nat × Nat) : Nat := if swapForY then r.2 else r.1

def reserveOut (p : LBPool) (swapForY : Bool) (id : Nat) : Nat := outSide swapForY (p.bin id)

/-- `k` comes after `id` in trading order. -/
def after (swapForY : Bool) (id k : Nat) : Bool := if swapForY then k < id else id < k

/-- `id` is the active bin or one after it. -/
def onPath (p : LBPool) (swapForY : Bool) (id : Nat) : Bool := id = p.activeId || after swapForY p.activeId id

/-- The sum of `f` over the bins from the active one up to `id`, `id` left out. -/
def sumBefore (p : LBPool) (swapForY : Bool) (f : Nat → Nat × Nat → Nat) (id : Nat) : Nat :=
  Ranges.sumRange p.bins (fun k => p.onPath swapForY k && after swapForY k id) f

/-- The sum of `f` over all the bins from the active one on. -/
def sumPath (p : LBPool) (swapForY : Bool) (f : Nat → Nat × Nat → Nat) : Nat :=
  Ranges.sumRange p.bins (p.onPath swapForY) f

/-- What the bins from the active one up to `id`, `id` left out, hold of the token bought. -/
def reserveBefore (p : LBPool) (swapForY : Bool) (id : Nat) : Nat :=
  Ranges.sumRange p.bins (fun k => p.onPath swapForY k && after swapForY k id) fun _ => outSide swapForY

theorem after_irrefl (id : Nat) : after swapForY id id = false := by cases swapForY <;> simp [after]

theorem after_trans {a b c : Nat} (h : after swapForY a b) (h' : after swapForY b c) : after swapForY a c := by
  cases swapForY <;> simp [after] at * <;> omega

theorem after_total (swapForY : Bool) (a b : Nat) : after swapForY a b = true ∨ a = b ∨ after swapForY b a = true := by
  cases swapForY <;> simp [after] <;> omega

theorem onPath_after {a b : Nat} (h : p.onPath swapForY a) (h' : after swapForY a b) : p.onPath swapForY b := by
  simp only [onPath, Bool.or_eq_true, decide_eq_true_eq] at *
  rcases h with rfl | h
  · exact .inr h'
  · exact .inr (after_trans h h')

/-- The active bin does not come after one on the path. -/
theorem onPath_not_after {id : Nat} (h : p.onPath swapForY id) : ¬after swapForY id p.activeId := by
  intro hb
  simp only [onPath, Bool.or_eq_true, decide_eq_true_eq] at h
  rcases h with rfl | h
  · simp [after_irrefl] at hb
  · have := after_trans h hb
    simp [after_irrefl] at this

theorem sumBefore_active (f : Nat → Nat × Nat → Nat) : p.sumBefore swapForY f p.activeId = 0 := by
  refine Ranges.sumRange_empty fun k _ _ => ?_
  cases swapForY <;> simp [onPath, after] <;> omega

theorem reserveBefore_active : p.reserveBefore swapForY p.activeId = 0 := sumBefore_active _

theorem reserveOut_none {id : Nat} (h : p.bins[id]? = none) : p.reserveOut swapForY id = 0 := by
  cases swapForY <;> simp [reserveOut, bin, h, outSide]

/-! ## The next bin -/

theorem next_some {id n : Nat} (h : p.nextNonEmptyBin swapForY id = .ok (some n)) :
    (∃ r, p.bins[n]? = some r) ∧ after swapForY id n ∧
      ∀ k r, p.bins[k]? = some r → after swapForY id k → k = n ∨ after swapForY n k := by
  unfold nextNonEmptyBin at h
  cases swapForY with
  | true =>
    simp only [if_true, Except.ok.injEq, Option.map_eq_some_iff] at h
    obtain ⟨⟨m, r⟩, hlast, rfl⟩ := h
    obtain ⟨hr, hm, hmax⟩ := Ranges.range_getLast hlast
    refine ⟨⟨r, hr⟩, by simpa [after] using hm, fun k r' hk hb => ?_⟩
    have := hmax k r' hk (by simpa [after] using hb)
    simp only [after, if_true, decide_eq_true_eq] at *
    omega
  | false =>
    simp only [Bool.false_eq_true, if_false] at h
    split at h
    · simp only [Except.ok.injEq, Option.map_eq_some_iff] at h
      obtain ⟨⟨m, r⟩, hhead, rfl⟩ := h
      obtain ⟨hr, hm, hmin⟩ := Ranges.range_head hhead
      simp only [decide_eq_true_eq] at hm
      refine ⟨⟨r, hr⟩, by simp [after]; omega, fun k r' hk hb => ?_⟩
      have hb' : id < k := by simpa [after] using hb
      have := hmin k r' hk (decide_eq_true (Nat.succ_le_of_lt hb'))
      simp only [after, Bool.false_eq_true, if_false, decide_eq_true_eq]
      omega
    · cases h

theorem reserveOut_pos {id : Nat} (h : 0 < p.reserveOut swapForY id) : ∃ r, p.bins[id]? = some r := by
  cases hb : p.bins[id]? with
  | none =>
    rw [reserveOut_none hb] at h
    omega
  | some r => exact ⟨r, rfl⟩

/-- No bin with anything to sell is passed over. -/
theorem before_next {id n k : Nat} (h : p.nextNonEmptyBin swapForY id = .ok (some n)) (hr : 0 < p.reserveOut swapForY k)
    (hk : after swapForY k n) : after swapForY k id ∨ k = id := by
  obtain ⟨r, hb⟩ := reserveOut_pos hr
  rcases after_total swapForY k id with h1 | h1 | h1
  · exact .inl h1
  · exact .inr h1
  · rcases (next_some h).2.2 k r hb h1 with rfl | h2
    · simp [after_irrefl] at hk
    · have := after_trans hk h2
      simp [after_irrefl] at this

theorem next_none {id : Nat} (h : p.nextNonEmptyBin swapForY id = .ok none) {k : Nat} {r : Nat × Nat}
    (hk : p.bins[k]? = some r) : ¬after swapForY id k := by
  unfold nextNonEmptyBin at h
  cases swapForY with
  | true =>
    simp only [if_true, Except.ok.injEq, Option.map_eq_none_iff, List.getLast?_eq_none_iff] at h
    have := Ranges.range_empty h hk
    simpa [after] using this
  | false =>
    simp only [Bool.false_eq_true, if_false] at h
    split at h
    · simp only [Except.ok.injEq, Option.map_eq_none_iff, List.head?_eq_none_iff] at h
      have := of_decide_eq_false (Ranges.range_empty h hk)
      simp only [after, Bool.false_eq_true, if_false, decide_eq_true_eq]
      omega
    · cases h

/-- Only the last id of a `u32` has no successor to look from. -/
theorem next_error {id : Nat} {e : Fault} (h : p.nextNonEmptyBin swapForY id = .error e) :
    swapForY = false ∧ 2 ^ 32 ≤ id + 1 ∧ e = .overflow := by
  unfold nextNonEmptyBin at h
  split at h
  · cases h
  · split at h
    · cases h
    · cases h
      exact ⟨Bool.eq_false_of_not_eq_true ‹_›, Nat.le_of_not_lt ‹_›, rfl⟩

section Sums
variable {f : Nat → Nat × Nat → Nat} (hf : ∀ k, f k (0, 0) = 0)
include hf

/-- Taking in bin `id` adds its term, whether or not the map has it. -/
theorem sum_insert {P Q : Nat → Bool} {id : Nat} (hP : P id = false)
    (h : ∀ k r, p.bins[k]? = some r → (Q k = true ↔ k = id ∨ P k = true)) :
    Ranges.sumRange p.bins Q f = f id (p.bin id) + Ranges.sumRange p.bins P f := by
  unfold bin
  cases hb : p.bins[id]? with
  | none =>
    rw [Option.getD_none, hf, Nat.zero_add]
    refine Ranges.sumRange_congr fun k r hk => Bool.eq_iff_iff.2 ((h k r hk).trans ?_)
    have hne : k ≠ id := fun he => by rw [he, hb] at hk; cases hk
    simp only [hne, false_or]
  | some r => exact Ranges.sumRange_insert hb hP h

/-- Moving on to the next bin adds the term of the bin left behind. -/
theorem sumBefore_next {id n : Nat} (hid : p.onPath swapForY id)
    (h : p.nextNonEmptyBin swapForY id = .ok (some n)) :
    p.sumBefore swapForY f n = p.sumBefore swapForY f id + f id (p.bin id) := by
  obtain ⟨-, hn, hnext⟩ := next_some h
  rw [Nat.add_comm]
  refine sum_insert hf (by simp [after_irrefl]) fun k r hk => ?_
  simp only [Bool.and_eq_true]
  constructor
  · rintro ⟨hp, ha⟩
    rcases after_total swapForY k id with h1 | h1 | h1
    · exact .inr ⟨hp, h1⟩
    · exact .inl h1
    · rcases hnext k r hk h1 with rfl | h2
      · simp [after_irrefl] at ha
      · have := after_trans ha h2
        simp [after_irrefl] at this
  · rintro (rfl | ⟨hp, ha⟩)
    · exact ⟨hid, hn⟩
    · exact ⟨hp, after_trans ha hn⟩

theorem sum_through (id : Nat) :
    Ranges.sumRange p.bins (fun k => k = id || (p.onPath swapForY k && after swapForY k id)) f =
      p.sumBefore swapForY f id + f id (p.bin id) := by
  rw [Nat.add_comm]
  exact sum_insert hf (by simp [after_irrefl]) fun k _ _ => by simp

/-- A bin and those before it are all within what is before a later one. -/
theorem sumBefore_after {id k : Nat} (hid : p.onPath swapForY id) (h : after swapForY id k) :
    p.sumBefore swapForY f id + f id (p.bin id) ≤ p.sumBefore swapForY f k := by
  rw [← sum_through hf]
  refine Ranges.sumRange_mono fun j hj => ?_
  simp only [Bool.or_eq_true, Bool.and_eq_true, decide_eq_true_eq] at *
  rcases hj with rfl | ⟨hj, ha⟩
  · exact ⟨hid, h⟩
  · exact ⟨hj, after_trans ha h⟩

theorem sumBefore_le_path {id : Nat} (hid : p.onPath swapForY id) :
    p.sumBefore swapForY f id + f id (p.bin id) ≤ p.sumPath swapForY f := by
  rw [← sum_through hf]
  refine Ranges.sumRange_mono fun j hj => ?_
  simp only [Bool.or_eq_true, Bool.and_eq_true, decide_eq_true_eq] at hj
  rcases hj with rfl | ⟨hj, -⟩
  · exact hid
  · exact hj

/-- When no later bin has a term, the bin closes the sum. -/
theorem sumPath_eq {id : Nat} (hid : p.onPath swapForY id)
    (hlater : ∀ k r, p.bins[k]? = some r → after swapForY id k → f k r = 0) :
    p.sumPath swapForY f = p.sumBefore swapForY f id + f id (p.bin id) := by
  rw [← sum_through hf]
  refine Ranges.sumRange_eq_of_zero (fun k hk => ?_) fun k r hk hq hp => hlater k r hk ?_
  · simp only [Bool.or_eq_true, Bool.and_eq_true, decide_eq_true_eq] at hk
    rcases hk with rfl | ⟨hk, -⟩
    · exact hid
    · exact hk
  · simp only [Bool.or_eq_false_iff, Bool.and_eq_false_iff, decide_eq_false_iff_not] at hp
    rcases after_total swapForY k id with h1 | h1 | h1
    · simp [hq, h1] at hp
    · exact absurd h1 hp.1
    · exact h1

/-- The last bin of the path closes the sum. -/
theorem sumPath_last {id : Nat} (hid : p.onPath swapForY id)
    (hlast : ∀ k r, p.bins[k]? = some r → ¬after swapForY id k) :
    p.sumPath swapForY f = p.sumBefore swapForY f id + f id (p.bin id) :=
  sumPath_eq hf hid fun k r hk hafter => absurd hafter (hlast k r hk)

end Sums

/-- Moving on to the next bin adds the reserve of the bin left behind. -/
theorem reserveBefore_next {id n : Nat} (hid : p.onPath swapForY id)
    (h : p.nextNonEmptyBin swapForY id = .ok (some n)) :
    p.reserveBefore swapForY n = p.reserveBefore swapForY id + p.reserveOut swapForY id :=
  sumBefore_next (f := fun _ => outSide swapForY) (fun _ => by cases swapForY <;> rfl) hid h

theorem reserveBefore_after {id k : Nat} (hid : p.onPath swapForY id) (h : after swapForY id k) :
    p.reserveBefore swapForY id + p.reserveOut swapForY id ≤ p.reserveBefore swapForY k :=
  sumBefore_after (f := fun _ => outSide swapForY) (fun _ => by cases swapForY <;> rfl) hid h

/-! ## The loop -/

section Loop
variable {σ : Type} {visit : σ → Nat → Nat → Except Fault σ} {left : σ → Nat}

/-- One round of the walk, in terms of what the bin has to sell. -/
theorem binLoop_succ (fuel : Nat) (s : σ) (id : Nat) :
    p.binLoop swapForY visit left (fuel + 1) s id =
      (if 0 < p.reserveOut swapForY id then visit s id (p.reserveOut swapForY id) else .ok s) >>= fun s =>
        if left s = 0 then .ok s
        else p.nextNonEmptyBin swapForY id >>= fun next => match next with
          | some nextId => p.binLoop swapForY visit left fuel s nextId
          | none => .ok s := by
  rw [binLoop]
  cases hb : p.bins[id]? with
  | none =>
    rewrite [reserveOut_none hb, if_neg (lt_irrefl 0)]
    rfl
  | some r =>
    have hr : (if swapForY then r.2 else r.1) = p.reserveOut swapForY id := by
      simp [reserveOut, bin, hb, outSide]
    simp only [hr]
    generalize p.reserveOut swapForY id = reserve
    split <;> rfl

/-- What every visit preserves, the walk preserves. -/
theorem binLoop_invariant {P : σ → Prop}
    (hv : ∀ s id s', 0 < p.reserveOut swapForY id → P s →
      visit s id (p.reserveOut swapForY id) = .ok s' → P s') :
    ∀ (fuel : Nat) {s s' : σ} {id : Nat}, P s →
      p.binLoop swapForY visit left fuel s id = .ok s' → P s'
  | 0, _, _, _, _, h => by simp [binLoop] at h
  | fuel + 1, s, s', id, hP, h => by
    rw [binLoop_succ, bind_eq_ok] at h
    obtain ⟨s₁, hs₁, h⟩ := h
    have hP₁ : P s₁ := by
      split at hs₁
      · next hr => exact hv s id s₁ hr hP hs₁
      · exact Except.ok.inj hs₁ ▸ hP
    split at h
    · exact Except.ok.inj h ▸ hP₁
    · obtain ⟨o, -, h⟩ := bind_eq_ok.1 h
      cases o with
      | none => exact Except.ok.inj h ▸ hP₁
      | some n => exact binLoop_invariant hv fuel hP₁ h

/-- How many bins the walk can still reach from `id`. -/
def binsAfter (p : LBPool) (swapForY : Bool) (id : Nat) : Nat :=
  Ranges.sumRange p.bins (after swapForY id) fun _ _ => 1

theorem binsAfter_next {id n : Nat} (h : p.nextNonEmptyBin swapForY id = .ok (some n)) :
    p.binsAfter swapForY id = p.binsAfter swapForY n + 1 := by
  obtain ⟨⟨r, hr⟩, hn, hnext⟩ := next_some h
  unfold binsAfter
  rw [Ranges.sumRange_insert hr (after_irrefl n) (fun k v hk => ?_), Nat.add_comm]
  constructor
  · exact hnext k v hk
  · rintro (rfl | h2)
    · exact hn
    · exact after_trans hn h2

theorem binsAfter_le (p : LBPool) (swapForY : Bool) (id : Nat) : p.binsAfter swapForY id ≤ p.bins.size := by
  have h := Ranges.sumRange_mono (m := p.bins) (p := after swapForY id) (q := fun _ => true)
    (f := fun _ _ => 1) (fun _ _ => rfl)
  simpa [binsAfter, Ranges.sumRange, Ranges.range, ExtTreeMap.length_toList] using h

theorem binLoop_ne_diverges_aux (hv : ∀ s id r, visit s id r ≠ .error .diverges) :
    ∀ (fuel : Nat) (s : σ) (id : Nat), p.binsAfter swapForY id < fuel →
      p.binLoop swapForY visit left fuel s id ≠ .error .diverges := by
  intro fuel
  induction fuel with
  | zero => intro _ _ h; omega
  | succ fuel ih =>
    intro s id hfuel
    rw [binLoop_succ]
    have hround : ∀ s' : σ, (if left s' = 0 then Except.ok s' else do
        match ← p.nextNonEmptyBin swapForY id with
        | some nextId => p.binLoop swapForY visit left fuel s' nextId
        | none => .ok s') ≠ .error .diverges := by
      intro s'
      split
      · simp
      · cases hn : p.nextNonEmptyBin swapForY id with
        | error e =>
          unfold nextNonEmptyBin at hn
          split_ifs at hn
          cases hn
          simp [bind, Except.bind]
        | ok o =>
          cases o with
          | none => simp [bind, Except.bind]
          | some n => exact ih s' n (by have := binsAfter_next hn; omega)
    split
    · cases hs : visit s id (p.reserveOut swapForY id) with
      | error e =>
        have := hv s id (p.reserveOut swapForY id)
        rw [hs] at this
        simpa [bind, Except.bind] using this
      | ok s' => exact hround s'
    · exact hround s

/-- **The walk ends**: one round per bin and one for the active id are enough. -/
theorem binLoop_ne_diverges (hv : ∀ s id r, visit s id r ≠ .error .diverges) (s : σ) (id : Nat) :
    p.binLoop swapForY visit left (p.bins.size + 1) s id ≠ .error .diverges :=
  binLoop_ne_diverges_aux hv _ _ _ (by have := binsAfter_le p swapForY id; omega)

/-! ## The rounds of a walk -/

/-- A round: the visit of a bin that has something to sell. -/
def roundAt (p : LBPool) (swapForY : Bool) (visit : σ → Nat → Nat → Except Fault σ) (s : σ) (id : Nat) : Except Fault σ :=
  if 0 < p.reserveOut swapForY id then visit s id (p.reserveOut swapForY id) else .ok s

/-- Where the walk from `s₀` stands before bin `id`, and the rounds it made on the way. -/
inductive Walks (p : LBPool) (swapForY : Bool) (visit : σ → Nat → Nat → Except Fault σ) (left : σ → Nat) (s₀ : σ) :
    List (Nat × σ × σ) → σ → Nat → Prop
  | start : Walks p swapForY visit left s₀ [] s₀ p.activeId
  | next {l : List (Nat × σ × σ)} {s s' : σ} {id n : Nat} (h : Walks p swapForY visit left s₀ l s id)
      (hround : p.roundAt swapForY visit s id = .ok s') (hleft : left s' ≠ 0)
      (hnext : p.nextNonEmptyBin swapForY id = .ok (some n)) :
      Walks p swapForY visit left s₀ (l ++ [(id, s, s')]) s' n

/-- The walk ends in `s'`. -/
def Finishes (p : LBPool) (swapForY : Bool) (visit : σ → Nat → Nat → Except Fault σ) (left : σ → Nat) (s₀ : σ)
    (l : List (Nat × σ × σ)) (s' : σ) : Prop :=
  ∃ l₀ s id, Walks p swapForY visit left s₀ l₀ s id ∧ p.roundAt swapForY visit s id = .ok s' ∧
    l = l₀ ++ [(id, s, s')] ∧ (left s' = 0 ∨ p.nextNonEmptyBin swapForY id = .ok none)

variable {s₀ : σ}

theorem Walks.onPath {l : List (Nat × σ × σ)} {s : σ} {id : Nat} (h : Walks p swapForY visit left s₀ l s id) :
    p.onPath swapForY id := by
  induction h with
  | start => simp [LBPool.onPath]
  | next _ _ _ hnext ih => exact onPath_after ih (next_some hnext).2.1

theorem Walks.mem {l : List (Nat × σ × σ)} {s : σ} {id : Nat} (h : Walks p swapForY visit left s₀ l s id) :
    id = p.activeId ∨ ∃ r, p.bins[id]? = some r := by
  cases h with
  | start => exact .inl rfl
  | next _ _ _ hnext => exact .inr (next_some hnext).1

/-- A bin with something to sell that a walk has passed was visited, and something was left after it. -/
theorem Walks.at {l : List (Nat × σ × σ)} {s : σ} {n k : Nat} (h : Walks p swapForY visit left s₀ l s n)
    (hk : p.onPath swapForY k) (hr : 0 < p.reserveOut swapForY k) (hb : after swapForY k n) :
    ∃ l₁ s₁ s₂, Walks p swapForY visit left s₀ l₁ s₁ k ∧ p.roundAt swapForY visit s₁ k = .ok s₂ := by
  induction h with
  | start => exact absurd hb (onPath_not_after hk)
  | next hw hround _ hnext ih =>
    rcases before_next hnext hr hb with hb | rfl
    · exact ih hb
    · exact ⟨_, _, _, hw, hround⟩

theorem binLoop_finishes : ∀ {fuel : Nat} {l : List (Nat × σ × σ)} {s s' : σ} {id : Nat},
    Walks p swapForY visit left s₀ l s id → p.binLoop swapForY visit left fuel s id = .ok s' →
    ∃ l', Finishes p swapForY visit left s₀ l' s'
  | 0, _, _, _, _, _, h => by cases h
  | fuel + 1, l, s, s', id, hw, h => by
    rw [binLoop_succ] at h
    obtain ⟨s₁, hround, h⟩ := bind_eq_ok.1 h
    split at h
    · rename_i hleft
      cases h
      exact ⟨_, l, s, id, hw, hround, rfl, .inl hleft⟩
    · rename_i hleft
      obtain ⟨o, hnext, h⟩ := bind_eq_ok.1 h
      cases o with
      | none =>
        cases h
        exact ⟨_, l, s, id, hw, hround, rfl, .inr hnext⟩
      | some n => exact binLoop_finishes (.next hw hround hleft hnext) h

/-- A walk that fails, fails in a visit or in looking for the next bin. -/
theorem binLoop_fails : ∀ {fuel : Nat} {l : List (Nat × σ × σ)} {s : σ} {id : Nat} {e : Fault},
    Walks p swapForY visit left s₀ l s id → p.binLoop swapForY visit left fuel s id = .error e →
    e = .diverges ∨ ∃ l s id, Walks p swapForY visit left s₀ l s id ∧
      (p.roundAt swapForY visit s id = .error e ∨
        ∃ s', p.roundAt swapForY visit s id = .ok s' ∧ left s' ≠ 0 ∧ p.nextNonEmptyBin swapForY id = .error e)
  | 0, _, _, _, _, _, h => by cases h; exact .inl rfl
  | fuel + 1, l, s, id, e, hw, h => by
    rw [binLoop_succ] at h
    cases hround : p.roundAt swapForY visit s id with
    | error e' =>
      change (p.roundAt swapForY visit s id >>= _) = _ at h
      rw [hround, error_bind] at h
      cases h
      exact .inr ⟨l, s, id, hw, .inl hround⟩
    | ok s₁ =>
      change (p.roundAt swapForY visit s id >>= _) = _ at h
      rw [hround, ok_bind] at h
      split at h
      · cases h
      rename_i hleft
      cases hnext : p.nextNonEmptyBin swapForY id with
      | error e' =>
        rw [hnext, error_bind] at h
        cases h
        exact .inr ⟨l, s, id, hw, .inr ⟨s₁, hround, hleft, hnext⟩⟩
      | ok o =>
        rw [hnext, ok_bind] at h
        cases o with
        | none => cases h
        | some n => exact binLoop_fails (.next hw hround hleft hnext) h

end Loop

end EvmDexPool.LB.LBPool
