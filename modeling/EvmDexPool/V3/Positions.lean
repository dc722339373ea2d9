import EvmDexPool.Lib.Intervals
import EvmDexPool.V3.Pool

/-!
# Mints and burns keep the tick map equal to the position book

A pool's positions are a book of liquidity on tick ranges. `Image p b` says that the pool's tick map
and its liquidity are what the contract would hold for the book `b`. A replay of mint, burn and swap
logs (`Op`) that the contract could have emitted (`Replays`) takes an image to an image, and an image
is determined by its book, so the order in which the liquidity logs came leaves no trace.
-/

namespace EvmDexPool.V3

open Intervals Ranges Std

/-- A position's range of ticks and its liquidity. -/
structure Position where
  range : Intervals.Interval Int
  amount : Nat

/-- The book of a multiset of positions: equal ranges are added up. -/
noncomputable def bookOf (positions : Multiset Position) : Book Int :=
  (positions.map fun x => Finsupp.single x.range x.amount).sum

/-- The pool is the image of the book: a tick is in the map exactly when a position ends there, with
the sums over the positions, and the liquidity is that of the positions around the current tick. -/
structure Image (p : UniswapV3Pool) (b : Book Int) : Prop where
  initialized : ∀ t, t ∈ p.ticks ↔ ∃ r ∈ b.support, t = r.lower ∨ t = r.upper
  tick : ∀ t (k : Tick), p.ticks[t]? = some k → k = ⟨t, net b t, gross b t⟩
  liquidity : p.liquidity = active b p.tick

/-- No tick's gross liquidity and not the active liquidity reaches `2^127`. -/
def Bounded (b : Book Int) (tick : Int) : Prop := (∀ t, gross b t < 2 ^ 127) ∧ active b tick < 2 ^ 127

/-! ## Logs and what they do to the book -/

inductive Op
  | mint (range : Intervals.Interval Int) (amount : Nat)
  | burn (range : Intervals.Interval Int) (amount : Nat)
  | swap (now sqrtPriceX96 : Nat) (tick : Int) (liquidity : Nat)

namespace Op

def apply (p : UniswapV3Pool) : Op → UniswapV3Pool
  | mint r amount => (p.applyMintEvent r.lower r.upper amount).1
  | burn r amount => (p.applyBurnEvent r.lower r.upper amount).1
  | swap now sqrtPriceX96 tick liquidity => (p.updateState now sqrtPriceX96 tick liquidity).1

noncomputable def book (b : Book Int) : Op → Book Int
  | mint r amount => b + Finsupp.single r amount
  | burn r amount => b - Finsupp.single r amount
  | swap .. => b

/-- A burn removes liquidity that is there; a swap reports the liquidity around the tick it moves to. -/
def Fits (b : Book Int) : Op → Prop
  | mint .. => True
  | burn r amount => amount ≤ b r
  | swap _ _ tick liquidity => liquidity = active b tick

/-- A mint or a burn. -/
def move? : Op → Option (Bool × Intervals.Interval Int × Nat)
  | mint r amount => some (true, r, amount)
  | burn r amount => some (false, r, amount)
  | swap .. => none

/-- A swap, up to the liquidity it reports. -/
def swap? : Op → Option (Nat × Nat × Int)
  | swap now sqrtPriceX96 tick _ => some (now, sqrtPriceX96, tick)
  | _ => none

end Op

def replayOps (p : UniswapV3Pool) (ops : List Op) : UniswapV3Pool := ops.foldl Op.apply p

noncomputable def replayBook (b : Book Int) (ops : List Op) : Book Int := ops.foldl Op.book b

/-- Every log fits the book it meets, and the totals stay in bounds. -/
inductive Replays : UniswapV3Pool → Book Int → List Op → Prop
  | nil (p b) : Replays p b []
  | cons {p b op ops} (fits : op.Fits b) (bounded : Bounded (op.book b) (op.apply p).tick)
      (rest : Replays (op.apply p) (op.book b) ops) : Replays p b (op :: ops)

/-! ## An image, tick by tick -/

/-- What the map holds at a tick with these totals. -/
def tickOf (t net : Int) (gross : Nat) : Option Tick := if gross = 0 then none else some ⟨t, net, gross⟩

theorem image_iff {p : UniswapV3Pool} {b : Book Int} :
    Image p b ↔ (∀ t, p.ticks[t]? = tickOf t (net b t) (gross b t)) ∧ p.liquidity = active b p.tick := by
  have hsupport : ∀ t, (∃ r ∈ b.support, t = r.lower ∨ t = r.upper) ↔ gross b t ≠ 0 := fun t => by
    rw [ne_eq, gross_eq_zero]; push Not; rfl
  constructor
  · rintro ⟨hi, ht, hl⟩
    refine ⟨fun t => ?_, hl⟩
    unfold tickOf
    have hmem := (hi t).trans (hsupport t)
    split
    · next h0 => exact ExtTreeMap.getElem?_eq_none fun h => hmem.1 h h0
    · next h0 =>
      obtain ⟨k, hk⟩ := Option.isSome_iff_exists.1 (ExtTreeMap.mem_iff_isSome_getElem?.1 (hmem.2 h0))
      rw [hk, ht t k hk]
  · rintro ⟨ht, hl⟩
    refine ⟨fun t => ?_, fun t k hk => ?_, hl⟩
    · rw [hsupport, ExtTreeMap.mem_iff_isSome_getElem?, ht]
      unfold tickOf
      split <;> simp_all
    · rw [ht] at hk
      unfold tickOf at hk
      split at hk
      · cases hk
      · exact (Option.some.inj hk).symm

theorem mem_iff {p : UniswapV3Pool} {b : Book Int} (h : Image p b) {t : Int} : t ∈ p.ticks ↔ gross b t ≠ 0 := by
  rw [ExtTreeMap.mem_iff_isSome_getElem?, (image_iff.1 h).1]
  unfold tickOf
  split <;> simp_all

/-- Everything of a pool but its tick map and its liquidity. -/
def frame (p : UniswapV3Pool) : UniswapV3Pool := { p with ticks := ∅, liquidity := 0 }

/-- An image is determined by its book and the rest of the pool. -/
theorem Image.unique {p q : UniswapV3Pool} {b : Book Int} (hp : Image p b) (hq : Image q b)
    (hf : frame p = frame q) : p = q := by
  obtain ⟨hpt, hpl⟩ := image_iff.1 hp
  obtain ⟨hqt, hql⟩ := image_iff.1 hq
  have hticks : p.ticks = q.ticks := ExtTreeMap.ext_getElem? fun t => by rw [hpt, hqt]
  have htick := congrArg UniswapV3Pool.tick hf
  change p.tick = q.tick at htick
  have hliq : p.liquidity = q.liquidity := by rw [hpl, hql, htick]
  have hp : p = { frame p with ticks := p.ticks, liquidity := p.liquidity } := rfl
  rw [hp, hf, hticks, hliq]
  rfl

/-! ## What a mint and a burn write -/

variable {p : UniswapV3Pool} {b : Book Int} {r : Intervals.Interval Int} {amount : Nat}

theorem mintTick_frame (i delta : Int) (amount : Nat) :
    p.mintTick i delta amount = { p with ticks := (p.mintTick i delta amount).ticks } := by
  unfold UniswapV3Pool.mintTick UniswapV3Pool.updateTick
  repeat' split
  all_goals rfl

/-- One end of a mint adds to the tick's totals, whether or not the tick was there. -/
theorem mintTick_getElem? {i n delta : Int} {g amount : Nat} (h : p.ticks[i]? = tickOf i n g) (hn : |n| ≤ g)
    (hd : |delta| ≤ amount) (hb : g + amount < 2 ^ 127) (t : Int) :
    (p.mintTick i delta amount).ticks[t]? =
      if t = i then tickOf i (n + delta) (g + amount) else p.ticks[t]? := by
  have hn' := abs_le.1 hn
  have hd' := abs_le.1 hd
  unfold UniswapV3Pool.mintTick tickOf at *
  by_cases h0 : g = 0
  · rw [h, if_pos h0]
    have hn0 : n = 0 := by omega
    subst h0 hn0
    unfold UniswapV3Pool.updateTick
    by_cases ha : amount = 0
    · simp [ha, lookup_erase]
    · simp [ha, lookup_insert]
  · rw [h, if_neg h0]
    have hnet : Fixed.satSigned 128 (n + delta) = n + delta := Fixed.satSigned_of_mem (by omega) (by omega)
    have hgross : Fixed.satAdd 128 g amount = g + amount := Fixed.satAdd_of_lt (by omega)
    simp [hnet, hgross, h0, lookup_insert]

theorem burnTick_frame {i delta : Int} {q : UniswapV3Pool} (h : p.burnTick i delta amount = some q) :
    q = { p with ticks := q.ticks } := by
  unfold UniswapV3Pool.burnTick UniswapV3Pool.updateTick at h
  split at h
  · cases h
    split <;> rfl
  · cases h

/-- One end of a burn takes from the totals of a tick that is there. -/
theorem burnTick_getElem? {i n delta : Int} {g amount : Nat} (h : p.ticks[i]? = tickOf i n g) (hg : g < 2 ^ 127)
    (h0 : g ≠ 0) (hn : |n + delta| ≤ g) :
    ∃ q, p.burnTick i delta amount = some q ∧
      ∀ t, q.ticks[t]? = if t = i then tickOf i (n + delta) (g - amount) else p.ticks[t]? := by
  have hn' := abs_le.1 hn
  have hnet : Fixed.satSigned 128 (n + delta) = n + delta := Fixed.satSigned_of_mem (by omega) (by omega)
  unfold UniswapV3Pool.burnTick tickOf at *
  rw [h, if_neg h0]
  refine ⟨_, rfl, fun t => ?_⟩
  dsimp only
  rw [hnet]
  by_cases hz : g - amount = 0
  · rw [if_pos hz, if_pos hz]
    simp only [UniswapV3Pool.updateTick, ↓reduceIte, lookup_erase, lookup_insert]
    split <;> rfl
  · rw [if_neg hz, if_neg hz]
    exact lookup_insert ..

theorem of_frame {q : UniswapV3Pool} (h : q = { p with ticks := q.ticks }) :
    frame q = frame p ∧ q.tick = p.tick ∧ q.liquidity = p.liquidity := by
  rw [h]
  exact ⟨rfl, rfl, rfl⟩

theorem inRange_iff {lower upper : Int} : p.inRange lower upper = true ↔ lower ≤ p.tick ∧ p.tick < upper := by
  simp [UniswapV3Pool.inRange]

theorem mint_frame (lower upper : Int) (amount : Nat) : frame (p.applyMintEvent lower upper amount).1 = frame p := by
  have h1 (i d : Int) (a : Nat) (q : UniswapV3Pool) : frame (q.mintTick i d a) = frame q :=
    (of_frame (mintTick_frame i d a)).1
  unfold UniswapV3Pool.applyMintEvent
  split
  · rfl
  · dsimp only
    split
    · exact h1 ..
    · split
      · exact (h1 ..).trans (h1 ..)
      · exact (h1 ..).trans (h1 ..)

theorem mint_tick (lower upper : Int) (amount : Nat) : (p.applyMintEvent lower upper amount).1.tick = p.tick := by
  have h := congrArg UniswapV3Pool.tick (mint_frame (p := p) lower upper amount)
  exact h

theorem burn_frame (lower upper : Int) (amount : Nat) : frame (p.applyBurnEvent lower upper amount).1 = frame p := by
  unfold UniswapV3Pool.applyBurnEvent
  dsimp only
  split
  · rfl
  · split
    · rfl
    · split
      · rfl
      · split
        · rfl
        · next h1 =>
          have hq := (of_frame (burnTick_frame h1)).1
          split
          · exact hq
          · next h2 =>
            have hq' := (of_frame (burnTick_frame h2)).1.trans hq
            split <;> exact hq'

/-! ## One log keeps the image -/

/-- A mint that fits succeeds, and the pool is the image of the book with the position added. -/
theorem image_mint (h : Image p b) (hb : Bounded (b + Finsupp.single r amount) p.tick) :
    ∃ q, p.applyMintEvent r.lower r.upper amount = (q, .ok ()) ∧ Image q (b + Finsupp.single r amount) := by
  obtain ⟨ht, hl⟩ := image_iff.1 h
  have hlt := r.lt
  have hlow := hb.1 r.lower
  have hup := hb.1 r.upper
  simp only [gross_add, gross_single, true_or, or_true, ↓reduceIte] at hlow hup
  have hdelta : Fixed.toSigned 128 amount = amount := Fixed.toSigned_of_lt (by omega)
  have habs : |(amount : Int)| ≤ amount := (abs_of_nonneg (by omega)).le
  have hneg : |(-amount : Int)| ≤ amount := by rwa [abs_neg]
  have hlower := mintTick_getElem? (ht r.lower) (abs_net_le_gross b _) habs hlow
  have hupper := mintTick_getElem? ((hlower r.upper).trans ((if_neg hlt.ne').trans (ht r.upper)))
    (abs_net_le_gross b _) hneg hup
  have hmap : ∀ t, ((p.mintTick r.lower amount amount).mintTick r.upper (-amount) amount).ticks[t]? =
      tickOf t (net (b + Finsupp.single r amount) t) (gross (b + Finsupp.single r amount) t) := fun t => by
    rw [hupper, hlower, net_add, gross_add, net_single, gross_single]
    by_cases h1 : t = r.lower
    · subst h1
      simp [hlt.ne]
    · by_cases h2 : t = r.upper
      · subst h2
        simp [hlt.ne']
      · simp [h1, h2, ht]
  have hframe : (p.mintTick r.lower amount amount).mintTick r.upper (-amount) amount =
      { p with ticks := ((p.mintTick r.lower amount amount).mintTick r.upper (-amount) amount).ticks } := by
    rw [mintTick_frame r.upper, mintTick_frame r.lower]
  have hactive := hb.2
  rw [active_add, active_single] at hactive
  unfold UniswapV3Pool.applyMintEvent
  rw [if_neg (by omega)]
  dsimp only
  rw [hdelta, if_neg (by rintro ⟨-, h⟩; omega)]
  generalize (p.mintTick r.lower amount amount).mintTick r.upper (-amount) amount = q at hmap hframe ⊢
  obtain ⟨-, htick, hliq⟩ := of_frame hframe
  by_cases hr : r.lower ≤ q.tick ∧ q.tick < r.upper
  · rw [if_pos (inRange_iff.2 hr)]
    rw [if_pos (htick ▸ hr)] at hactive
    refine ⟨_, rfl, image_iff.2 ⟨hmap, ?_⟩⟩
    dsimp only
    rw [active_add, active_single, if_pos hr, hliq, hl, htick, Fixed.satAdd_of_lt (by omega)]
  · rw [if_neg (mt inRange_iff.1 hr)]
    refine ⟨_, rfl, image_iff.2 ⟨hmap, ?_⟩⟩
    rw [active_add, active_single, if_neg hr, hliq, hl, htick, Nat.add_zero]

/-- A burn of nothing from ticks that are not there is refused, and every other burn of liquidity that
is there succeeds; the pool is the image of the book with that liquidity removed. -/
theorem image_burn (h : Image p b) (hp : Bounded b p.tick) (hfits : amount ≤ b r) :
    Image (p.applyBurnEvent r.lower r.upper amount).1 (b - Finsupp.single r amount) := by
  obtain ⟨ht, hl⟩ := image_iff.1 h
  have hlt := r.lt
  have hnil : r.lower ∉ p.ticks ∨ r.upper ∉ p.ticks → b - Finsupp.single r amount = b := by
    intro hno
    have : b r = 0 := by
      by_contra hne
      have hmem := Finsupp.mem_support_iff.2 hne
      have h1 := (h.initialized r.lower).2 ⟨r, hmem, .inl rfl⟩
      have h2 := (h.initialized r.upper).2 ⟨r, hmem, .inr rfl⟩
      exact hno.elim (· h1) (· h2)
    rw [this, Nat.le_zero] at hfits
    rw [hfits, Finsupp.single_zero, tsub_zero]
  unfold UniswapV3Pool.applyBurnEvent
  rw [if_neg (by omega)]
  by_cases hlow : r.lower ∉ p.ticks
  · rw [if_pos hlow, hnil (.inl hlow)]
    exact h
  by_cases hup : r.upper ∉ p.ticks
  · rw [if_neg hlow, if_pos hup, hnil (.inr hup)]
    exact h
  rw [if_neg hlow, if_neg hup]
  have hgl := gross_sub hfits r.lower
  have hgu := gross_sub hfits r.upper
  have hnl := net_sub hfits r.lower
  have hnu := net_sub hfits r.upper
  simp only [true_or, or_true, ↓reduceIte, hlt.ne'] at hgl hgu hnl hnu
  have hbl := hp.1 r.lower
  have hbu := hp.1 r.upper
  have hdelta : Fixed.toSigned 128 amount = amount := Fixed.toSigned_of_lt (by omega)
  have hl0 : gross b r.lower ≠ 0 := fun h0 => hlow (mt (mem_iff h).1 (not_not.2 h0))
  have hu0 : gross b r.upper ≠ 0 := fun h0 => hup (mt (mem_iff h).1 (not_not.2 h0))
  have habsl := abs_net_le_gross (b - Finsupp.single r amount) r.lower
  have habsu := abs_net_le_gross (b - Finsupp.single r amount) r.upper
  obtain ⟨q1, h1, hm1⟩ := burnTick_getElem? (ht r.lower) hbl hl0
    (show |net b r.lower + -amount| ≤ gross b r.lower by rw [← hnl, add_neg_cancel_right]; omega)
  obtain ⟨q2, h2, hm2⟩ := burnTick_getElem? ((hm1 r.upper).trans ((if_neg hlt.ne').trans (ht r.upper))) hbu hu0
    (show |net b r.upper + amount| ≤ gross b r.upper by rw [← hnu, neg_add_cancel_right]; omega)
  have hmap : ∀ t, q2.ticks[t]? =
      tickOf t (net (b - Finsupp.single r amount) t) (gross (b - Finsupp.single r amount) t) := fun t => by
    rw [hm2, hm1]
    by_cases ht1 : t = r.lower
    · subst ht1
      rw [if_neg hlt.ne, if_pos rfl, ← hnl, ← hgl, add_neg_cancel_right, Nat.add_sub_cancel]
    · by_cases ht2 : t = r.upper
      · subst ht2
        rw [if_pos rfl, ← hnu, ← hgu, neg_add_cancel_right, Nat.add_sub_cancel]
      · have hg := gross_sub hfits t
        have hn := net_sub hfits t
        simp only [ht1, ht2, or_self, ↓reduceIte, add_zero] at hg hn
        rw [if_neg ht2, if_neg ht1, ht, hg, hn]
  have hframe : q2 = { p with ticks := q2.ticks } := by
    rw [burnTick_frame h2, burnTick_frame h1]
  have hactive := active_sub hfits p.tick
  obtain ⟨-, htick, hliq⟩ := of_frame hframe
  dsimp only
  rw [hdelta, h1]
  dsimp only
  rw [h2]
  dsimp only
  by_cases hr : r.lower ≤ q2.tick ∧ q2.tick < r.upper
  · rw [if_pos (inRange_iff.2 hr)]
    rw [if_pos (htick ▸ hr)] at hactive
    refine image_iff.2 ⟨hmap, ?_⟩
    dsimp only
    rw [htick, hliq, hl, ← hactive, Nat.add_sub_cancel]
  · rw [if_neg (mt inRange_iff.1 hr)]
    rw [if_neg (htick ▸ hr), Nat.add_zero] at hactive
    exact image_iff.2 ⟨hmap, by rw [htick, hliq, hl, ← hactive]⟩

/-- A swap that reports the liquidity around the tick it moves to keeps the book. -/
theorem image_swap {now sqrtPriceX96 liquidity : Nat} {tick : Int} (h : Image p b)
    (hfits : liquidity = active b tick) : Image (p.updateState now sqrtPriceX96 tick liquidity).1 b := by
  obtain ⟨ht, hl⟩ := image_iff.1 h
  unfold UniswapV3Pool.updateState
  split
  · exact h
  · split
    · exact h
    · exact image_iff.2 ⟨ht, hfits⟩

/-! ## Whole replays -/

theorem image_apply {op : Op} (h : Image p b) (hp : Bounded b p.tick) (hfits : op.Fits b)
    (hb : Bounded (op.book b) (op.apply p).tick) : Image (op.apply p) (op.book b) := by
  cases op with
  | mint r amount =>
    have htick : (Op.apply p (.mint r amount)).tick = p.tick := mint_tick ..
    rw [htick] at hb
    obtain ⟨q, hq, hi⟩ := image_mint h hb
    change Image (p.applyMintEvent r.lower r.upper amount).1 _
    rw [hq]
    exact hi
  | burn r amount => exact image_burn h hp hfits
  | swap now sqrtPriceX96 tick liquidity => exact image_swap h hfits

theorem image_replayOps {ops : List Op} (h : Image p b) (hp : Bounded b p.tick) (hr : Replays p b ops) :
    Image (replayOps p ops) (replayBook b ops) ∧ Bounded (replayBook b ops) (replayOps p ops).tick := by
  induction hr with
  | nil => exact ⟨h, hp⟩
  | cons fits bounded rest ih => exact ih (image_apply h hp fits bounded) bounded

/-! ## The order of the liquidity logs -/

/-- The liquidity the mints among some moves bring in, and the burns take out. -/
noncomputable def total (minted : Bool) (moves : List (Bool × Intervals.Interval Int × Nat)) : Book Int :=
  ((moves.filter fun m => m.1 == minted).map fun m => Finsupp.single m.2.1 m.2.2).sum

theorem total_perm {minted : Bool} {xs ys : List (Bool × Intervals.Interval Int × Nat)} (h : xs.Perm ys) :
    total minted xs = total minted ys :=
  ((h.filter _).map _).sum_eq

/-- What was there and came in is what is left and went out. -/
theorem replayBook_balance {ops : List Op} (hr : Replays p b ops) :
    replayBook b ops + total false (ops.filterMap Op.move?) = b + total true (ops.filterMap Op.move?) := by
  induction hr with
  | nil => rfl
  | @cons p b op ops fits bounded rest ih =>
    change replayBook (op.book b) ops + _ = _
    cases op with
    | mint r amount =>
      have : total true (List.filterMap Op.move? (.mint r amount :: ops)) =
          Finsupp.single r amount + total true (ops.filterMap Op.move?) := by simp [total, Op.move?]
      rw [this, ← add_assoc]
      exact ih
    | burn r amount =>
      have : total false (List.filterMap Op.move? (.burn r amount :: ops)) =
          Finsupp.single r amount + total false (ops.filterMap Op.move?) := by simp [total, Op.move?]
      rw [this, add_left_comm, ih, ← add_assoc, add_comm (Finsupp.single r amount)]
      exact congrArg (· + _) (sub_add_single fits)
    | swap => exact ih

/-- What a swap does to the rest of the pool. -/
def moveFrame (f : UniswapV3Pool) (s : Nat × Nat × Int) : UniswapV3Pool :=
  frame (f.updateState s.1 s.2.1 s.2.2 0).1

theorem frame_updateState (now sqrtPriceX96 liquidity : Nat) (tick : Int) :
    frame (p.updateState now sqrtPriceX96 tick liquidity).1 = moveFrame (frame p) (now, sqrtPriceX96, tick) := by
  unfold moveFrame UniswapV3Pool.updateState
  dsimp only
  repeat' split
  all_goals rfl

/-- Only the swaps, up to the liquidity they report, move the rest of the pool. -/
theorem frame_replayOps (p : UniswapV3Pool) (ops : List Op) :
    frame (replayOps p ops) = (ops.filterMap Op.swap?).foldl moveFrame (frame p) := by
  induction ops generalizing p with
  | nil => rfl
  | cons op ops ih =>
    change frame (replayOps (op.apply p) ops) = _
    rw [ih]
    cases op with
    | mint r amount =>
      change List.foldl _ (frame (p.applyMintEvent ..).1) _ = _
      rw [mint_frame]
      rfl
    | burn r amount =>
      change List.foldl _ (frame (p.applyBurnEvent ..).1) _ = _
      rw [burn_frame]
      rfl
    | swap now sqrtPriceX96 tick liquidity =>
      change List.foldl _ (frame (p.updateState ..).1) _ = _
      rw [frame_updateState]
      rfl

/-- Two replays with the same mints and burns, in any order, and the same swaps end in the same pool. -/
theorem replayOps_order {xs ys : List Op} (h : Image p b) (hp : Bounded b p.tick) (hx : Replays p b xs)
    (hy : Replays p b ys) (hm : (xs.filterMap Op.move?).Perm (ys.filterMap Op.move?))
    (hs : xs.filterMap Op.swap? = ys.filterMap Op.swap?) : replayOps p xs = replayOps p ys := by
  have hbook : replayBook b xs = replayBook b ys := by
    have h1 := replayBook_balance hx
    rw [total_perm hm, total_perm hm, ← replayBook_balance hy] at h1
    exact add_right_cancel h1
  have h1 := (image_replayOps h hp hx).1
  rw [hbook] at h1
  exact h1.unique (image_replayOps h hp hy).1 (by rw [frame_replayOps, frame_replayOps, hs])

/-- A mint and then the burn of the same range and amount. -/
theorem mint_burn (h : Image p b) (hb : Bounded (b + Finsupp.single r amount) p.tick) :
    ((p.applyMintEvent r.lower r.upper amount).1.applyBurnEvent r.lower r.upper amount).1 = p := by
  have hframe := mint_frame (p := p) r.lower r.upper amount
  have htick := mint_tick (p := p) r.lower r.upper amount
  obtain ⟨q, hq, hi⟩ := image_mint h hb
  rw [hq] at hframe htick ⊢
  have hburn := image_burn hi (htick ▸ hb) (show amount ≤ (b + Finsupp.single r amount) r by simp)
  rw [add_tsub_cancel_right] at hburn
  exact hburn.unique h ((burn_frame ..).trans hframe)

/-- **The tick map mirrors the position book.** From the image of any positions, every replay of mints,
of burns of liquidity that is there and of consistent swaps ends in the image of the book it leaves;
the order of the mints and burns does not matter; and a mint followed by the burn of the same range
and amount changes nothing. -/
theorem replay_mirrors_book (positions : Multiset Position) (p : UniswapV3Pool)
    (h : Image p (bookOf positions)) (hp : Bounded (bookOf positions) p.tick) :
    (∀ ops, Replays p (bookOf positions) ops →
      Image (replayOps p ops) (replayBook (bookOf positions) ops)) ∧
    (∀ xs ys, Replays p (bookOf positions) xs → Replays p (bookOf positions) ys →
      (xs.filterMap Op.move?).Perm (ys.filterMap Op.move?) →
      xs.filterMap Op.swap? = ys.filterMap Op.swap? → replayOps p xs = replayOps p ys) ∧
    (∀ ops (r : Intervals.Interval Int) (amount : Nat), Replays p (bookOf positions) ops →
      Bounded (replayBook (bookOf positions) ops + Finsupp.single r amount) (replayOps p ops).tick →
      (((replayOps p ops).applyMintEvent r.lower r.upper amount).1.applyBurnEvent r.lower r.upper amount).1 =
        replayOps p ops) :=
  ⟨fun _ hr => (image_replayOps h hp hr).1,
    fun _ _ hx hy hm hs => replayOps_order h hp hx hy hm hs,
    fun _ _ _ hr hb => mint_burn (image_replayOps h hp hr).1 hb⟩

/-- A pool at price one whose only position is 5 on `[-60, 60)`. -/
def onePosition : UniswapV3Pool :=
  { poolType := .UniswapV3, address := 1, token0 := 2, token1 := 3, fee := 3000, tickSpacing := 60,
    sqrtPriceX96 := 2 ^ 96, tick := 0, liquidity := 5,
    ticks := ((∅ : TickMap).insert (-60) ⟨-60, 5, 5⟩).insert 60 ⟨60, -5, 5⟩,
    factory := 4, lastUpdated := 0, createdAt := 0, feeSource := .events, swapFeeMisses := [] }

/-- A second position comes on `[-60, 0)` and shares the lower tick. -/
theorem replay_mirrors_book_onePosition :
    Image (replayOps onePosition [.mint ⟨-60, 0, by decide⟩ 3])
      (replayBook (bookOf {⟨⟨-60, 60, by decide⟩, 5⟩}) [.mint ⟨-60, 0, by decide⟩ 3]) := by
  have hbook : bookOf {⟨⟨-60, 60, by decide⟩, 5⟩} = Finsupp.single ⟨-60, 60, by decide⟩ 5 := by simp [bookOf]
  have hone : Bounded (bookOf {⟨⟨-60, 60, by decide⟩, 5⟩}) onePosition.tick := by
    rw [hbook]
    refine ⟨fun t => ?_, by simp [onePosition]⟩
    rw [gross_single]; split <;> omega
  have htwo : Bounded (bookOf {⟨⟨-60, 60, by decide⟩, 5⟩} + Finsupp.single ⟨-60, 0, by decide⟩ 3)
      (Op.apply onePosition (.mint ⟨-60, 0, by decide⟩ 3)).tick := by
    have htick : (Op.apply onePosition (.mint ⟨-60, 0, by decide⟩ 3)).tick = onePosition.tick := mint_tick ..
    rw [htick, hbook]
    refine ⟨fun t => ?_, by simp [onePosition]⟩
    rw [gross_add, gross_single, gross_single]; split <;> split <;> omega
  have himage : Image onePosition (bookOf {⟨⟨-60, 60, by decide⟩, 5⟩}) := by
    rw [hbook, image_iff]
    refine ⟨fun t => ?_, by simp [onePosition]⟩
    unfold onePosition tickOf
    dsimp only
    rw [lookup_insert, lookup_insert, net_single, gross_single]
    by_cases h1 : t = 60
    · subst h1; simp
    · by_cases h2 : t = -60
      · subst h2; simp
      · simp [h1, h2]
  have hr : Replays onePosition (bookOf {⟨⟨-60, 60, by decide⟩, 5⟩}) [.mint ⟨-60, 0, by decide⟩ 3] := by
    apply Replays.cons
    · exact trivial
    · exact htwo
    · exact .nil _ _
  exact (replay_mirrors_book _ _ himage hone).1 _ hr

end EvmDexPool.V3
