import EvmDexPool.V2.StableCurve

/-!
# The Newton loop of a stable pool (`get_y`, `v2/pool.rs:205`)

`newton` is the loop over unbounded numbers, faulting where a step down would pass zero. From a reserve
that attains the target every iterate keeps a slope and stays within fifteen times the reserve (`Steady`),
so nothing in the source's loop wraps but the steps down, and those only towards a target of zero
(`Descends`): for any other the loop ends in an amount or in `!y`.
-/

namespace EvmDexPool.V2

open Fixed

/-- What a round of the loop comes to: the amount it finds, the one above that the special case takes, or
the one to go on from. -/
inductive Round
  | found (y : Nat)
  | above (y : Nat)
  | next (y : Nat)
deriving DecidableEq, Repr

/-- A round. `rescaled` is what the special case compares. -/
def newtonRound (rescaled : Nat → Nat) (x xy y : Nat) : Except Fault Round :=
  if slope x y = 0 then .error .panic
  else if curve x y < xy then
    let dy := (xy - curve x y) * EXP18 / slope x y
    if dy = 0 ∧ xy < rescaled (y + 1) then .ok (.above (y + 1)) else .ok (.next (y + max 1 dy))
  else
    let dy := (curve x y - xy) * EXP18 / slope x y
    if dy = 0 ∧ (curve x y = xy ∨ curve x (y - 1) < xy) then .ok (.found y)
    else if max 1 dy ≤ y then .ok (.next (y - max 1 dy)) else .error .overflow

/-- The loop, over the rounds that are left. -/
def newton (rescaled : Nat → Nat) (x xy : Nat) : (rounds y : Nat) → Except Fault Nat
  | 0, _ => .error (.error "!y")
  | rounds + 1, y =>
    match newtonRound rescaled x xy y with
    | .error e => .error e
    | .ok (.found z) => .ok z
    | .ok (.above z) => .ok z
    | .ok (.next z) => newton rescaled x xy rounds z

/-- No step towards a target of zero passes it. -/
def Descends (x : Nat) : (rounds y : Nat) → Prop
  | 0, _ => True
  | rounds + 1, y =>
    curve x y = 0 ∨
      (curve x y * EXP18 / slope x y ≤ y ∧ Descends x rounds (y - max 1 (curve x y * EXP18 / slope x y)))

section Loop
variable {rescaled left : Nat → Nat} {x xy y z rounds reserve : Nat}

theorem pos_of_curve (h : 1 ≤ curve x y) : 1 ≤ y := by
  rcases Nat.eq_zero_or_pos y with rfl | hy
  · rw [curve_zero] at h
    exact absurd h (by decide)
  · exact hy

/-- What a round can do, given a slope. -/
theorem newtonRound_cases (rescaled : Nat → Nat) (xy : Nat) (hs : 1 ≤ slope x y) :
    (curve x y < xy ∧
      (newtonRound rescaled x xy y = .ok (.next (y + max 1 ((xy - curve x y) * EXP18 / slope x y))) ∨
        (((xy - curve x y) * EXP18 < slope x y ∧ xy < rescaled (y + 1)) ∧
          newtonRound rescaled x xy y = .ok (.above (y + 1))))) ∨
    (xy ≤ curve x y ∧ (curve x y = xy ∨ curve x (y - 1) < xy) ∧ newtonRound rescaled x xy y = .ok (.found y)) ∨
    (xy < curve x y ∧ max 1 ((curve x y - xy) * EXP18 / slope x y) ≤ y ∧
      newtonRound rescaled x xy y = .ok (.next (y - max 1 ((curve x y - xy) * EXP18 / slope x y)))) ∨
    (xy < curve x y ∧ y < (curve x y - xy) * EXP18 / slope x y ∧ newtonRound rescaled x xy y = .error .overflow) := by
  unfold newtonRound
  rw [if_neg (Nat.pos_iff_ne_zero.1 hs)]
  by_cases hlt : curve x y < xy
  · rw [if_pos hlt]
    refine .inl ⟨hlt, ?_⟩
    dsimp only
    split
    · rename_i h
      exact .inr ⟨⟨(Nat.div_eq_zero_iff_lt hs).1 h.1, h.2⟩, rfl⟩
    · exact .inl rfl
  rw [if_neg hlt]
  dsimp only
  by_cases hfound : (curve x y - xy) * EXP18 / slope x y = 0 ∧ (curve x y = xy ∨ curve x (y - 1) < xy)
  · rw [if_pos hfound]
    exact .inr (.inl ⟨Nat.not_lt.1 hlt, hfound.2, rfl⟩)
  rw [if_neg hfound]
  have hgt : xy < curve x y := by
    refine lt_of_le_of_ne (Nat.not_lt.1 hlt) fun heq => hfound ⟨?_, .inl heq.symm⟩
    rw [heq, Nat.sub_self, Nat.zero_mul, Nat.zero_div]
  have hy : 1 ≤ y := pos_of_curve (show 1 ≤ curve x y by omega)
  by_cases hle : max 1 ((curve x y - xy) * EXP18 / slope x y) ≤ y
  · rw [if_pos hle]
    exact .inr (.inr (.inl ⟨hgt, hle, rfl⟩))
  · rw [if_neg hle]
    exact .inr (.inr (.inr ⟨hgt, by omega, rfl⟩))

/-! ## Every iterate is steady -/

/-- The slope at an iterate is large against the target, and the iterate not far from the reserve. -/
structure Steady (x xy reserve y : Nat) : Prop where
  slope : 1 ≤ slope x y
  reach : xy * EXP18 ≤ 14 * reserve * V2.slope x y
  bound : y ≤ 15 * reserve

theorem steady_start (hx : 2 ≤ x) (hr : xy ≤ curve x reserve) (hs : slope x reserve ≠ 0) : Steady x xy reserve reserve := by
  refine ⟨Nat.pos_of_ne_zero hs, ?_, by omega⟩
  rcases Nat.eq_zero_or_pos xy with rfl | hxy
  · rw [Nat.zero_mul]
    exact Nat.zero_le _
  · have hstep : 0 * slope x reserve ≤ curve x reserve * EXP18 := by
      rw [Nat.zero_mul]
      exact Nat.zero_le _
    exact steady_after_step hx hxy hr le_rfl (.inl hstep)

/-- A step is its quotient, or one. -/
theorem max_step (n m : Nat) : max 1 (n / m) * m ≤ n ∨ max 1 (n / m) = 1 := by
  by_cases h : 1 ≤ n / m
  · rw [max_eq_right h]
    exact .inl (Nat.div_mul_le_self n m)
  · exact .inr (max_eq_left (by omega))

/-- A round goes on from a steady iterate. -/
theorem Steady.next (h : Steady x xy reserve y) (hx : 2 ≤ x) (hr : xy ≤ curve x reserve)
    (hround : newtonRound rescaled x xy y = .ok (.next z)) : Steady x xy reserve z := by
  rcases newtonRound_cases rescaled xy h.slope with ⟨hlt, hup | ⟨-, habove⟩⟩ | ⟨-, -, hfound⟩ | ⟨hgt, hle, hdown⟩ | ⟨-, -, hfault⟩
  · cases hround.symm.trans hup
    have hy : y < reserve := by
      by_contra hge
      have := curve_mono (x := x) (Nat.not_lt.1 hge)
      omega
    have hstep : (xy - curve x y) * EXP18 / V2.slope x y ≤ 14 * reserve := by
      rw [Nat.div_le_iff_le_mul_add_pred h.slope]
      have := Nat.mul_le_mul_right EXP18 (Nat.sub_le xy (curve x y))
      have := h.reach
      rw [Nat.mul_comm (V2.slope x y)]
      omega
    have hmono : V2.slope x y ≤ V2.slope x (y + max 1 ((xy - curve x y) * EXP18 / V2.slope x y)) :=
      slope_mono (Nat.le_add_right _ _)
    exact ⟨h.slope.trans hmono, h.reach.trans (Nat.mul_le_mul_left _ hmono), by omega⟩
  · cases hround.symm.trans habove
  · cases hround.symm.trans hfound
  · cases hround.symm.trans hdown
    have hstep : max 1 ((curve x y - xy) * EXP18 / V2.slope x y) * V2.slope x y ≤ curve x y * EXP18 ∨
        max 1 ((curve x y - xy) * EXP18 / V2.slope x y) = 1 :=
      (max_step _ _).imp_left fun h => h.trans (Nat.mul_le_mul_right _ (Nat.sub_le _ _))
    refine ⟨slope_after_step hx (by omega) hstep, ?_, (Nat.sub_le _ _).trans h.bound⟩
    rcases Nat.eq_zero_or_pos xy with rfl | hxy
    · rw [Nat.zero_mul]
      exact Nat.zero_le _
    · have hmin : xy ≤ curve x (min y reserve) := by
        rcases le_total y reserve with hle | hle
        · rw [min_eq_left hle]
          exact hgt.le
        · rwa [min_eq_right hle]
      refine (steady_after_step hx hxy hmin (min_le_left _ _) hstep).trans (Nat.mul_le_mul_right _ ?_)
      exact Nat.mul_le_mul_left _ (min_le_right _ _)
  · cases hround.symm.trans hfault

/-! ## How it ends -/

/-- Towards a target that is not zero the loop ends in an amount or an error. -/
theorem newton_returns (hx : 2 ≤ x) (hxy : 1 ≤ xy) (hr : xy ≤ curve x reserve) :
    ∀ {rounds y : Nat}, Steady x xy reserve y → Returns (newton rescaled x xy rounds y)
  | 0, _, _ => returns_msg _
  | rounds + 1, y, h => by
    unfold newton
    rcases newtonRound_cases rescaled xy h.slope with ⟨-, hup | ⟨-, habove⟩⟩ | ⟨-, -, hfound⟩ | ⟨-, -, hdown⟩ | ⟨-, hpast, -⟩
    · rw [hup]
      exact newton_returns hx hxy hr (h.next hx hr hup)
    · rw [habove]
      exact returns_ok _
    · rw [hfound]
      exact returns_ok _
    · rw [hdown]
      exact newton_returns hx hxy hr (h.next hx hr hdown)
    · exact absurd (step_le hxy) (Nat.not_le.2 hpast)

/-- Towards zero it does as long as no step passes it. -/
theorem newton_returns_zero (hx : 2 ≤ x) :
    ∀ (rounds : Nat) {y : Nat}, 1 ≤ slope x y → (Returns (newton rescaled x 0 rounds y) ↔ Descends x rounds y)
  | 0, _, _ => ⟨fun _ => trivial, fun _ => returns_msg _⟩
  | rounds + 1, y, hs => by
    unfold newton Descends
    have hcases := newtonRound_cases rescaled 0 hs
    rw [Nat.sub_zero] at hcases
    rcases hcases with ⟨hlt, -⟩ | ⟨-, hzero, hfound⟩ | ⟨hgt, hle, hdown⟩ | ⟨hgt, hpast, hfault⟩
    · exact absurd hlt (Nat.not_lt_zero _)
    · rw [hfound]
      exact ⟨fun _ => .inl (hzero.resolve_right (Nat.not_lt_zero _)), fun _ => returns_ok _⟩
    · rw [hdown]
      have hnext := newton_returns_zero hx rounds (slope_after_step hx hgt (max_step _ _))
      dsimp only
      rw [hnext]
      refine ⟨fun h => .inr ⟨by omega, h⟩, fun h => ?_⟩
      rcases h with h | h
      · omega
      · exact h.2
    · rw [hfault]
      refine ⟨False.elim, fun h => ?_⟩
      rcases h with h | h <;> omega

/-- None does where no amount has a step beyond itself. -/
theorem descends_of (h : ∀ y, curve x y * EXP18 / slope x y ≤ y) : ∀ rounds y : Nat, Descends x rounds y
  | 0, _ => trivial
  | rounds + 1, y => .inr ⟨h y, descends_of h rounds _⟩

/-- The amount it ends in is on the curve, or just past it. -/
theorem newton_near : ∀ {rounds y : Nat}, newton rescaled x xy rounds y = .ok z → curve x z = xy ∨ curve x (z - 1) < xy
  | 0, _, h => by cases h
  | rounds + 1, y, h => by
    unfold newton at h
    rcases Nat.eq_zero_or_pos (slope x y) with h0 | hs
    · rw [newtonRound, if_pos h0] at h
      cases h
    rcases newtonRound_cases rescaled xy hs with ⟨hlt, hup | ⟨-, habove⟩⟩ | ⟨-, hnear, hfound⟩ | ⟨-, -, hdown⟩ | ⟨-, -, hfault⟩
    · rw [hup] at h
      exact newton_near h
    · rw [habove] at h
      cases h
      exact .inr hlt
    · rw [hfound] at h
      cases h
      exact hnear
    · rw [hdown] at h
      exact newton_near h
    · rw [hfault] at h
      cases h

/-- So it is not past an amount on the curve, the next amount being above it. -/
theorem newton_le {bound : Nat} (h : newton rescaled x xy rounds y = .ok z) (hb : xy ≤ curve x bound)
    (hb' : xy < curve x (bound + 1)) : z ≤ bound := by
  by_contra hgt
  rcases newton_near h with heq | hlt
  · have := curve_mono (x := x) (show bound + 1 ≤ z by omega)
    omega
  · have := curve_mono (x := x) (show bound ≤ z - 1 by omega)
    omega

/-- A start on the curve is the end. -/
theorem newton_of_eq (rescaled : Nat → Nat) (rounds : Nat) (hs : slope x y ≠ 0) (heq : curve x y = xy) :
    newton rescaled x xy (rounds + 1) y = .ok y := by
  have hround : newtonRound rescaled x xy y = .ok (.found y) := by
    unfold newtonRound
    rw [if_neg hs, if_neg (by omega)]
    dsimp only
    rw [heq, Nat.sub_self, Nat.zero_mul, Nat.zero_div, if_pos ⟨rfl, .inl rfl⟩]
  rw [newton, hround]

/-- What is `left` of the amount it ends in is on the curve or above it, if that holds of every amount that the special
case may take. -/
theorem newton_covers (hleft : ∀ z, z ≤ reserve → z ≤ left z)
    (hshortcut : ∀ y, y < reserve → curve x y < xy → (xy - curve x y) * EXP18 < slope x y → xy < rescaled (y + 1) →
      xy ≤ curve x (left (y + 1))) :
    ∀ {rounds y : Nat}, newton rescaled x xy rounds y = .ok z → z ≤ reserve → xy ≤ curve x (left z)
  | 0, _, h, _ => by cases h
  | rounds + 1, y, h, hz => by
    unfold newton at h
    rcases Nat.eq_zero_or_pos (slope x y) with h0 | hs
    · rw [newtonRound, if_pos h0] at h
      cases h
    rcases newtonRound_cases rescaled xy hs with
      ⟨hlt, hup | ⟨⟨hnear, hpast⟩, habove⟩⟩ | ⟨hge, -, hfound⟩ | ⟨-, -, hdown⟩ | ⟨-, -, hfault⟩
    · rw [hup] at h
      exact newton_covers hleft hshortcut h hz
    · rw [habove] at h
      cases h
      exact hshortcut y hz hlt hnear hpast
    · rw [hfound] at h
      cases h
      exact hge.trans (curve_mono (hleft _ hz))
    · rw [hdown] at h
      exact newton_covers hleft hshortcut h hz
    · rw [hfault] at h
      cases h

/-! ## From the reserve -/

/-- From a reserve that attained the target before the input side grew, the loop panics at once, ends at
once, or is steady. -/
theorem start_cases (reserve : Nat) {before : Nat} (hpos : 1 ≤ before) (hle : before ≤ x) :
    slope x reserve = 0 ∨ (slope x reserve ≠ 0 ∧ curve x reserve = curve before reserve) ∨
      (2 ≤ x ∧ curve before reserve < curve x reserve ∧ Steady x (curve before reserve) reserve reserve) := by
  by_cases hs : slope x reserve = 0
  · exact .inl hs
  have hmono : curve before reserve ≤ curve x reserve := curve_mono_left hle
  by_cases heq : curve x reserve = curve before reserve
  · exact .inr (.inl ⟨hs, heq⟩)
  have hx : 2 ≤ x := by
    by_contra hlt
    rw [show x = before by omega] at heq
    exact heq rfl
  exact .inr (.inr ⟨hx, by omega, steady_start hx hmono hs⟩)

theorem newton_start_le {before : Nat} (hpos : 1 ≤ before) (hle : before ≤ x)
    (h : newton rescaled x (curve before reserve) (rounds + 1) reserve = .ok z) : z ≤ reserve := by
  rcases start_cases reserve hpos hle with h0 | ⟨hs, heq⟩ | ⟨-, hlt, -⟩
  · rw [newton, newtonRound, if_pos h0] at h
    cases h
  · rw [newton_of_eq rescaled rounds hs heq] at h
    cases h
    exact le_rfl
  · exact newton_le h hlt.le (hlt.trans_le (curve_mono (Nat.le_succ _)))

/-- It ends in an amount or an error unless the slope at the reserve vanishes, or a target of zero is
stepped past. -/
theorem newton_start_returns (rescaled : Nat → Nat) {before : Nat} (rounds : Nat) (hpos : 1 ≤ before) (hle : before ≤ x) :
    Returns (newton rescaled x (curve before reserve) (rounds + 1) reserve) ↔
      slope x reserve ≠ 0 ∧ (curve before reserve = 0 → Descends x (rounds + 1) reserve) := by
  rcases start_cases reserve hpos hle with h0 | ⟨hs, heq⟩ | ⟨hx, hlt, hsteady⟩
  · rw [newton, newtonRound, if_pos h0]
    exact ⟨False.elim, fun h => absurd h0 h.1⟩
  · rw [newton_of_eq rescaled rounds hs heq]
    exact ⟨fun _ => ⟨hs, fun hzero => .inl (heq.trans hzero)⟩, fun _ => returns_ok _⟩
  · have hs := Nat.pos_iff_ne_zero.1 hsteady.slope
    by_cases hzero : curve before reserve = 0
    · rw [hzero, newton_returns_zero hx _ hsteady.slope]
      exact ⟨fun h => ⟨hs, fun _ => h⟩, fun h => h.2 rfl⟩
    · exact ⟨fun _ => ⟨hs, fun h => absurd h hzero⟩,
        fun _ => newton_returns hx (Nat.pos_of_ne_zero hzero) hlt.le hsteady⟩

end Loop

/-! ## The loop in words -/

/-- `a - b`, faulting below zero. -/
def usub (a b : Nat) : Except Fault Nat := if b ≤ a then .ok (a - b) else .error .overflow

theorem usub_of_le {a b : Nat} (h : b ≤ a) : usub a b = .ok (a - b) := if_pos h

/-- Where it does not fault, the wrapping subtraction is the same. -/
theorem usub_cases {a : Nat} (b : Nat) (ha : a < 2 ^ 256) : usub a b = .ok (wsub 256 a b) ∨ usub a b = .error .overflow := by
  unfold usub
  split
  · rename_i hle
    rw [wsub_of_le hle ha]
    exact .inl rfl
  · exact .inr rfl

namespace UniswapV2Pool
variable (p : UniswapV2Pool)

/-- `get_y` with subtractions that fault below zero. -/
def getYChecked (x0 xy : Nat) : (rounds y : Nat) → Except Fault Nat
  | 0, _ => .error (.error "!y")
  | rounds + 1, y =>
    let k := f x0 y
    if k < xy then do
      let rest ← usub xy k
      let dy ← udiv (wmul 256 rest EXP18) (d x0 y)
      if dy = 0 then
        if k = xy then .ok y
        else do
          let above ← p.k x0 (wadd 256 y 1)
          if above > xy then .ok (wadd 256 y 1) else getYChecked x0 xy rounds (wadd 256 y 1)
      else getYChecked x0 xy rounds (wadd 256 y dy)
    else do
      let rest ← usub k xy
      let dy ← udiv (wmul 256 rest EXP18) (d x0 y)
      if dy = 0 then
        if k = xy then .ok y
        else do
          let below ← usub y 1
          if f x0 below < xy then .ok y else getYChecked x0 xy rounds below
      else do
        let lower ← usub y dy
        getYChecked x0 xy rounds lower

theorem f_lt (x y : Nat) : f x y < 2 ^ 256 := (Nat.div_le_self _ _).trans_lt wmul_lt

/-- Where nothing faults for going below zero, the loop is the source's. -/
theorem getY_of_checked {p : UniswapV2Pool} {x xy : Nat} (hxy : xy < 2 ^ 256) : ∀ {rounds y : Nat}, y < 2 ^ 256 →
    p.getYChecked x xy rounds y ≠ .error .overflow → p.getY x xy rounds y = p.getYChecked x xy rounds y
  | 0, _, _, _ => rfl
  | rounds + 1, y, hy, h => by
    unfold getYChecked at h ⊢
    unfold getY
    dsimp only at h ⊢
    by_cases hlt : f x y < xy
    · rw [if_pos hlt] at h ⊢
      rw [if_pos hlt]
      rw [usub_of_le hlt.le, ← wsub_of_le hlt.le hxy, ok_bind] at h ⊢
      cases hdy : udiv (wmul 256 (wsub 256 xy (f x y)) EXP18) (d x y) with
      | error e => rfl
      | ok dy =>
        rw [hdy, ok_bind] at h
        rw [ok_bind, ok_bind]
        by_cases h0 : dy = 0
        · rw [if_pos h0, if_neg hlt.ne] at h
          rw [if_pos h0, if_pos h0, if_neg hlt.ne, if_neg hlt.ne]
          cases hk : p.k x (wadd 256 y 1) with
          | error e => rfl
          | ok above =>
            rw [hk, ok_bind] at h
            rw [ok_bind, ok_bind]
            by_cases habove : above > xy
            · rw [if_pos habove, if_pos habove]
            · rw [if_neg habove] at h ⊢
              rw [if_neg habove]
              exact getY_of_checked hxy wadd_lt h
        · rw [if_neg h0] at h ⊢
          rw [if_neg h0]
          exact getY_of_checked hxy wadd_lt h
    · rw [if_neg hlt] at h ⊢
      rw [if_neg hlt]
      rw [usub_of_le (Nat.not_lt.1 hlt), ← wsub_of_le (Nat.not_lt.1 hlt) (f_lt x y), ok_bind] at h ⊢
      cases hdy : udiv (wmul 256 (wsub 256 (f x y) xy) EXP18) (d x y) with
      | error e => rfl
      | ok dy =>
        rw [hdy, ok_bind] at h
        rw [ok_bind, ok_bind]
        by_cases h0 : dy = 0
        · rw [if_pos h0] at h ⊢
          rw [if_pos h0]
          by_cases heq : f x y = xy
          · rw [if_pos heq, if_pos (.inl heq)]
          · rw [if_neg heq] at h ⊢
            rcases usub_cases 1 hy with hok | hfault
            · rw [hok, ok_bind] at h
              rw [hok, ok_bind]
              by_cases hbelow : f x (wsub 256 y 1) < xy
              · rw [if_pos (.inr hbelow), if_pos hbelow]
              · rw [if_neg hbelow] at h
                rw [if_neg (not_or.2 ⟨heq, hbelow⟩), if_neg hbelow]
                exact getY_of_checked hxy wsub_lt h
            · rw [hfault] at h
              exact absurd rfl h
        · rw [if_neg h0] at h ⊢
          rw [if_neg h0]
          rcases usub_cases dy hy with hok | hfault
          · rw [hok, ok_bind] at h
            rw [hok, ok_bind]
            exact getY_of_checked hxy wsub_lt h
          · rw [hfault] at h
            exact absurd rfl h

/-- From a steady iterate it is the loop over unbounded numbers. -/
theorem getYChecked_eq {p : UniswapV2Pool} {rescaled : Nat → Nat} {x xy reserve : Nat}
    (hk : ∀ y, p.k x y = .ok (rescaled y)) (hx : 2 ≤ x) (hx' : x ≤ 2000000000000000000000000000)
    (hreserve : reserve ≤ 1000000000000000000000000000) (hr : xy ≤ curve x reserve) :
    ∀ {rounds y : Nat}, Steady x xy reserve y → p.getYChecked x xy rounds y = newton rescaled x xy rounds y
  | 0, _, _ => rfl
  | rounds + 1, y, h => by
    have hbound := h.bound
    obtain ⟨hf, hd, hfits⟩ := f_eq hx' (show y ≤ 15000000000000000000000000000 by omega)
    have hrfits := (f_eq hx' (show reserve ≤ 15000000000000000000000000000 by omega)).2.2
    have hxyfits : xy * EXP18 < 2 ^ 256 := (Nat.mul_le_mul_right _ hr).trans_lt hrfits
    have hnext : ∀ z, newtonRound rescaled x xy y = .ok (.next z) →
        z ≤ 15 * reserve ∧ p.getYChecked x xy rounds z = newton rescaled x xy rounds z := fun z hz =>
      ⟨(h.next hx hr hz).bound, getYChecked_eq hk hx hx' hreserve hr (h.next hx hr hz)⟩
    have hs := Nat.pos_iff_ne_zero.1 h.slope
    have hone : wadd 256 y 1 = y + 1 := wadd_of_lt (by omega)
    unfold getYChecked newton
    unfold newtonRound at hnext ⊢
    dsimp only
    rw [if_neg hs] at hnext ⊢
    rw [hf, hd]
    by_cases hlt : curve x y < xy
    · rw [if_pos hlt] at hnext ⊢
      have hstep := Nat.mul_le_mul_right EXP18 (Nat.sub_le xy (curve x y))
      rw [if_pos hlt, usub_of_le hlt.le, ok_bind, wmul_of_lt (by omega), udiv_of_pos h.slope, ok_bind]
      dsimp only at hnext ⊢
      generalize (xy - curve x y) * EXP18 / slope x y = dy at *
      by_cases h0 : dy = 0
      · subst h0
        rw [if_pos rfl, if_neg hlt.ne, hone, hk, ok_bind]
        by_cases habove : xy < rescaled (y + 1)
        · rw [if_pos habove, if_pos ⟨rfl, habove⟩]
        · have hnot : ¬((0 : Nat) = 0 ∧ xy < rescaled (y + 1)) := fun h => habove h.2
          rw [if_neg habove]
          rw [if_neg hnot, max_eq_left (Nat.zero_le 1)] at hnext ⊢
          exact (hnext _ rfl).2
      · have hnot : ¬(dy = 0 ∧ xy < rescaled (y + 1)) := fun h => h0 h.1
        rw [if_neg h0]
        rw [if_neg hnot, max_eq_right (Nat.pos_of_ne_zero h0)] at hnext ⊢
        obtain ⟨hz, heq⟩ := hnext _ rfl
        rw [wadd_of_lt (by omega)]
        exact heq
    · rw [if_neg hlt] at hnext ⊢
      have hstep := Nat.mul_le_mul_right EXP18 (Nat.sub_le (curve x y) xy)
      rw [if_neg hlt, usub_of_le (Nat.not_lt.1 hlt), ok_bind, wmul_of_lt (by omega), udiv_of_pos h.slope, ok_bind]
      dsimp only at hnext ⊢
      generalize (curve x y - xy) * EXP18 / slope x y = dy at *
      by_cases h0 : dy = 0
      · subst h0
        rw [if_pos rfl]
        by_cases heq : curve x y = xy
        · rw [if_pos heq, if_pos ⟨rfl, .inl heq⟩]
        have hy : 1 ≤ y := pos_of_curve (show 1 ≤ curve x y by omega)
        rw [if_neg heq, usub_of_le hy, ok_bind, (f_eq hx' (show y - 1 ≤ 15000000000000000000000000000 by omega)).1]
        by_cases hbelow : curve x (y - 1) < xy
        · rw [if_pos hbelow, if_pos ⟨rfl, .inr hbelow⟩]
        · have hnot : ¬((0 : Nat) = 0 ∧ (curve x y = xy ∨ curve x (y - 1) < xy)) := fun h => h.2.elim heq hbelow
          rw [if_neg hnot, max_eq_left (Nat.zero_le 1), if_pos hy] at hnext ⊢
          rw [if_neg hbelow]
          exact (hnext _ rfl).2
      · have hnot : ¬(dy = 0 ∧ (curve x y = xy ∨ curve x (y - 1) < xy)) := fun h => h0 h.1
        have hmax : max 1 dy = dy := max_eq_right (Nat.pos_of_ne_zero h0)
        rw [if_neg h0]
        rw [if_neg hnot] at hnext ⊢
        by_cases hle : dy ≤ y
        · rw [if_pos (hmax.trans_le hle), hmax] at hnext ⊢
          rw [usub_of_le hle, ok_bind]
          exact (hnext _ rfl).2
        · rw [if_neg (fun h => hle (hmax.symm.trans_le h)), usub, if_neg hle]
          rfl

/-- From the reserve, the steady case being the only one with more than a round. -/
theorem getYChecked_start {p : UniswapV2Pool} {rescaled : Nat → Nat} {x before reserve : Nat}
    (hk : ∀ y, p.k x y = .ok (rescaled y)) (hpos : 1 ≤ before) (hle : before ≤ x) (hx : x ≤ 2000000000000000000000000000)
    (hreserve : reserve ≤ 1000000000000000000000000000) (rounds : Nat) :
    p.getYChecked x (curve before reserve) (rounds + 1) reserve =
      newton rescaled x (curve before reserve) (rounds + 1) reserve := by
  obtain ⟨hf, hd, hfits⟩ := f_eq hx (show reserve ≤ 15000000000000000000000000000 by omega)
  have hmono : curve before reserve ≤ curve x reserve := curve_mono_left hle
  rcases start_cases reserve hpos hle with h0 | ⟨hs, heq⟩ | ⟨hx2, -, hsteady⟩
  · rw [newton, newtonRound, if_pos h0, getYChecked]
    dsimp only
    rw [hf, hd, if_neg (Nat.not_lt.2 hmono), usub_of_le hmono, ok_bind, udiv, if_pos h0]
    rfl
  · rw [newton_of_eq rescaled rounds hs heq, getYChecked]
    rw [hf, hd, heq, if_neg (lt_irrefl _), usub_of_le le_rfl, ok_bind, Nat.sub_self,
      wmul_of_lt (by rw [Nat.zero_mul]; exact Nat.two_pow_pos _), Nat.zero_mul, udiv_of_pos (Nat.pos_of_ne_zero hs), ok_bind,
      Nat.zero_div, if_pos rfl, if_pos rfl]
  · exact getYChecked_eq hk hx2 hx hreserve hmono hsteady

end UniswapV2Pool

end EvmDexPool.V2
