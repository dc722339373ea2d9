import EvmDexPool.V2.ConstantProduct

/-!
# Trades on one pair, one after the other

A trade at a quote of the pair as it is, of either kind, applies and does not lower the product of the reserves
(`Quoted.applies`). So over any such trades nobody takes one token out without putting the other in (`trades_keep`); and an
input sold in parts is paid no more than all of it at once (`parts_payLess`).
-/

namespace EvmDexPool.V2

open Fixed

namespace UniswapV2Pool

variable {p q : UniswapV2Pool} {tokenIn : Address} {amountIn amountOut now : Nat}

/-- A constant-product pair with reserves of its own words. -/
structure Sound (p : UniswapV2Pool) : Prop where
  type : p.poolType = .UniswapV2
  fee : p.fee < FEE_DENOMINATOR
  tokens : p.token0 ≠ p.token1
  reserve0 : 0 < p.reserve0 ∧ p.reserve0 < 2 ^ 112
  reserve1 : 0 < p.reserve1 ∧ p.reserve1 < 2 ^ 112

/-- The two amounts of a trade are a quote of the pair, for what goes in or for what comes out. -/
def Quoted (p : UniswapV2Pool) (tokenIn : Address) (amountIn amountOut : Nat) : Prop :=
  p.calculateOutput tokenIn amountIn = .ok amountOut ∨
    ∃ tokenOut, ((tokenIn = p.token0 ∧ tokenOut = p.token1) ∨ (tokenIn = p.token1 ∧ tokenOut = p.token0)) ∧
      p.calculateInput tokenOut amountOut = .ok amountIn

/-- Trades at quotes, each applied before the next is quoted. What a reserve comes to fits its word. -/
inductive Trades : UniswapV2Pool → UniswapV2Pool → Prop
  | done (p : UniswapV2Pool) : Trades p p
  | trade {p q : UniswapV2Pool} {tokenIn : Address} {amountIn amountOut now : Nat} (hquoted : p.Quoted tokenIn amountIn amountOut)
      (hword : p.reserveOf tokenIn + amountIn < 2 ^ 112) (hrest : Trades (p.applySwap now tokenIn amountIn amountOut).1 q) :
      Trades p q

theorem Sound.valid (h : p.Sound) : p.isValid := ⟨h.reserve0.1.ne', h.reserve1.1.ne'⟩

theorem Sound.reserveOf (h : p.Sound) (token : Address) : 0 < p.reserveOf token ∧ p.reserveOf token < 2 ^ 112 := by
  unfold UniswapV2Pool.reserveOf
  split
  · exact h.reserve0
  · exact h.reserve1

theorem Sound.reserveAgainst (h : p.Sound) (token : Address) : 0 < p.reserveAgainst token ∧ p.reserveAgainst token < 2 ^ 112 := by
  unfold UniswapV2Pool.reserveAgainst
  split
  · exact h.reserve1
  · exact h.reserve0

/-- An output quote is the curve's. -/
theorem Sound.output (h : p.Sound) (htoken : tokenIn = p.token0 ∨ tokenIn = p.token1) (h0 : 0 < amountIn) (ha : amountIn < 2 ^ 112) :
    p.calculateOutput tokenIn amountIn =
      .ok (exactOutput (p.reserveOf tokenIn) (p.reserveAgainst tokenIn) (p.net amountIn)) := by
  rw [calculateOutput_eq htoken]
  exact outputQuote_of_lt h.fee h.type h.valid (h.reserveOf tokenIn) (h.reserveAgainst tokenIn) h0 ha

/-- What there is to know of a quote: below the reserve it comes out of, and covered on the curve by what goes in. -/
theorem Quoted.covers (hq : p.Quoted tokenIn amountIn amountOut) (h : p.Sound) (ha : amountIn < 2 ^ 112) :
    (tokenIn = p.token0 ∨ tokenIn = p.token1) ∧ amountOut < p.reserveAgainst tokenIn ∧
      amountOut ≤ exactOutput (p.reserveOf tokenIn) (p.reserveAgainst tokenIn) (p.net amountIn) := by
  have hin := h.reserveOf tokenIn
  have hout := h.reserveAgainst tokenIn
  rcases hq with hq | ⟨tokenOut, htokens, hq⟩
  · have htoken : tokenIn = p.token0 ∨ tokenIn = p.token1 := by
      by_contra hno
      push Not at hno
      rw [calculateOutput, if_neg hno.1, if_neg hno.2] at hq
      cases hq
    have h0 : 0 < amountIn := Nat.pos_of_ne_zero fun h0 => by
      rw [calculateOutput_eq htoken, h0, outputQuote, if_pos rfl] at hq
      cases hq
    rw [h.output htoken h0 ha] at hq
    cases hq
    exact ⟨htoken, exactOutput_lt _ hin.1 hout.1, le_rfl⟩
  · have hquote : p.inputQuote (p.reserveOf tokenIn) (p.reserveAgainst tokenIn) amountOut = .ok amountIn := by
      unfold UniswapV2Pool.reserveOf UniswapV2Pool.reserveAgainst
      unfold calculateInput at hq
      rcases htokens with ⟨rfl, rfl⟩ | ⟨rfl, rfl⟩
      · rw [if_neg h.tokens.symm, if_pos rfl] at hq
        rw [if_pos rfl, if_pos rfl]
        exact hq
      · rw [if_pos rfl] at hq
        rw [if_neg h.tokens.symm, if_neg h.tokens.symm]
        exact hq
    obtain ⟨-, hlt, hcovers, -⟩ := inputQuote_ok h.fee hin.2 hout.2 hquote
    exact ⟨htokens.imp And.left And.left, hlt, le_exactOutput hin.1 hlt hcovers⟩

/-- **A quoted trade applies**, and moves the reserves by its amounts. -/
theorem Quoted.applies (hq : p.Quoted tokenIn amountIn amountOut) (h : p.Sound) (hword : p.reserveOf tokenIn + amountIn < 2 ^ 112)
    (now : Nat) : (p.applySwap now tokenIn amountIn amountOut).2 = .ok () ∧
      (p.applySwap now tokenIn amountIn amountOut).1 =
        if tokenIn = p.token0 then
          { p with reserve0 := p.reserve0 + amountIn, reserve1 := p.reserve1 - amountOut, lastUpdated := now }
        else { p with reserve0 := p.reserve0 - amountOut, reserve1 := p.reserve1 + amountIn, lastUpdated := now } := by
  obtain ⟨htoken, hlt, -⟩ := hq.covers h (by omega)
  have h0 := h.reserve0
  have h1 := h.reserve1
  unfold UniswapV2Pool.reserveOf at hword
  unfold UniswapV2Pool.reserveAgainst at hlt
  unfold applySwap
  by_cases ht : tokenIn = p.token0
  · rw [if_pos ht] at hword hlt
    rw [if_pos ht, if_pos ht, if_neg (by omega), wadd_of_lt (by omega), wsub_of_le hlt.le (by omega)]
    exact ⟨rfl, rfl⟩
  · rw [if_neg ht] at hword hlt
    rw [if_neg ht, if_neg ht, if_pos (htoken.resolve_left ht), if_neg (by omega), wadd_of_lt (by omega),
      wsub_of_le hlt.le (by omega)]
    exact ⟨rfl, rfl⟩

/-- **What a quoted trade keeps.** -/
theorem Quoted.keeps (hq : p.Quoted tokenIn amountIn amountOut) (h : p.Sound) (hword : p.reserveOf tokenIn + amountIn < 2 ^ 112)
    (now : Nat) : (p.applySwap now tokenIn amountIn amountOut).1.Sound ∧
      p.reserve0 * p.reserve1 ≤ (p.applySwap now tokenIn amountIn amountOut).1.reserve0 *
        (p.applySwap now tokenIn amountIn amountOut).1.reserve1 := by
  obtain ⟨htoken, hlt, hle⟩ := hq.covers h (by omega)
  have hin := h.reserveOf tokenIn
  have hout := h.reserveAgainst tokenIn
  have hproduct : p.reserveOf tokenIn * p.reserveAgainst tokenIn ≤
      (p.reserveOf tokenIn + amountIn) * (p.reserveAgainst tokenIn - amountOut) :=
    (exactOutput_product hin.1 hout.1 (net_le p amountIn)).trans (Nat.mul_le_mul_left _ (Nat.sub_le_sub_left hle _))
  rw [(hq.applies h hword now).2]
  unfold UniswapV2Pool.reserveOf at hin hword hproduct
  unfold UniswapV2Pool.reserveAgainst at hlt hout hproduct
  by_cases ht : tokenIn = p.token0
  · simp only [if_pos ht] at hin hlt hout hword hproduct ⊢
    exact ⟨⟨h.type, h.fee, h.tokens, ⟨Nat.add_pos_left hin.1 _, hword⟩, Nat.sub_pos_of_lt hlt, (Nat.sub_le _ _).trans_lt hout.2⟩,
      hproduct⟩
  · simp only [if_neg ht] at hin hlt hout hword hproduct ⊢
    refine ⟨⟨h.type, h.fee, h.tokens, ⟨Nat.sub_pos_of_lt hlt, (Nat.sub_le _ _).trans_lt hout.2⟩, Nat.add_pos_left hin.1 _, hword⟩, ?_⟩
    rw [Nat.mul_comm p.reserve0, Nat.mul_comm (p.reserve0 - amountOut)]
    exact hproduct

theorem Trades.keep (h : Trades p q) (hp : p.Sound) : q.Sound ∧ p.reserve0 * p.reserve1 ≤ q.reserve0 * q.reserve1 := by
  induction h with
  | done => exact ⟨hp, le_rfl⟩
  | trade hquoted hword _ ih =>
    obtain ⟨hsound, hle⟩ := hquoted.keeps hp hword _
    exact ⟨(ih hsound).1, hle.trans (ih hsound).2⟩

end UniswapV2Pool

/-- Where one factor has fallen and the product has not, the other has risen. -/
theorem factor_rises {a b a' b' : Nat} (hb : 0 < b) (hlt : a' < a) (hle : a * b ≤ a' * b') : b < b' := by
  by_contra hnot
  have hless : a' * b' ≤ a' * b := Nat.mul_le_mul_left _ (Nat.le_of_not_lt hnot)
  have hmore : a' * b < a * b := Nat.mul_lt_mul_of_pos_right hlt hb
  omega

open UniswapV2Pool

/-- **Trades at quotes take nothing for nothing.** Over any trades at the pair's own quotes, of either kind and in either
direction, the product of the reserves does not fall; a reserve that has gone down has the other one gone up; and
whatever is quoted next applies. -/
theorem trades_keep {p q : UniswapV2Pool} (hp : p.Sound) (h : Trades p q) :
    p.reserve0 * p.reserve1 ≤ q.reserve0 * q.reserve1 ∧ (q.reserve0 < p.reserve0 → p.reserve1 < q.reserve1) ∧
      (q.reserve1 < p.reserve1 → p.reserve0 < q.reserve0) ∧
      ∀ now tokenIn amountIn amountOut, q.Quoted tokenIn amountIn amountOut → q.reserveOf tokenIn + amountIn < 2 ^ 112 →
        (q.applySwap now tokenIn amountIn amountOut).2 = .ok () := by
  obtain ⟨hq, hle⟩ := h.keep hp
  refine ⟨hle, fun hlt => factor_rises hp.reserve1.1 hlt hle, fun hlt => ?_, fun now _ _ _ hquoted hword =>
    (hquoted.applies hq hword now).1⟩
  rw [Nat.mul_comm p.reserve0, Nat.mul_comm q.reserve0] at hle
  exact factor_rises hp.reserve0.1 hlt hle

/-- A pair that trades a thousand in, at its quote, and then asks the input for a thousand out. -/
theorem trades_keep_twice : ∃ q, Trades evenPair q ∧ evenPair.reserve0 * evenPair.reserve1 ≤ q.reserve0 * q.reserve1 := by
  have hsold : evenPair.Quoted 2 1000 996 := .inl (by decide)
  have hbought : (evenPair.applySwap 0 2 1000 996).1.Quoted 3 1004 1000 := .inr ⟨2, .inr ⟨rfl, rfl⟩, by decide⟩
  have htrades : Trades (evenPair.applySwap 0 2 1000 996).1 _ := @Trades.trade _ _ _ _ _ 0 hbought (by decide) (.done _)
  have htrades : Trades evenPair _ := .trade hsold (by decide) htrades
  exact ⟨_, htrades, (trades_keep ⟨rfl, by decide, by decide, by decide, by decide⟩ htrades).1⟩

/-! ## Selling in parts -/

/-- The second part of an input is sold on a curve that the first has moved, with its fee left on it. -/
theorem exactOutput_parts {reserveIn reserveOut first second net n : Nat} (hin : 0 < reserveIn) (hout : 0 < reserveOut)
    (hnet : net ≤ first * FEE_DENOMINATOR) (hsecond : second = exactOutput (reserveIn + first)
      (reserveOut - exactOutput reserveIn reserveOut net) n) :
    exactOutput reserveIn reserveOut net + second ≤ exactOutput reserveIn reserveOut (net + n) := by
  have hlt := exactOutput_lt net hin hout
  have hfirst := exactOutput_mul_le reserveIn reserveOut net
  generalize exactOutput reserveIn reserveOut net = x at *
  obtain ⟨left, rfl⟩ := Nat.exists_eq_add_of_le hlt.le
  have hleft : 0 < left := by omega
  rw [Nat.add_sub_cancel_left] at hsecond
  have hlt' : second < left := hsecond ▸ exactOutput_lt n (Nat.add_pos_left hin first) hleft
  have hmul := exactOutput_mul_le (reserveIn + first) left n
  rw [← hsecond] at hmul
  obtain ⟨rest, rfl⟩ := Nat.exists_eq_add_of_le hlt'.le
  refine le_exactOutput hin (by omega) ?_
  have hrest : x + (second + rest) - (x + second) = rest := by omega
  rw [hrest]
  have hx : x * reserveIn * FEE_DENOMINATOR ≤ net * (second + rest) := by
    have hexpand : x * (reserveIn * FEE_DENOMINATOR + net) = x * reserveIn * FEE_DENOMINATOR + net * x := by ring
    have hexpand' : net * (x + (second + rest)) = net * (second + rest) + net * x := by ring
    omega
  have hy : second * reserveIn * FEE_DENOMINATOR + first * FEE_DENOMINATOR * second ≤ n * rest := by
    have hexpand : second * ((reserveIn + first) * FEE_DENOMINATOR + n) =
        second * reserveIn * FEE_DENOMINATOR + first * FEE_DENOMINATOR * second + n * second := by ring
    have hexpand' : n * (second + rest) = n * rest + n * second := by ring
    omega
  have hfee : net * second ≤ first * FEE_DENOMINATOR * second := Nat.mul_le_mul_right _ hnet
  calc reserveIn * (x + second) * FEE_DENOMINATOR
      = x * reserveIn * FEE_DENOMINATOR + second * reserveIn * FEE_DENOMINATOR := by ring
    _ ≤ net * (second + rest) + second * reserveIn * FEE_DENOMINATOR := Nat.add_le_add_right hx _
    _ = net * rest + (net * second + second * reserveIn * FEE_DENOMINATOR) := by ring
    _ ≤ net * rest + n * rest := Nat.add_le_add_left (by omega) _
    _ = (net + n) * rest := (Nat.add_mul _ _ _).symm

namespace UniswapV2Pool

variable {p : UniswapV2Pool} {tokenIn : Address}

/-- The amounts sold one after the other, each at the quote of the pair that the ones before have left: what they
are paid in all. -/
def sell (p : UniswapV2Pool) (now : Nat) (tokenIn : Address) : List Nat → Except Fault Nat
  | [] => .ok 0
  | amount :: amounts => do
    let amountOut ← p.calculateOutput tokenIn amount
    let rest ← (p.applySwap now tokenIn amount amountOut).1.sell now tokenIn amounts
    .ok (amountOut + rest)

/-- What selling the parts comes to, against selling their sum. -/
theorem sell_le (now : Nat) (htoken : tokenIn = p.token0 ∨ tokenIn = p.token1) {amounts : List Nat}
    (hpos : ∀ amount ∈ amounts, 0 < amount) (hp : p.Sound) (hword : p.reserveOf tokenIn + amounts.sum < 2 ^ 112) :
    ∃ paid, p.sell now tokenIn amounts = .ok paid ∧
      paid ≤ exactOutput (p.reserveOf tokenIn) (p.reserveAgainst tokenIn) (p.net amounts.sum) := by
  induction amounts generalizing p with
  | nil => exact ⟨0, rfl, Nat.zero_le _⟩
  | cons amount amounts ih =>
    rw [List.sum_cons] at hword ⊢
    have hin := hp.reserveOf tokenIn
    have hout := hp.reserveAgainst tokenIn
    have hquote := hp.output htoken (hpos amount List.mem_cons_self) (by omega)
    have hquoted : p.Quoted tokenIn amount _ := .inl hquote
    have happlied := (hquoted.applies hp (by omega) now).2
    have hsound := (hquoted.keeps hp (by omega) now).1
    generalize hq : (p.applySwap now tokenIn amount _).1 = q at happlied hsound
    have hof : q.reserveOf tokenIn = p.reserveOf tokenIn + amount := by
      rw [happlied]
      unfold UniswapV2Pool.reserveOf
      split <;> simp_all
    have hagainst : q.reserveAgainst tokenIn =
        p.reserveAgainst tokenIn - exactOutput (p.reserveOf tokenIn) (p.reserveAgainst tokenIn) (p.net amount) := by
      rw [happlied]
      unfold UniswapV2Pool.reserveAgainst
      split <;> simp_all
    have hfee : q.fee = p.fee ∧ q.token0 = p.token0 ∧ q.token1 = p.token1 := by
      rw [happlied]
      split <;> exact ⟨rfl, rfl, rfl⟩
    obtain ⟨paid, hsell, hle⟩ := ih (hfee.2.1.symm ▸ hfee.2.2.symm ▸ htoken) (fun a ha => hpos a (List.mem_cons_of_mem _ ha)) hsound
      (by rw [hof]; omega)
    refine ⟨_, by rw [sell, hquote, ok_bind, hq, hsell, ok_bind], ?_⟩
    have hparts := exactOutput_parts (n := p.net amounts.sum) hin.1 hout.1 (net_le p amount) rfl
    have hnet : p.net (amount + amounts.sum) = p.net amount + p.net amounts.sum := Nat.add_mul _ _ _
    have hnet' : q.net amounts.sum = p.net amounts.sum := by unfold net; rw [hfee.1]
    rw [hof, hagainst, hnet'] at hle
    rw [hnet]
    omega

end UniswapV2Pool

/-- **Selling in parts is paid no more than selling at once.** However an input is split, every part has a quote on the pair
that the parts before it have left, and they come to no more than the quote for the whole. -/
theorem parts_payLess {p : UniswapV2Pool} (hp : p.Sound) (now : Nat) {tokenIn : Address}
    (htoken : tokenIn = p.token0 ∨ tokenIn = p.token1) {amounts : List Nat} (hne : amounts ≠ [])
    (hpos : ∀ amount ∈ amounts, 0 < amount) (hword : p.reserveOf tokenIn + amounts.sum < 2 ^ 112) :
    ∃ paid whole, p.sell now tokenIn amounts = .ok paid ∧ p.calculateOutput tokenIn amounts.sum = .ok whole ∧ paid ≤ whole := by
  obtain ⟨paid, hsell, hle⟩ := sell_le now htoken hpos hp hword
  have hsum : 0 < amounts.sum := by
    obtain ⟨amount, rest, rfl⟩ := List.exists_cons_of_ne_nil hne
    exact Nat.lt_of_lt_of_le (hpos amount List.mem_cons_self) (Nat.le_add_right _ _)
  exact ⟨paid, _, hsell, hp.output htoken hsum (by omega), hle⟩

/-- A thousand in three parts. -/
theorem parts_payLess_thousand : ∃ paid whole, evenPair.sell 0 2 [500, 300, 200] = .ok paid ∧
    evenPair.calculateOutput 2 1000 = .ok whole ∧ paid ≤ whole :=
  parts_payLess ⟨rfl, by decide, by decide, by decide, by decide⟩ 0 (.inl rfl) (by decide) (by decide) (by decide)

end EvmDexPool.V2
