import Mathlib.Data.Int.Range
import EvmDexPool.Lib.Bitmaps
import EvmDexPool.V3.Pool
import EvmDexPool.V3.TickMath

/-!
# Tick enumeration (`v3/fetcher.rs:258-476`)

| here | there |
| --- | --- |
| `TickReads`   | the calls on the pool contract, at one block |
| `wordTicks`   | the arms that ask for every bitmap word between the two end ticks |
| `treeTicks`   | the arm that goes down the tick tree |
| `tickIndices` | the indices `fetch_v3_ticks` decodes |

A multicall's answers come in the order of its calls, so calls made chunk by chunk are made one by one here.
Arithmetic on `i32` and casts to `i16` wrap.
-/

namespace EvmDexPool.V3

open Std

/-- `SECOND_LAYER_OFFSET` (fetcher.rs:338). -/
def SECOND_LAYER_OFFSET : Int := 3466

/-- What the contract answers: words by their index, and a tick's gross and net liquidity. -/
structure TickReads where
  tickBitmap : Int → Except Fault Nat
  tickTable : Int → Except Fault Nat
  tickTreeRoot : Except Fault Nat
  tickTreeSecondLayer : Int → Except Fault Nat
  ticks : Int → Except Fault (Nat × Int)

/-- The bits of a word that is not zero (fetcher.rs:292-294). -/
def initializedBits (bitmap : Nat) : List Nat := if bitmap = 0 then [] else Bitmaps.bits 256 bitmap

namespace UniswapV3Pool
variable (p : UniswapV3Pool)

/-- `tick_to_word` (pool.rs:391), `compressed >> 8` at its end. -/
def tickToWord (tick : Int) : Int :=
  let compressed := tick.tdiv p.tickSpacing
  let compressed := if tick < 0 ∧ tick.tmod p.tickSpacing ≠ 0 then compressed - 1 else compressed
  compressed / 256

/-- The words from the one of `MIN_TICK` to the one of `MAX_TICK`. -/
def words : List Int := Int.range (p.tickToWord MIN_TICK) (p.tickToWord MAX_TICK + 1)

/-- One word after the other (fetcher.rs:266-304, 384-420). -/
def wordTicks (read : Int → Except Fault Nat) : Except Fault (List Int) := do
  let bitmaps ← p.words.mapM fun word => read (Fixed.wrapSigned 16 word)
  .ok ((p.words.zip bitmaps).flatMap fun e => (initializedBits e.2).map fun i : Nat =>
    Fixed.wrapSigned 32 (Fixed.wrapSigned 32 (e.1 * 256 + i) * p.tickSpacing))

end UniswapV3Pool

/-- Down the tree (fetcher.rs:305-381). -/
def treeTicks (reads : TickReads) : Except Fault (List Int) := do
  let root ← reads.tickTreeRoot
  if root = 0 then .ok []
  else do
    let secondLayerIndices := Bitmaps.bits 32 root
    let secondLayer ← secondLayerIndices.mapM fun i : Nat => reads.tickTreeSecondLayer i
    let tickTableIndices := (secondLayerIndices.zip secondLayer).flatMap fun e => (initializedBits e.2).map fun bit : Nat =>
      Fixed.wrapSigned 16 (e.1 * 256 + bit - SECOND_LAYER_OFFSET)
    let tickTable ← tickTableIndices.mapM reads.tickTable
    .ok ((tickTableIndices.zip tickTable).flatMap fun e => ((initializedBits e.2).map fun bit : Nat =>
      Fixed.wrapSigned 32 (Fixed.wrapSigned 32 (e.1 * 256) + bit)).filter fun tick => MIN_TICK ≤ tick ∧ tick ≤ MAX_TICK)

/-- The indices that are fetched next (fetcher.rs:264-421). -/
def UniswapV3Pool.tickIndices (p : UniswapV3Pool) (reads : TickReads) : Except Fault (List Int) :=
  match p.poolType with
  | .UniswapV3 | .RamsesCL | .PancakeV3 => p.wordTicks reads.tickBitmap
  | .AlgebraV3 => treeTicks reads
  | .AlgebraTwoSideFee | .AlgebraPoolFeeInState => p.wordTicks reads.tickTable

/-- `fetch_v3_ticks` (fetcher.rs:258): a tick that does not fit the call's 24 bits would panic. -/
def UniswapV3Pool.fetchV3Ticks (p : UniswapV3Pool) (reads : TickReads) : Except Fault UniswapV3Pool := do
  let indices ← p.tickIndices reads
  let answers ← indices.mapM fun tick => if Fixed.wrapSigned 24 tick = tick then reads.ticks tick else .error .panic
  .ok { p with ticks := (indices.zip answers).foldl (fun m e => m.insert e.1 ⟨e.1, e.2.2, e.2.1⟩) ∅ }

/-! ## The bitmaps as the contracts store them -/

section Storage
variable (T : Finset Int)

/-- The word of ticks counted in units of the spacing. -/
def tickWord (tickSpacing n : Int) : Nat := Bitmaps.word 256 fun b => (n * 256 + b) * tickSpacing ∈ T

/-- The tree over the words of raw ticks: which of them are not empty, and which of those words. -/
def treeSecondLayer (m : Int) : Nat :=
  Bitmaps.word 256 fun b => ∃ t ∈ T, t / 256 + SECOND_LAYER_OFFSET = m * 256 + b

def treeRoot : Nat := Bitmaps.word 32 fun b => ∃ t ∈ T, (t / 256 + SECOND_LAYER_OFFSET) / 256 = b

/-- Every word that can be asked for is answered as it is stored. -/
def TickReads.Stores (reads : TickReads) (poolType : V3PoolType) (tickSpacing : Int) : Prop :=
  match poolType with
  | .UniswapV3 | .RamsesCL | .PancakeV3 =>
    ∀ n, -2 ^ 15 ≤ n → n < 2 ^ 15 → reads.tickBitmap n = .ok (tickWord T tickSpacing n)
  | .AlgebraV3 =>
    reads.tickTreeRoot = .ok (treeRoot T) ∧
      (∀ m, -2 ^ 15 ≤ m → m < 2 ^ 15 → reads.tickTreeSecondLayer m = .ok (treeSecondLayer T m)) ∧
      ∀ n, -2 ^ 15 ≤ n → n < 2 ^ 15 → reads.tickTable n = .ok (tickWord T 1 n)
  | .AlgebraTwoSideFee | .AlgebraPoolFeeInState =>
    ∀ n, -2 ^ 15 ≤ n → n < 2 ^ 15 → reads.tickTable n = .ok (tickWord T tickSpacing n)

end Storage

theorem initializedBits_eq (bitmap : Nat) : initializedBits bitmap = Bitmaps.bits 256 bitmap := by
  unfold initializedBits
  split
  · next h => rw [h, Bitmaps.bits_zero]
  · rfl

/-! ## Words -/

section Words
variable {p : UniswapV3Pool} {T : Finset Int}

/-- Both divisions go down. -/
theorem tickToWord_eq (h : 0 < p.tickSpacing) (tick : Int) : p.tickToWord tick = tick / p.tickSpacing / 256 := by
  unfold UniswapV3Pool.tickToWord
  dsimp only
  congr 1
  rw [Int.tdiv_eq_ediv, Int.sign_eq_one_of_pos h]
  by_cases hneg : tick < 0
  · by_cases hdvd : p.tickSpacing ∣ tick
    · rw [if_neg (fun hn => hn.2 (Int.tmod_eq_zero_of_dvd hdvd)), if_pos (.inr hdvd), add_zero]
    · rw [if_pos ⟨hneg, mt Int.dvd_of_tmod_eq_zero hdvd⟩, if_neg (by omega)]
      omega
  · rw [if_neg (fun hn => hneg hn.1), if_pos (.inl (by omega)), add_zero]

theorem mem_words (h : 0 < p.tickSpacing) {n : Int} : n ∈ p.words ↔
    MIN_TICK / p.tickSpacing / 256 ≤ n ∧ n ≤ MAX_TICK / p.tickSpacing / 256 := by
  unfold UniswapV3Pool.words
  rw [Int.mem_range_iff, tickToWord_eq h, tickToWord_eq h]
  omega

theorem words_sorted (p : UniswapV3Pool) : p.words.Pairwise (· < ·) := by
  unfold UniswapV3Pool.words Int.range
  rw [List.pairwise_map]
  exact List.pairwise_lt_range.imp fun h => by omega

/-- Every word can be asked for. -/
theorem words_fit (h : 0 < p.tickSpacing) {n : Int} (hn : n ∈ p.words) : -2 ^ 15 ≤ n ∧ n < 2 ^ 15 := by
  obtain ⟨hlo, hhi⟩ := (mem_words h).1 hn
  have hmin : MIN_TICK ≤ MIN_TICK / p.tickSpacing := by
    rw [Int.le_ediv_iff_mul_le h]
    unfold MIN_TICK
    nlinarith
  have hmax : MAX_TICK / p.tickSpacing ≤ MAX_TICK := Int.ediv_le_self _ (by decide)
  unfold MIN_TICK at hmin hlo
  unfold MAX_TICK at hmax hhi
  omega

/-- The words keep the ticks in units of the spacing, and give them back. -/
theorem wordTicks_eq {read : Int → Except Fault Nat} (h : 0 < p.tickSpacing)
    (hT : ∀ t ∈ T, MIN_TICK ≤ t ∧ t ≤ MAX_TICK)
    (hread : ∀ n, -2 ^ 15 ≤ n → n < 2 ^ 15 → read n = .ok (tickWord T p.tickSpacing n)) :
    p.wordTicks read = .ok ((Bitmaps.layer 256 p.words (tickWord T p.tickSpacing)).map (· * p.tickSpacing)) := by
  have hanswers : p.words.mapM (fun word => read (Fixed.wrapSigned 16 word)) =
      .ok (p.words.map (tickWord T p.tickSpacing)) := by
    refine mapM_ok fun n hn => ?_
    obtain ⟨hlo, hhi⟩ := words_fit h hn
    rw [Fixed.wrapSigned_of_mem (by decide) hlo hhi, hread n hlo hhi]
  unfold UniswapV3Pool.wordTicks Bitmaps.layer
  rw [hanswers, ok_bind, ← List.map_prod_left_eq_zip, List.flatMap_map, List.map_flatMap]
  congr 1
  refine List.flatMap_congr fun n _ => ?_
  rw [initializedBits_eq, List.map_map]
  dsimp only
  refine List.map_congr_left fun b hb => ?_
  unfold tickWord at hb
  rw [Bitmaps.mem_bits_word, decide_eq_true_iff] at hb
  obtain ⟨hlo, hhi⟩ := hT _ hb.2
  unfold MIN_TICK at hlo
  unfold MAX_TICK at hhi
  -- a compressed tick is no further from zero than the tick
  have hunit : -2 ^ 31 ≤ n * 256 + (b : Int) ∧ n * 256 + (b : Int) < 2 ^ 31 := by
    generalize n * 256 + (b : Int) = c at hlo hhi ⊢
    constructor <;> nlinarith
  have hinner : Fixed.wrapSigned 32 (n * 256 + b) = n * 256 + b := Fixed.wrapSigned_of_mem (by decide) hunit.1 hunit.2
  change Fixed.wrapSigned 32 (Fixed.wrapSigned 32 (n * 256 + b) * p.tickSpacing) = (n * 256 + b) * p.tickSpacing
  rw [hinner, Fixed.wrapSigned_of_mem (by decide) (by omega) (by omega)]

/-- Every tick's word is among those asked for. -/
theorem mem_wordTicks (h : 0 < p.tickSpacing) (hT : ∀ t ∈ T, p.tickSpacing ∣ t ∧ MIN_TICK ≤ t ∧ t ≤ MAX_TICK) {t : Int} :
    t ∈ (Bitmaps.layer 256 p.words (tickWord T p.tickSpacing)).map (· * p.tickSpacing) ↔ t ∈ T := by
  rw [List.mem_map]
  constructor
  · rintro ⟨c, hc, rfl⟩
    exact ((Bitmaps.mem_layer_word (S := fun c => c * p.tickSpacing ∈ T) fun n _ => rfl).1 hc).1
  · intro ht
    obtain ⟨⟨c, rfl⟩, hlo, hhi⟩ := hT t ht
    rw [mul_comm] at ht hlo hhi
    refine ⟨c, (Bitmaps.mem_layer_word (S := fun c => c * p.tickSpacing ∈ T) fun n _ => rfl).2 ⟨ht, ?_⟩, mul_comm ..⟩
    have hcmin := Int.ediv_le_ediv h hlo
    have hcmax := Int.ediv_le_ediv h hhi
    rw [Int.mul_ediv_cancel _ h.ne'] at hcmin hcmax
    refine ⟨c / 256, (mem_words h).2 ⟨?_, ?_⟩, (c % 256).toNat, by omega, ?_⟩
    · exact Int.ediv_le_ediv (by decide) hcmin
    · exact Int.ediv_le_ediv (by decide) hcmax
    · push_cast
      omega

theorem wordTicks_decodes {read : Int → Except Fault Nat} (h : 0 < p.tickSpacing)
    (hT : ∀ t ∈ T, p.tickSpacing ∣ t ∧ MIN_TICK ≤ t ∧ t ≤ MAX_TICK)
    (hread : ∀ n, -2 ^ 15 ≤ n → n < 2 ^ 15 → read n = .ok (tickWord T p.tickSpacing n)) :
    ∃ indices, p.wordTicks read = .ok indices ∧ indices.Pairwise (· < ·) ∧ ∀ t, t ∈ indices ↔ t ∈ T := by
  refine ⟨_, wordTicks_eq h (fun t ht => (hT t ht).2) hread, ?_, fun t => mem_wordTicks h hT⟩
  rw [List.pairwise_map]
  exact (Bitmaps.layer_sorted (words_sorted p)).imp fun hlt => Int.mul_lt_mul_of_pos_right hlt h

end Words

/-! ## The tree -/

section Tree
variable {T : Finset Int}

/-- The words that are not empty, counted as the tree counts them. -/
theorem mem_treeWords (hT : ∀ t ∈ T, MIN_TICK ≤ t ∧ t ≤ MAX_TICK) {n : Nat} :
    n ∈ Bitmaps.layer 256 (Bitmaps.bits 32 (treeRoot T)) (fun m : Nat => treeSecondLayer T m) ↔
      ∃ t ∈ T, t / 256 + SECOND_LAYER_OFFSET = n := by
  have hword : ∀ m ∈ Bitmaps.bits 32 (treeRoot T), treeSecondLayer T m =
      Bitmaps.word 256 fun b => ∃ t ∈ T, t / 256 + SECOND_LAYER_OFFSET = ((m * 256 + b : Nat) : Int) := by
    intro m _
    unfold treeSecondLayer
    push_cast
    rfl
  rw [Bitmaps.mem_layer_word (S := fun n : Nat => ∃ t ∈ T, t / 256 + SECOND_LAYER_OFFSET = (n : Int)) hword]
  constructor
  · rintro ⟨hn, -⟩
    exact hn
  · rintro ⟨t, ht, hn⟩
    obtain ⟨hlo, hhi⟩ := hT t ht
    unfold MIN_TICK at hlo
    unfold MAX_TICK at hhi
    unfold SECOND_LAYER_OFFSET at hn
    refine ⟨⟨t, ht, hn⟩, n / 256, ?_, n % 256, by omega, ?_⟩
    · unfold treeRoot SECOND_LAYER_OFFSET
      rw [Bitmaps.mem_bits_word, decide_eq_true_iff]
      refine ⟨by omega, t, ht, ?_⟩
      rw [hn]
      push_cast
      rfl
    · rw [Nat.cast_id, Nat.cast_id]
      omega

/-- The indices of the words that are not empty. -/
def treeWords (T : Finset Int) : List Int :=
  (Bitmaps.layer 256 (Bitmaps.bits 32 (treeRoot T)) fun m : Nat => treeSecondLayer T m).map fun n : Nat => (n : Int) - SECOND_LAYER_OFFSET

theorem mem_treeWords_index (hT : ∀ t ∈ T, MIN_TICK ≤ t ∧ t ≤ MAX_TICK) {n : Int} :
    n ∈ treeWords T ↔ ∃ t ∈ T, t / 256 = n := by
  unfold treeWords
  rw [List.mem_map]
  constructor
  · rintro ⟨m, hm, rfl⟩
    obtain ⟨t, ht, heq⟩ := (mem_treeWords hT).1 hm
    exact ⟨t, ht, by omega⟩
  · rintro ⟨t, ht, rfl⟩
    obtain ⟨hlo, -⟩ := hT t ht
    unfold MIN_TICK at hlo
    have hnat : 0 ≤ t / 256 + SECOND_LAYER_OFFSET := by unfold SECOND_LAYER_OFFSET; omega
    refine ⟨(t / 256 + SECOND_LAYER_OFFSET).toNat, (mem_treeWords hT).2 ⟨t, ht, by omega⟩, by omega⟩

theorem treeWords_sorted (T : Finset Int) : (treeWords T).Pairwise (· < ·) := by
  unfold treeWords
  rw [List.pairwise_map]
  exact (Bitmaps.layer_sorted (Bitmaps.bits_sorted ..)).imp fun h => by omega

theorem treeWords_fit (hT : ∀ t ∈ T, MIN_TICK ≤ t ∧ t ≤ MAX_TICK) {n : Int} (hn : n ∈ treeWords T) :
    -2 ^ 15 ≤ n ∧ n < 2 ^ 15 := by
  obtain ⟨t, ht, rfl⟩ := (mem_treeWords_index hT).1 hn
  obtain ⟨hlo, hhi⟩ := hT t ht
  unfold MIN_TICK at hlo
  unfold MAX_TICK at hhi
  omega

/-- The second layer gives the words' indices, each within `i16`. -/
theorem tickTableIndices_eq (hT : ∀ t ∈ T, MIN_TICK ≤ t ∧ t ≤ MAX_TICK) :
    (((Bitmaps.bits 32 (treeRoot T)).zip ((Bitmaps.bits 32 (treeRoot T)).map fun m : Nat => treeSecondLayer T m)).flatMap
      fun e => (initializedBits e.2).map fun bit : Nat => Fixed.wrapSigned 16 (e.1 * 256 + bit - SECOND_LAYER_OFFSET)) =
      treeWords T := by
  have hmem := fun n => mem_treeWords_index (n := n) hT
  unfold treeWords Bitmaps.layer at hmem ⊢
  rw [← List.map_prod_left_eq_zip, List.flatMap_map, List.map_flatMap]
  refine List.flatMap_congr fun m hm => ?_
  dsimp only
  rw [initializedBits_eq, List.map_map]
  refine List.map_congr_left fun b hb => ?_
  have hcast : ((m * 256 + b : Nat) : Int) = m * 256 + b := by push_cast; rfl
  have hin : (m * 256 + b : Int) - SECOND_LAYER_OFFSET ∈ treeWords T := by
    unfold treeWords Bitmaps.layer
    rw [← hcast]
    exact List.mem_map_of_mem (List.mem_flatMap.2 ⟨m, hm, List.mem_map_of_mem hb⟩)
  obtain ⟨hlo, hhi⟩ := treeWords_fit hT hin
  rw [Fixed.wrapSigned_of_mem (by decide) hlo hhi, ← hcast]
  rfl

/-- Every leaf's bits are ticks in range, so that nothing is filtered out. -/
theorem leafTicks_eq (hT : ∀ t ∈ T, MIN_TICK ≤ t ∧ t ≤ MAX_TICK) :
    (((treeWords T).zip ((treeWords T).map (tickWord T 1))).flatMap fun e => ((initializedBits e.2).map fun bit : Nat =>
      Fixed.wrapSigned 32 (Fixed.wrapSigned 32 (e.1 * 256) + bit)).filter fun tick => MIN_TICK ≤ tick ∧ tick ≤ MAX_TICK) =
      Bitmaps.layer 256 (treeWords T) (tickWord T 1) := by
  unfold Bitmaps.layer
  rw [← List.map_prod_left_eq_zip, List.flatMap_map]
  refine List.flatMap_congr fun n hn => ?_
  obtain ⟨hlo, hhi⟩ := treeWords_fit hT hn
  dsimp only
  rw [initializedBits_eq]
  have hbits : ∀ b ∈ Bitmaps.bits 256 (tickWord T 1 n), MIN_TICK ≤ n * 256 + (b : Int) ∧ n * 256 + (b : Int) ≤ MAX_TICK := by
    intro b hb
    unfold tickWord at hb
    rw [Bitmaps.mem_bits_word, decide_eq_true_iff, mul_one] at hb
    exact hT _ hb.2
  have hmap : (Bitmaps.bits 256 (tickWord T 1 n)).map (fun bit : Nat => Fixed.wrapSigned 32 (Fixed.wrapSigned 32 (n * 256) + bit)) =
      (Bitmaps.bits 256 (tickWord T 1 n)).map fun bit : Nat => n * 256 + (bit : Int) := by
    refine List.map_congr_left fun b hb => ?_
    obtain ⟨hmin, hmax⟩ := hbits b hb
    unfold MIN_TICK at hmin
    unfold MAX_TICK at hmax
    have hinner : Fixed.wrapSigned 32 (n * 256) = n * 256 := Fixed.wrapSigned_of_mem (by decide) (by omega) (by omega)
    rw [hinner, Fixed.wrapSigned_of_mem (by decide) (by omega) (by omega)]
  rw [hmap, List.filter_eq_self.2]
  · rfl
  · intro t ht
    obtain ⟨b, hb, rfl⟩ := List.mem_map.1 ht
    exact decide_eq_true (hbits b hb)

theorem treeTicks_eq {reads : TickReads} (hT : ∀ t ∈ T, MIN_TICK ≤ t ∧ t ≤ MAX_TICK)
    (hroot : reads.tickTreeRoot = .ok (treeRoot T))
    (hsecond : ∀ m, -2 ^ 15 ≤ m → m < 2 ^ 15 → reads.tickTreeSecondLayer m = .ok (treeSecondLayer T m))
    (htable : ∀ n, -2 ^ 15 ≤ n → n < 2 ^ 15 → reads.tickTable n = .ok (tickWord T 1 n)) :
    treeTicks reads = .ok (Bitmaps.layer 256 (treeWords T) (tickWord T 1)) := by
  unfold treeTicks
  rw [hroot, ok_bind]
  by_cases hzero : treeRoot T = 0
  · have hnone : treeWords T = [] := by
      unfold treeWords
      rw [hzero, Bitmaps.bits_zero]
      rfl
    rw [if_pos hzero, hnone]
    rfl
  · have hread1 : (Bitmaps.bits 32 (treeRoot T)).mapM (fun i : Nat => reads.tickTreeSecondLayer i) =
        .ok ((Bitmaps.bits 32 (treeRoot T)).map fun m : Nat => treeSecondLayer T m) := by
      refine mapM_ok fun m hm => ?_
      have hlt := (Bitmaps.mem_bits.1 hm).1
      exact hsecond m (by omega) (by omega)
    have hread2 : (treeWords T).mapM reads.tickTable = .ok ((treeWords T).map (tickWord T 1)) := by
      refine mapM_ok fun n hn => ?_
      obtain ⟨hlo, hhi⟩ := treeWords_fit hT hn
      exact htable n hlo hhi
    rw [if_neg hzero]
    dsimp only
    rw [hread1, ok_bind, tickTableIndices_eq hT, hread2, ok_bind, leafTicks_eq hT]

theorem mem_treeTicks (hT : ∀ t ∈ T, MIN_TICK ≤ t ∧ t ≤ MAX_TICK) {t : Int} :
    t ∈ Bitmaps.layer 256 (treeWords T) (tickWord T 1) ↔ t ∈ T := by
  have hword : ∀ n ∈ treeWords T, tickWord T 1 n = Bitmaps.word 256 fun b => n * 256 + (b : Int) ∈ T := by
    intro n _
    unfold tickWord
    simp only [mul_one]
  rw [Bitmaps.mem_layer_word (S := fun t => t ∈ T) hword]
  constructor
  · rintro ⟨ht, -⟩
    exact ht
  · intro ht
    refine ⟨ht, t / 256, (mem_treeWords_index hT).2 ⟨t, ht, rfl⟩, (t % 256).toNat, by omega, ?_⟩
    push_cast
    omega

end Tree

/-- **Tick enumeration decodes the bitmaps.** Whatever ticks a pool has, all multiples of its spacing and in
range, the indices decoded from the words, or from the tree, are exactly those, in ascending order. -/
theorem tickIndices_decodes (p : UniswapV3Pool) (T : Finset Int) (reads : TickReads) (hspacing : 1 ≤ p.tickSpacing)
    (hT : ∀ t ∈ T, p.tickSpacing ∣ t ∧ MIN_TICK ≤ t ∧ t ≤ MAX_TICK) (hreads : reads.Stores T p.poolType p.tickSpacing) :
    ∃ indices, p.tickIndices reads = .ok indices ∧ indices.Pairwise (· < ·) ∧ ∀ t, t ∈ indices ↔ t ∈ T := by
  have hpos : 0 < p.tickSpacing := hspacing
  have hrange := fun t ht => (hT t ht).2
  have hwords : ∀ read : Int → Except Fault Nat,
      (∀ n, -2 ^ 15 ≤ n → n < 2 ^ 15 → read n = .ok (tickWord T p.tickSpacing n)) →
      ∃ indices, p.wordTicks read = .ok indices ∧ indices.Pairwise (· < ·) ∧ ∀ t, t ∈ indices ↔ t ∈ T :=
    fun _ => wordTicks_decodes hpos hT
  unfold UniswapV3Pool.tickIndices
  unfold TickReads.Stores at hreads
  cases hp : p.poolType with
  | UniswapV3 | RamsesCL | PancakeV3 =>
    rw [hp] at hreads
    exact hwords reads.tickBitmap hreads
  | AlgebraV3 =>
    rw [hp] at hreads
    obtain ⟨hroot, hsecond, htable⟩ := hreads
    exact ⟨_, treeTicks_eq hrange hroot hsecond htable, Bitmaps.layer_sorted (treeWords_sorted T),
      fun t => mem_treeTicks hrange⟩
  | AlgebraTwoSideFee | AlgebraPoolFeeInState =>
    rw [hp] at hreads
    exact hwords reads.tickTable hreads

/-- A contract with these ticks, in units of `tickSpacing` in its words. -/
def storedReads (T : Finset Int) (tickSpacing : Int) : TickReads where
  tickBitmap n := .ok (tickWord T tickSpacing n)
  tickTable n := .ok (tickWord T tickSpacing n)
  tickTreeRoot := .ok (treeRoot T)
  tickTreeSecondLayer m := .ok (treeSecondLayer T m)
  ticks _ := .ok (1000, 0)

/-- A pool of spacing 60 before its ticks are known. -/
def newPool (poolType : V3PoolType) : UniswapV3Pool where
  poolType := poolType
  address := 1
  token0 := 2
  token1 := 3
  fee := 3000
  tickSpacing := 60
  sqrtPriceX96 := 2 ^ 96
  tick := 0
  liquidity := 1000
  ticks := ∅
  factory := 0
  lastUpdated := 0
  createdAt := 0
  feeSource := .events
  swapFeeMisses := []

/-- The ticks of a position over the full range, found by both kinds of pool. -/
theorem tickIndices_decodes_full :
    (∃ indices, (newPool .UniswapV3).tickIndices (storedReads {-887220, 887220} 60) = .ok indices ∧
      indices.Pairwise (· < ·) ∧ ∀ t, t ∈ indices ↔ t ∈ ({-887220, 887220} : Finset Int)) ∧
    ∃ indices, (newPool .AlgebraV3).tickIndices (storedReads {-887220, 887220} 1) = .ok indices ∧
      indices.Pairwise (· < ·) ∧ ∀ t, t ∈ indices ↔ t ∈ ({-887220, 887220} : Finset Int) := by
  have hT : ∀ t ∈ ({-887220, 887220} : Finset Int), (60 : Int) ∣ t ∧ MIN_TICK ≤ t ∧ t ≤ MAX_TICK := by decide
  constructor
  · exact tickIndices_decodes (newPool .UniswapV3) _ _ (by decide) hT fun _ _ _ => rfl
  · exact tickIndices_decodes (newPool .AlgebraV3) _ _ (by decide) hT ⟨rfl, fun _ _ _ => rfl, fun _ _ _ => rfl⟩

/-! ## What is fetched for them -/

theorem foldl_insert_lookup (net : Int → Int) (gross : Int → Nat) (indices : List Int) (m : TickMap) (t : Int) :
    (indices.foldl (fun m i => m.insert i ⟨i, net i, gross i⟩) m)[t]? =
      if t ∈ indices then some ⟨t, net t, gross t⟩ else m[t]? := by
  induction indices generalizing m with
  | nil => rfl
  | cons i indices ih =>
    rw [List.foldl_cons, ih, Ranges.lookup_insert]
    by_cases hmem : t ∈ indices
    · rw [if_pos hmem, if_pos (List.mem_cons_of_mem _ hmem)]
    · rw [if_neg hmem]
      by_cases hti : t = i
      · subst hti
        rw [if_pos rfl, if_pos List.mem_cons_self]
      · rw [if_neg hti, if_neg fun h => (List.mem_cons.1 h).elim hti hmem]

end EvmDexPool.V3
