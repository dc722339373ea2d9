import Mathlib.Data.Finset.Basic
import EvmDexPool.Lib.Bitmaps
import EvmDexPool.LB.Pool

/-!
# Bin discovery from the bin tree (`lb/fetcher.rs:38-131`)

| here | there |
| --- | --- |
| `TreeUint24`           | the pair's `_tree`: a root word, and two mappings of words |
| `TreeUint24.storage`   | the pair's storage, with that tree from slot `base` on |
| `getStorageAt`         | `provider.get_storage_at(pool_address, slot)` at one block |
| `keccak256`            | of a buffer of 64 bytes, as its big-endian number |

Reads made at once are made in order here: the first that fails is the one reported.
-/

namespace EvmDexPool.LB

/-- `mapping_storage_slot` (fetcher.rs:31). -/
def mappingStorageSlot (keccak256 : Nat → Nat) (key baseSlot : Nat) : Nat := keccak256 (key * 2 ^ 256 + baseSlot)

/-- `set_bits` (fetcher.rs:38). -/
def setBits (word : Nat) : List Nat := Bitmaps.bits 256 word

/-- `discover_bins_from_tree` (fetcher.rs:65). -/
def discoverBinsFromTree (keccak256 : Nat → Nat) (getStorageAt : Nat → Except Fault Nat) (base : Nat) :
    Except Fault (Option (List Nat)) := do
  let level0 ← getStorageAt base
  if level0 = 0 then .ok none
  else do
    let level0Bits := setBits level0
    let level1Values ← level0Bits.mapM fun k => getStorageAt (mappingStorageSlot keccak256 k (base + 1))
    let level2Keys := (level0Bits.zip level1Values).flatMap fun e => (setBits e.2).map fun bit => (e.1 <<< 8) % 2 ^ 16 ||| bit
    let level2Values ← level2Keys.mapM fun k => getStorageAt (mappingStorageSlot keccak256 k (base + 2))
    .ok (some ((level2Keys.zip level2Values).flatMap fun e => (setBits e.2).map fun bit => (e.1 <<< 8) % 2 ^ 32 ||| bit))

/-! ## The tree as the pair stores it -/

structure TreeUint24 where
  level0 : Nat
  level1 : Nat → Nat
  level2 : Nat → Nat

namespace TreeUint24

/-- The tree of a set of 24-bit ids. -/
def encode (S : Finset Nat) : TreeUint24 where
  level0 := Bitmaps.word 256 fun b => ∃ id ∈ S, id >>> 16 = b
  level1 k := Bitmaps.word 256 fun b => ∃ id ∈ S, id >>> 16 = k ∧ id >>> 8 &&& 255 = b
  level2 k := Bitmaps.word 256 fun b => ∃ id ∈ S, id >>> 8 = k ∧ id &&& 255 = b

/-- Each word at its slot; what is at no slot of the tree is zero. -/
def storage (keccak256 : Nat → Nat) (base : Nat) (t : TreeUint24) (slot : Nat) : Nat :=
  if slot = base then t.level0
  else match (List.range (2 ^ 8)).find? fun k => mappingStorageSlot keccak256 k (base + 1) = slot with
  | some k => t.level1 k
  | none =>
    match (List.range (2 ^ 16)).find? fun k => mappingStorageSlot keccak256 k (base + 2) = slot with
    | some k => t.level2 k
    | none => 0

end TreeUint24

/-- The tree's mapping keys have slots of their own. -/
structure DistinctSlots (keccak256 : Nat → Nat) (base : Nat) : Prop where
  root : ∀ k < 2 ^ 16, ∀ m ∈ [base + 1, base + 2], mappingStorageSlot keccak256 k m ≠ base
  keys : ∀ k < 2 ^ 16, ∀ l < 2 ^ 16, ∀ m ∈ [base + 1, base + 2], ∀ n ∈ [base + 1, base + 2],
    mappingStorageSlot keccak256 k m = mappingStorageSlot keccak256 l n → k = l ∧ m = n

section Reads
variable {keccak256 : Nat → Nat} {base : Nat}

theorem storage_root (t : TreeUint24) : t.storage keccak256 base base = t.level0 := if_pos rfl

theorem storage_level1 (h : DistinctSlots keccak256 base) (t : TreeUint24) {k : Nat} (hk : k < 2 ^ 8) :
    t.storage keccak256 base (mappingStorageSlot keccak256 k (base + 1)) = t.level1 k := by
  have hk16 : k < 2 ^ 16 := by omega
  have hroot := h.root k hk16 (base + 1) (by simp)
  have hfind : (List.range (2 ^ 8)).find? (fun l => mappingStorageSlot keccak256 l (base + 1) =
      mappingStorageSlot keccak256 k (base + 1)) = some k := by
    rw [List.find?_range_eq_some]
    refine ⟨decide_eq_true rfl, List.mem_range.2 hk, fun l hl => ?_⟩
    rw [Bool.not_eq_true', decide_eq_false_iff_not]
    intro heq
    have hsame := (h.keys l (by omega) k hk16 (base + 1) (by simp) (base + 1) (by simp) heq).1
    omega
  unfold TreeUint24.storage
  rw [if_neg hroot, hfind]

theorem storage_level2 (h : DistinctSlots keccak256 base) (t : TreeUint24) {k : Nat} (hk : k < 2 ^ 16) :
    t.storage keccak256 base (mappingStorageSlot keccak256 k (base + 2)) = t.level2 k := by
  have hroot := h.root k hk (base + 2) (by simp)
  have hnone : (List.range (2 ^ 8)).find? (fun l => mappingStorageSlot keccak256 l (base + 1) =
      mappingStorageSlot keccak256 k (base + 2)) = none := by
    rw [List.find?_eq_none]
    intro l hl
    rw [decide_eq_true_iff]
    intro heq
    have hl8 := List.mem_range.1 hl
    have hsame := (h.keys l (by omega) k hk (base + 1) (by simp) (base + 2) (by simp) heq).2
    omega
  have hfind : (List.range (2 ^ 16)).find? (fun l => mappingStorageSlot keccak256 l (base + 2) =
      mappingStorageSlot keccak256 k (base + 2)) = some k := by
    rw [List.find?_range_eq_some]
    refine ⟨decide_eq_true rfl, List.mem_range.2 hk, fun l hl => ?_⟩
    rw [Bool.not_eq_true', decide_eq_false_iff_not]
    intro heq
    have hsame := (h.keys l (by omega) k hk (base + 2) (by simp) (base + 2) (by simp) heq).1
    omega
  unfold TreeUint24.storage
  rw [if_neg hroot, hnone, hfind]

end Reads

/-! ## The walk down the tree -/

theorem shift_or {w k b : Nat} (hw : k * 256 + b < 2 ^ w) (hb : b < 256) : (k <<< 8) % 2 ^ w ||| b = k * 256 + b := by
  have hshift : k <<< 8 = k * 256 := Nat.shiftLeft_eq k 8
  rw [Nat.mod_eq_of_lt (by omega), ← Nat.shiftLeft_add_eq_or_of_lt (show b < 2 ^ 8 from hb), hshift]

/-- The keys of the next level, or the ids: the numbers a layer of words keeps. -/
theorem level_eq {w : Nat} {keys : List Nat} (words : Nat → Nat) (h : ∀ k ∈ keys, (k + 1) * 256 ≤ 2 ^ w) :
    ((keys.zip (keys.map words)).flatMap fun e => (setBits e.2).map fun bit => (e.1 <<< 8) % 2 ^ w ||| bit) =
      Bitmaps.layer 256 keys words := by
  rw [← List.map_prod_left_eq_zip, List.flatMap_map]
  refine List.flatMap_congr fun k hk => List.map_congr_left fun b hb => ?_
  have hb := (Bitmaps.mem_bits.1 hb).1
  have hk := h k hk
  exact shift_or (by omega) hb

section Decode
variable {S : Finset Nat}

theorem and_255 (n : Nat) : n &&& 255 = n % 256 := Nat.and_two_pow_sub_one_eq_mod n 8

theorem mem_rootBits (hS : ∀ id ∈ S, id < 2 ^ 24) {k : Nat} :
    k ∈ setBits (TreeUint24.encode S).level0 ↔ ∃ id ∈ S, id / 2 ^ 16 = k := by
  unfold setBits TreeUint24.encode
  rw [Bitmaps.mem_bits_word, decide_eq_true_iff]
  simp only [Nat.shiftRight_eq_div_pow]
  constructor
  · rintro ⟨-, h⟩
    exact h
  · rintro ⟨id, hid, rfl⟩
    have hlt := hS id hid
    exact ⟨by omega, id, hid, rfl⟩

theorem level1_word (k : Nat) : (TreeUint24.encode S).level1 k =
    Bitmaps.word 256 fun b => ∃ id ∈ S, id / 2 ^ 8 = k * 256 + b := by
  unfold TreeUint24.encode
  dsimp only
  refine Bitmaps.word_congr fun b hb => ?_
  rw [decide_eq_decide]
  refine exists_congr fun id => and_congr_right fun _ => ?_
  rw [Nat.shiftRight_eq_div_pow, Nat.shiftRight_eq_div_pow, and_255]
  omega

theorem level2_word (k : Nat) : (TreeUint24.encode S).level2 k =
    Bitmaps.word 256 fun b => k * 256 + b ∈ S := by
  unfold TreeUint24.encode
  dsimp only
  refine Bitmaps.word_congr fun b hb => ?_
  rw [decide_eq_decide]
  constructor
  · rintro ⟨id, hid, hk, hbit⟩
    rw [Nat.shiftRight_eq_div_pow] at hk
    rw [and_255] at hbit
    have heq : k * 256 + b = id := by omega
    exact heq ▸ hid
  · intro hid
    refine ⟨_, hid, ?_, ?_⟩
    · rw [Nat.shiftRight_eq_div_pow]
      omega
    · rw [and_255]
      omega

theorem root_eq_zero (hS : ∀ id ∈ S, id < 2 ^ 24) : (TreeUint24.encode S).level0 = 0 ↔ S = ∅ := by
  constructor
  · intro h
    refine Finset.eq_empty_of_forall_notMem fun id hid => ?_
    have hmem := (mem_rootBits hS).2 ⟨id, hid, rfl⟩
    rw [h, setBits, Bitmaps.bits_zero] at hmem
    cases hmem
  · rintro rfl
    unfold TreeUint24.encode
    dsimp only
    rw [Bitmaps.word_eq_zero]
    simp

/-- The keys read on the second level are those of the ids. -/
theorem mem_level2Keys (hS : ∀ id ∈ S, id < 2 ^ 24) {k : Nat} :
    k ∈ Bitmaps.layer 256 (setBits (TreeUint24.encode S).level0) (TreeUint24.encode S).level1 ↔
      ∃ id ∈ S, id / 2 ^ 8 = k := by
  rw [Bitmaps.mem_layer_word (S := fun k => ∃ id ∈ S, id / 2 ^ 8 = k) fun k _ => level1_word k]
  constructor
  · rintro ⟨hk, -⟩
    exact hk
  · rintro ⟨id, hid, rfl⟩
    refine ⟨⟨id, hid, rfl⟩, id / 2 ^ 16, (mem_rootBits hS).2 ⟨id, hid, rfl⟩, id / 2 ^ 8 % 256, by omega, ?_⟩
    rw [Nat.cast_id, Nat.cast_id]
    omega

theorem mem_binIds (hS : ∀ id ∈ S, id < 2 ^ 24) {id : Nat} :
    id ∈ Bitmaps.layer 256 (Bitmaps.layer 256 (setBits (TreeUint24.encode S).level0) (TreeUint24.encode S).level1)
      (TreeUint24.encode S).level2 ↔ id ∈ S := by
  rw [Bitmaps.mem_layer_word (S := fun id => id ∈ S) fun k _ => level2_word k]
  constructor
  · rintro ⟨hid, -⟩
    exact hid
  · intro hid
    refine ⟨hid, id / 2 ^ 8, (mem_level2Keys hS).2 ⟨id, hid, rfl⟩, id % 256, by omega, ?_⟩
    rw [Nat.cast_id, Nat.cast_id]
    omega

end Decode

/-- What a walk reads, of a pair that stores `S`. -/
theorem discoverBinsFromTree_eq {keccak256 : Nat → Nat} {base : Nat} (h : DistinctSlots keccak256 base) {S : Finset Nat}
    (hS : ∀ id ∈ S, id < 2 ^ 24) :
    discoverBinsFromTree keccak256 (fun slot => .ok ((TreeUint24.encode S).storage keccak256 base slot)) base =
      .ok (if S = ∅ then none else some (Bitmaps.layer 256
        (Bitmaps.layer 256 (setBits (TreeUint24.encode S).level0) (TreeUint24.encode S).level1)
        (TreeUint24.encode S).level2)) := by
  have hkey1 : ∀ k ∈ setBits (TreeUint24.encode S).level0, k < 2 ^ 8 := fun k hk => (Bitmaps.mem_bits.1 hk).1
  have hkey2 : ∀ k ∈ Bitmaps.layer 256 (setBits (TreeUint24.encode S).level0) (TreeUint24.encode S).level1,
      k < 2 ^ 16 := by
    intro k hk
    obtain ⟨id, hid, rfl⟩ := (mem_level2Keys hS).1 hk
    have hlt := hS id hid
    omega
  unfold discoverBinsFromTree
  rw [ok_bind, storage_root]
  by_cases hempty : S = ∅
  · rw [if_pos ((root_eq_zero hS).2 hempty), if_pos hempty]
  · rw [if_neg (mt (root_eq_zero hS).1 hempty), if_neg hempty]
    have hread1 := mapM_ok (ε := Fault) fun k hk => congrArg Except.ok (storage_level1 h (TreeUint24.encode S) (hkey1 k hk))
    dsimp only
    rw [hread1, ok_bind, level_eq _ fun k hk => by have := hkey1 k hk; omega]
    have hread2 := mapM_ok (ε := Fault) fun k hk => congrArg Except.ok (storage_level2 h (TreeUint24.encode S) (hkey2 k hk))
    rw [hread2, ok_bind, level_eq _ fun k hk => by have := hkey2 k hk; omega]

/-- **Bin discovery decodes the tree.** Whatever ids a pair keeps in its tree, the walk ends with none when
there are none, and otherwise with exactly those ids in ascending order. -/
theorem discoverBins_decodes (keccak256 : Nat → Nat) (base : Nat) (h : DistinctSlots keccak256 base) (S : Finset Nat)
    (hS : ∀ id ∈ S, id < 2 ^ 24) :
    let found := discoverBinsFromTree keccak256 (fun slot => .ok ((TreeUint24.encode S).storage keccak256 base slot)) base
    (found = .ok none ↔ S = ∅) ∧
      (S ≠ ∅ → ∃ ids, found = .ok (some ids) ∧ ids.Pairwise (· < ·) ∧ ∀ id, id ∈ ids ↔ id ∈ S) := by
  intro found
  have hfound : found = _ := discoverBinsFromTree_eq h hS
  rw [hfound]
  by_cases hempty : S = ∅
  · rw [if_pos hempty]
    exact ⟨iff_of_true rfl hempty, fun hne => absurd hempty hne⟩
  · rw [if_neg hempty]
    refine ⟨iff_of_false nofun hempty, fun _ => ⟨_, rfl, ?_, fun id => mem_binIds hS⟩⟩
    exact Bitmaps.layer_sorted (Bitmaps.layer_sorted (Bitmaps.bits_sorted ..))

/-- The two digests that a walk to the bin `2^23` asks for, from slot 7 on; any others of their own. -/
def sampleKeccak (buf : Nat) : Nat :=
  if buf = 128 * 2 ^ 256 + 8 then 0x59dc52832db6bfbaced9b083cea34b75f6ca940f63c015a5ff7bebc65b05c9be
  else if buf = 32768 * 2 ^ 256 + 9 then 0x9cb9feeedb2209319203b517cac6068d9dcbf33e64be3c34eb9ef50696e1b864
  else buf / 2 ^ 256 * 2 ^ 8 + buf % 2 ^ 256

theorem sampleKeccak_slot {k m : Nat} (hm : m = 8 ∨ m = 9) : mappingStorageSlot sampleKeccak k m =
    if k = 128 ∧ m = 8 then 0x59dc52832db6bfbaced9b083cea34b75f6ca940f63c015a5ff7bebc65b05c9be
    else if k = 32768 ∧ m = 9 then 0x9cb9feeedb2209319203b517cac6068d9dcbf33e64be3c34eb9ef50696e1b864
    else k * 2 ^ 8 + m := by
  unfold mappingStorageSlot sampleKeccak
  refine if_congr (by omega) rfl (if_congr (by omega) rfl ?_)
  omega

theorem sampleKeccak_distinct : DistinctSlots sampleKeccak 7 := by
  have hslot : ∀ m ∈ [7 + 1, 7 + 2], m = 8 ∨ m = 9 := by decide
  refine ⟨fun k hk m hm => ?_, fun k hk l hl m hm n hn heq => ?_⟩
  · rw [sampleKeccak_slot (hslot m hm)]
    have hm := hslot m hm
    split_ifs <;> omega
  · rw [sampleKeccak_slot (hslot m hm), sampleKeccak_slot (hslot n hn)] at heq
    have hm := hslot m hm
    have hn := hslot n hn
    split_ifs at heq <;> omega

/-- A pair with the one bin `2^23`. -/
theorem discoverBins_decodes_parity :
    ∃ ids, discoverBinsFromTree sampleKeccak
        (fun slot => .ok ((TreeUint24.encode {2 ^ 23}).storage sampleKeccak 7 slot)) 7 = .ok (some ids) ∧
      ids.Pairwise (· < ·) ∧ ∀ id, id ∈ ids ↔ id ∈ ({2 ^ 23} : Finset Nat) :=
  (discoverBins_decodes sampleKeccak 7 sampleKeccak_distinct {2 ^ 23} (by simp)).2 (by simp)

end EvmDexPool.LB
