import Mathlib.Data.Prod.Lex
import Mathlib.Data.List.Sort
import EvmDexPool.Collector.Registry

/-!
# The chain, and reading it over RPC (`collector/block_source.rs`, `collector/utils.rs`)

| here | there |
| --- | --- |
| `LogPosition`   | `(u64, u64, u64)`, compared lexicographically |
| `Log.position`  | `log_position` |
| `Chain`         | the mined logs, as `eth_getLogs` serves them |
| `Chain.getLogs` | `provider.get_logs(&filter)` over numbered blocks |
-/

namespace EvmDexPool

/-- `(block number, transaction index, log index)` (block_source.rs:52). -/
abbrev LogPosition := ℕ ×ₗ ℕ ×ₗ ℕ

namespace LogPosition

/-- What looking a position up in a list asks for. -/
instance lawfulBEq : LawfulBEq LogPosition := inferInstance

/-- The position `(block, tx, index)`. -/
def mk (block tx index : Nat) : LogPosition := toLex (block, toLex (tx, index))

def block (p : LogPosition) : Nat := (ofLex p).1

theorem block_le {p q : LogPosition} (h : p ≤ q) : p.block ≤ q.block := by
  rcases Prod.Lex.le_iff.1 h with h | h
  · exact h.le
  · exact h.1.le

/-- The start of a block is before everything in it. -/
theorem start_le {b : Nat} {p : LogPosition} (h : b ≤ p.block) : mk b 0 0 ≤ p := by
  refine Prod.Lex.le_iff.2 ?_
  rcases h.lt_or_eq with h | h
  · exact .inl h
  · refine .inr ⟨h, Prod.Lex.le_iff.2 ?_⟩
    rcases Nat.eq_zero_or_pos (ofLex (ofLex p).2).1 with h0 | h0
    · exact .inr ⟨h0.symm, Nat.zero_le _⟩
    · exact .inl h0

end LogPosition

/-- `log_position` (block_source.rs:59). -/
def Log.position (l : Log) : Option LogPosition :=
  match l.blockNumber, l.transactionIndex, l.logIndex with
  | some b, some t, some i => some (.mk b t i)
  | _, _, _ => none

/-- The position of a mined log. -/
def Log.place (l : Log) : LogPosition :=
  .mk (l.blockNumber.getD 0) (l.transactionIndex.getD 0) (l.logIndex.getD 0)

/-- The block of a mined log. -/
def Log.block (l : Log) : Nat := l.blockNumber.getD 0

/-- The key logs are told apart by (event_queue.rs:221). -/
def Log.key? (l : Log) : Option (B256 × Nat) :=
  match l.transactionHash, l.logIndex with
  | some h, some i => some (h, i)
  | _, _ => none

/-- A mined log: it has a place, in a block after the genesis block and one a `u64` can count past,
and a hash and a topic, and it is no retraction. -/
structure Log.Mined (l : Log) : Prop where
  position : l.position = some l.place
  genesis : 0 < l.block
  bounded : l.block + 1 < 2 ^ 64
  hash : l.transactionHash.isSome
  topic : l.topic0.isSome
  kept : l.removed = false

/-- The mined logs in chain order, no two under one key. -/
structure Chain where
  logs : List Log
  mined : ∀ l ∈ logs, l.Mined
  sorted : logs.Pairwise fun a b => a.place < b.place
  keys : logs.Pairwise fun a b => a.key? ≠ b.key?

namespace Log

theorem Mined.blockNumber {l : Log} (h : l.Mined) : l.blockNumber = some l.block := by
  have hp : l.position = some l.place := h.position
  unfold Log.position at hp
  unfold block
  cases hb : l.blockNumber with
  | none => rw [hb] at hp; cases hp
  | some b => rfl

theorem Mined.logIndex {l : Log} (h : l.Mined) : l.logIndex.isSome := by
  have hp : l.position = some l.place := h.position
  unfold Log.position at hp
  cases hi : l.logIndex with
  | none =>
    rw [hi] at hp
    split at hp <;> simp_all
  | some i => rfl

theorem Mined.key {l : Log} (h : l.Mined) : l.key?.isSome := by
  obtain ⟨t, ht⟩ := Option.isSome_iff_exists.1 h.hash
  obtain ⟨i, hi⟩ := Option.isSome_iff_exists.1 h.logIndex
  unfold key?
  rw [ht, hi]
  rfl

end Log

theorem Chain.block_sorted (c : Chain) : c.logs.Pairwise fun l m => l.block ≤ m.block :=
  c.sorted.imp fun {l m} h => show l.place.block ≤ m.place.block from LogPosition.block_le h.le

/-! ## Reading logs -/

/-- A filter over addresses and signature topics; an empty list asks for any. -/
def matchesFilter (addresses : List Address) (topics : List Topic) (l : Log) : Bool :=
  (addresses = [] ∨ l.address ∈ addresses) ∧ (topics = [] ∨ ∃ t ∈ topics, l.topic0 = some t)

/-- `fetch_events` over the blocks `fromBlock..=toBlock` (utils.rs:19). -/
def Chain.getLogs (c : Chain) (addresses : List Address) (topics : List Topic) (fromBlock toBlock : Nat) :
    List Log :=
  c.logs.filter fun l => (fromBlock ≤ l.block ∧ l.block ≤ toBlock) ∧ matchesFilter addresses topics l

/-! ## Block times -/

/-- `lacks_block_timestamp` (utils.rs:43). -/
def Log.lacksBlockTimestamp (l : Log) : Bool := l.blockTimestamp.all (· = 0)

/-- `fill_block_timestamps` on one log (utils.rs:67). -/
def Log.fillBlockTimestamp (wanted : Log → Bool) (times : Nat → Option Nat) (l : Log) : Log :=
  if wanted l ∧ l.lacksBlockTimestamp then
    match l.blockNumber.bind times with
    | some time => { l with blockTimestamp := some time }
    | none => l
  else l

/-- `enrich_if_lb_pools_present` (block_source.rs:25): only Liquidity Book logs are given their block's
time. `times` is what is known of the blocks' times and what the headers fetched for the rest say. -/
def PoolRegistry.enrichIfLbPoolsPresent {π : Type} [PoolInterface π] (r : PoolRegistry π)
    (times : Nat → Option Nat) (events : List Log) : List Log :=
  events.map (·.fillBlockTimestamp (fun l => l.address ∈ r.getAddressesByType .TraderJoeLB) times)

/-- The log without its block time. -/
def Log.untimed (l : Log) : Log := { l with blockTimestamp := none }

@[simp] theorem Log.position_fillBlockTimestamp (wanted : Log → Bool) (times : Nat → Option Nat) (l : Log) :
    (l.fillBlockTimestamp wanted times).position = l.position := by
  unfold fillBlockTimestamp
  split
  · split <;> rfl
  · rfl

@[simp] theorem Log.address_fillBlockTimestamp (wanted : Log → Bool) (times : Nat → Option Nat) (l : Log) :
    (l.fillBlockTimestamp wanted times).address = l.address := by
  unfold fillBlockTimestamp
  split
  · split <;> rfl
  · rfl

@[simp] theorem Log.place_fillBlockTimestamp (wanted : Log → Bool) (times : Nat → Option Nat) (l : Log) :
    (l.fillBlockTimestamp wanted times).place = l.place := by
  unfold fillBlockTimestamp
  split
  · split <;> rfl
  · rfl

theorem Log.Mined.fillBlockTimestamp {l : Log} (h : l.Mined) (wanted : Log → Bool) (times : Nat → Option Nat) :
    (l.fillBlockTimestamp wanted times).Mined := by
  unfold Log.fillBlockTimestamp
  split
  · split
    · exact { h with }
    · exact h
  · exact h

theorem Log.untimed_fillBlockTimestamp (wanted : Log → Bool) (times : Nat → Option Nat) (l : Log) :
    (l.fillBlockTimestamp wanted times).untimed = l.untimed := by
  unfold fillBlockTimestamp
  split
  · split <;> rfl
  · rfl

/-- A sync of the pair at address 1, the `index`th log of its block. -/
def syncAt (block index : Nat) : Log :=
  ⟨1, .event (.v2 (.sync 5 7)), some block, some 0, some index, some block, none, false⟩

theorem syncAt_mined {block index : Nat} (h0 : 0 < block) (h : block + 1 < 2 ^ 64) : (syncAt block index).Mined where
  position := rfl
  genesis := h0
  bounded := h
  hash := rfl
  topic := rfl
  kept := rfl

end EvmDexPool
