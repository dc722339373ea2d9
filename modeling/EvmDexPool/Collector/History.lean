import EvmDexPool.Collector.Chain
import EvmDexPool.Collector.EventPaths

/-!
# Pools and the logs they have been given

`Traced π` is a pool together with the logs of its own type's topics that `apply_log` was called with,
in that order. It is a pool itself, so everything the collector does with pools it does with traced
ones, and what a pool's state includes can be read off.
-/

namespace EvmDexPool

open Std Replay

/-- The log is of one of the type's events. -/
def PoolType.concerns (t : PoolType) (l : Log) : Bool := l.topic0.any (· ∈ t.topics)

/-- The log is an event of the pool at `a`, of type `t`. -/
def Log.ownedBy (a : Address) (t : PoolType) (l : Log) : Bool := l.address = a ∧ t.concerns l

structure Traced (π : Type) where
  pool : π
  given : List Log
deriving DecidableEq

instance {π : Type} [PoolInterface π] : PoolInterface (Traced π) where
  address p := PoolInterface.address p.pool
  poolType p := PoolInterface.poolType p.pool
  applyLog now l p :=
    (⟨(PoolInterface.applyLog now l p.pool).1,
      if (PoolInterface.poolType p.pool).concerns l then p.given ++ [l.untimed] else p.given⟩,
      (PoolInterface.applyLog now l p.pool).2)
  asV3 p := PoolInterface.asV3 p.pool
  withV3 f p := { p with pool := PoolInterface.withV3 f p.pool }
  poolType_applyLog now l p := PoolInterface.poolType_applyLog now l p.pool

/-- The chain's logs of a pool that satisfy `f`, in chain order. -/
def Chain.ownWhere (c : Chain) (a : Address) (t : PoolType) (f : Log → Bool) : List Log :=
  (c.logs.filter fun l => l.ownedBy a t ∧ f l).map Log.untimed

/-- A pool's logs of blocks up to `b`. -/
def Chain.ownThrough (c : Chain) (a : Address) (t : PoolType) (b : Nat) : List Log :=
  c.ownWhere a t fun l => l.block ≤ b

/-- The pool has no log in the blocks after the one of `b` and `b'`, up to the other. -/
def Chain.Silent (c : Chain) (a : Address) (t : PoolType) (b b' : Nat) : Prop :=
  ∀ l ∈ c.logs, l.ownedBy a t → (l.block ≤ b ↔ l.block ≤ b')

/-! ## A pool's logs, block by block -/

namespace Chain
variable (c : Chain) {a : Address} {t : PoolType}

theorem ownWhere_congr {f g : Log → Bool} (h : ∀ l ∈ c.logs, l.ownedBy a t → (f l ↔ g l)) :
    c.ownWhere a t f = c.ownWhere a t g := by
  unfold ownWhere
  refine congrArg _ (List.filter_congr fun l hl => ?_)
  have := h l hl
  by_cases ho : l.ownedBy a t
  · simp [ho, this ho]
  · simp [ho]

/-- Some of a pool's logs are all of them when none is left out. -/
theorem ownWhere_eq_iff {f g : Log → Bool} (h : ∀ l ∈ c.logs, l.ownedBy a t → f l → g l) :
    c.ownWhere a t f = c.ownWhere a t g ↔ ∀ l ∈ c.logs, l.ownedBy a t → g l → f l := by
  refine ⟨fun heq l hl ho hg => ?_, fun hback => c.ownWhere_congr fun l hl ho => ⟨h l hl ho, hback l hl ho⟩⟩
  have hsub : (c.logs.filter fun l => l.ownedBy a t ∧ f l) =
      (c.logs.filter fun l => l.ownedBy a t ∧ g l).filter f := by
    rw [List.filter_filter]
    refine List.filter_congr fun l hl => ?_
    have := h l hl
    by_cases ho : l.ownedBy a t
    · cases hf : f l
      · simp
      · simp [ho, this ho hf]
    · simp [ho]
  have hlength := congrArg List.length heq
  unfold ownWhere at hlength
  rw [List.length_map, List.length_map, hsub] at hlength
  have hall := List.Sublist.eq_of_length List.filter_sublist hlength
  have hmem : l ∈ c.logs.filter fun l => l.ownedBy a t ∧ g l := List.mem_filter.2 ⟨hl, by simp [ho, hg]⟩
  rw [← hall] at hmem
  exact (List.mem_filter.1 hmem).2

/-- A pool's logs of blocks up to `b`, then some after it. -/
theorem ownThrough_append {b : Nat} {f g : Log → Bool}
    (h : ∀ l ∈ c.logs, l.ownedBy a t → (g l ↔ l.block ≤ b ∨ f l) ∧ ¬ (l.block ≤ b ∧ f l)) :
    c.ownThrough a t b ++ c.ownWhere a t f = c.ownWhere a t g := by
  have hown : ∀ f : Log → Bool, c.ownWhere a t f = ((c.logs.filter (·.ownedBy a t)).filter f).map Log.untimed := by
    intro f
    unfold ownWhere
    rw [List.filter_filter]
    refine congrArg _ (List.filter_congr fun l _ => ?_)
    simp [Bool.and_comm]
  unfold ownThrough
  rw [hown, hown, hown, ← List.map_append]
  refine congrArg _ (filter_append_filter ?_ (fun l hl => ?_) fun l hl => ?_)
  · refine (c.block_sorted.sublist List.filter_sublist).imp_of_mem fun {x y} hx hy hxy hf hb => ?_
    obtain ⟨hx, ho⟩ := List.mem_filter.1 hx
    have hb : y.block ≤ b := by simpa using hb
    exact (h x hx ho).2 ⟨hxy.trans hb, hf⟩
  · obtain ⟨hl, ho⟩ := List.mem_filter.1 hl
    simpa using (h l hl ho).1
  · obtain ⟨hl, ho⟩ := List.mem_filter.1 hl
    simpa using (h l hl ho).2

/-- Where a pool is silent the cursor may move, either way. -/
theorem ownThrough_eq {b b' : Nat} (h : c.Silent a t b b') : c.ownThrough a t b = c.ownThrough a t b' :=
  c.ownWhere_congr fun l hl ho => by simpa using h l hl ho

theorem nodup (c : Chain) : c.logs.Nodup := c.sorted.imp fun h he => by simp [he] at h

/-- Some of a pool's logs, then others, in whatever order. -/
theorem ownWhere_append_perm {f g : Log → Bool} {ls : List Log} (hn : ls.Nodup) (hm : ∀ l ∈ ls, l ∈ c.logs)
    (h : ∀ l ∈ c.logs, l.ownedBy a t → (g l ↔ f l ∨ l ∈ ls) ∧ ¬ (f l ∧ l ∈ ls)) :
    (c.ownWhere a t f ++ (ls.filter (·.ownedBy a t)).map Log.untimed).Perm (c.ownWhere a t g) := by
  unfold ownWhere
  rw [← List.map_append]
  refine List.Perm.map _ ((List.perm_ext_iff_of_nodup ?_ (c.nodup.sublist List.filter_sublist)).2 fun l => ?_)
  · refine List.nodup_append.2 ⟨c.nodup.sublist List.filter_sublist, hn.sublist List.filter_sublist, ?_⟩
    rintro x hx y hy rfl
    obtain ⟨hx, hxf⟩ := List.mem_filter.1 hx
    obtain ⟨ho, hf⟩ := of_decide_eq_true hxf
    exact (h x hx ho).2 ⟨hf, (List.mem_filter.1 hy).1⟩
  · rw [List.mem_append, List.mem_filter, List.mem_filter, List.mem_filter]
    simp only [decide_eq_true_eq]
    constructor
    · rintro (⟨hl, ho, hf⟩ | ⟨hl, ho⟩)
      · exact ⟨hl, ho, (h l hl ho).1.2 (.inl hf)⟩
      · exact ⟨hm l hl, ho, (h l (hm l hl) ho).1.2 (.inr hl)⟩
    · rintro ⟨hl, ho, hg⟩
      rcases (h l hl ho).1.1 hg with hf | hls
      · exact .inl ⟨hl, ho, hf⟩
      · exact .inr ⟨hls, ho⟩

end Chain

/-! ## What a list of logs adds -/

section
variable {π : Type} [PoolInterface π] {clock : Log → Nat}

@[simp] theorem Traced.poolType_stepLog (l : Log) (p : Traced π) :
    PoolInterface.poolType (stepLog clock l p) = PoolInterface.poolType p :=
  PoolInterface.poolType_applyLog (clock l) l p

theorem Traced.given_stepLog (l : Log) (p : Traced π) :
    (stepLog clock l p).given = p.given ++ ([l].filter (PoolInterface.poolType p).concerns).map Log.untimed := by
  change (if (PoolInterface.poolType p).concerns l then p.given ++ [l.untimed] else p.given) = _
  by_cases h : (PoolInterface.poolType p).concerns l
  · rw [if_pos h, List.filter_cons_of_pos h]
    rfl
  · rw [if_neg h, List.filter_cons_of_neg h]
    simp

theorem Traced.foldl_stepLog (clock : Log → Nat) (ls : List Log) (p : Traced π) :
    PoolInterface.poolType (ls.foldl (fun p l => stepLog clock l p) p) = PoolInterface.poolType p ∧
    (ls.foldl (fun p l => stepLog clock l p) p).given =
      p.given ++ (ls.filter (PoolInterface.poolType p).concerns).map Log.untimed := by
  induction ls generalizing p with
  | nil => simp
  | cons l ls ih =>
    obtain ⟨ht, hg⟩ := ih (stepLog clock l p)
    rw [List.foldl_cons, ht, hg, poolType_stepLog, given_stepLog]
    refine ⟨rfl, ?_⟩
    rw [List.append_assoc, ← List.map_append, ← List.filter_append, List.singleton_append]

/-- A replay gives a pool its own logs of the list, in its order. -/
theorem PoolRegistry.getPool_replayed {r : PoolRegistry (Traced π)} {events : List Log} {a : Address} {q : Traced π}
    (h : (r.replayed clock events).getPool a = some q) :
    ∃ p, r.getPool a = some p ∧ PoolInterface.poolType q = PoolInterface.poolType p ∧
      q.given = p.given ++ (events.filter (·.ownedBy a (PoolInterface.poolType p))).map Log.untimed := by
  unfold replayed getPool at h
  rw [lookup_replay] at h
  obtain ⟨p, hp, rfl⟩ := Option.map_eq_some_iff.1 h
  obtain ⟨ht, hg⟩ := Traced.foldl_stepLog clock (events.filter fun l => l.address = a) p
  refine ⟨p, hp, ht, hg.trans ?_⟩
  rw [List.filter_filter]
  refine congrArg _ (congrArg _ (List.filter_congr fun l _ => ?_))
  unfold Log.ownedBy
  simp [Bool.and_comm]

@[simp] theorem PoolRegistry.getAllAddresses_replayed (clock : Log → Nat) (r : PoolRegistry π) (events : List Log) :
    (r.replayed clock events).getAllAddresses = r.getAllAddresses := keys_replay ..

theorem PoolRegistry.replayed_append (r : PoolRegistry π) (xs ys : List Log) :
    r.replayed clock (xs ++ ys) = (r.replayed clock xs).replayed clock ys := by
  unfold replayed replay
  rw [List.foldl_append]

theorem PoolRegistry.mem_getAddressesByType {π : Type} [PoolInterface π] {r : PoolRegistry π} {a : Address}
    {t : PoolType} : a ∈ r.getAddressesByType t ↔ ∃ p, r.getPool a = some p ∧ PoolInterface.poolType p = t := by
  unfold getAddressesByType getPool
  simp [List.mem_filter, ExtTreeMap.mem_toList_iff_getElem?_eq_some]

theorem poolType_own {π : Type} [PoolInterface π] (clock : Log → Nat) (ls : List Log) (a : Address) (p : π) :
    PoolInterface.poolType (own (·.address) (stepLog clock) ls a p) = PoolInterface.poolType p := by
  unfold own
  induction ls.filter (fun l => l.address = a) generalizing p with
  | nil => rfl
  | cons l ls ih => exact (ih _).trans (PoolInterface.poolType_applyLog (clock l) l p)

/-- Logs do not change which pools are Liquidity Book pools. -/
theorem PoolRegistry.enrich_replayed {π : Type} [PoolInterface π] (clock : Log → Nat) (r : PoolRegistry π)
    (ls events : List Log) (times : Nat → Option Nat) :
    (r.replayed clock ls).enrichIfLbPoolsPresent times events = r.enrichIfLbPoolsPresent times events := by
  have hmem : ∀ a, a ∈ (r.replayed clock ls).getAddressesByType .TraderJoeLB ↔ a ∈ r.getAddressesByType .TraderJoeLB := by
    intro a
    rw [mem_getAddressesByType, mem_getAddressesByType]
    have hlookup : (r.replayed clock ls).getPool a = (r.getPool a).map (own (·.address) (stepLog clock) ls a) :=
      lookup_replay ..
    rw [hlookup]
    cases r.getPool a with
    | none => simp
    | some p => simp [poolType_own]
  unfold enrichIfLbPoolsPresent
  simp only [hmem]

/-- A pool's type and what it has been given. -/
def PoolRegistry.ledger (r : PoolRegistry (Traced π)) (a : Address) : Option (PoolType × List Log) :=
  (r.getPool a).map fun p => (PoolInterface.poolType p, p.given)

/-- The pool at `a` is given its own logs of the list. -/
def entered (events : List Log) (a : Address) (e : PoolType × List Log) : PoolType × List Log :=
  (e.1, e.2 ++ (events.filter (·.ownedBy a e.1)).map Log.untimed)

theorem PoolRegistry.ledger_replayed (r : PoolRegistry (Traced π)) (events : List Log) (a : Address) :
    (r.replayed clock events).ledger a = (r.ledger a).map (entered events a) := by
  unfold ledger
  cases hq : (r.replayed clock events).getPool a with
  | none =>
    unfold replayed getPool at hq
    rw [lookup_replay, Option.map_eq_none_iff] at hq
    unfold getPool
    rw [hq]
    rfl
  | some q =>
    obtain ⟨p, hp, ht, hg⟩ := getPool_replayed hq
    rw [hp, Option.map_some, Option.map_some, Option.map_some, ht, hg]
    rfl

theorem PoolRegistry.mem_of_ledger {r : PoolRegistry (Traced π)} {a : Address} {e : PoolType × List Log}
    (h : r.ledger a = some e) : a ∈ r.getAllAddresses := by
  obtain ⟨p, hp, -⟩ := Option.map_eq_some_iff.1 h
  exact mem_of_getPool hp

/-- Which pool a log is of does not depend on its block time, -/
theorem ownedBy_fillBlockTimestamp (a : Address) (t : PoolType) (wanted : Log → Bool) (times : Nat → Option Nat)
    (l : Log) : (l.fillBlockTimestamp wanted times).ownedBy a t = l.ownedBy a t := by
  unfold Log.fillBlockTimestamp
  split
  · split <;> rfl
  · rfl

/-- so the block times filled in do not change what a pool is given. -/
theorem owned_filled (wanted : Log → Bool) (times : Nat → Option Nat) (events : List Log) (a : Address) (t : PoolType) :
    ((events.map (·.fillBlockTimestamp wanted times)).filter (·.ownedBy a t)).map Log.untimed =
      (events.filter (·.ownedBy a t)).map Log.untimed := by
  rw [List.filter_map, List.map_map]
  have hf : ((fun l : Log => l.ownedBy a t) ∘ fun l : Log => l.fillBlockTimestamp wanted times) =
      fun l : Log => l.ownedBy a t := funext fun l => ownedBy_fillBlockTimestamp ..
  rw [hf]
  exact List.map_congr_left fun l _ => Log.untimed_fillBlockTimestamp ..

theorem owned_enriched (r : PoolRegistry (Traced π)) (times : Nat → Option Nat) (events : List Log) (a : Address)
    (t : PoolType) :
    ((r.enrichIfLbPoolsPresent times events).filter (·.ownedBy a t)).map Log.untimed =
      (events.filter (·.ownedBy a t)).map Log.untimed := owned_filled ..

theorem entered_enriched (r : PoolRegistry (Traced π)) (times : Nat → Option Nat) (events : List Log) (a : Address) :
    entered (r.enrichIfLbPoolsPresent times events) a = entered events a := by
  funext e
  unfold entered
  rw [owned_enriched]

theorem entered_append (xs ys : List Log) (a : Address) (e : PoolType × List Log) :
    entered (xs ++ ys) a e = entered ys a (entered xs a e) := by
  unfold entered
  rw [List.filter_append, List.map_append, List.append_assoc]

/-- The pools have been given their own logs of the list, and are the same pools. -/
structure PoolRegistry.Gives (r : PoolRegistry (Traced π)) (events : List Log) (r' : PoolRegistry (Traced π)) : Prop where
  ledger : ∀ a, r'.ledger a = (r.ledger a).map (entered events a)
  addresses : r'.getAllAddresses = r.getAllAddresses
  topics : r'.topics = r.topics

theorem PoolRegistry.gives_replayed (clock : Log → Nat) (r : PoolRegistry (Traced π)) (events : List Log) :
    r.Gives events (r.replayed clock events) := ⟨ledger_replayed r events, getAllAddresses_replayed clock r events, rfl⟩

/-- Block times filled in do not matter. -/
theorem PoolRegistry.Gives.of_enriched {r r' : PoolRegistry (Traced π)} {times : Nat → Option Nat} {events : List Log}
    (h : r.Gives (r.enrichIfLbPoolsPresent times events) r') : r.Gives events r' where
  ledger a := by
    rw [h.ledger, entered_enriched]
  addresses := h.addresses
  topics := h.topics

theorem PoolRegistry.Gives.trans {r r1 r2 : PoolRegistry (Traced π)} {xs ys : List Log} (h : r.Gives xs r1)
    (h1 : r1.Gives ys r2) : r.Gives (xs ++ ys) r2 where
  ledger a := by
    rw [h1.ledger, h.ledger, Option.map_map]
    refine congrArg (Option.map · _) (funext fun e => ?_)
    exact (entered_append xs ys a e).symm
  addresses := h1.addresses.trans h.addresses
  topics := h1.topics.trans h.topics

/-- The log is one of a registered pool. -/
def PoolRegistry.Concerned {π : Type} [PoolInterface π] (r : PoolRegistry π) (l : Log) : Prop :=
  ∃ p, r.getPool l.address = some p ∧ (PoolInterface.poolType p).concerns l

theorem PoolRegistry.concerned_iff {r : PoolRegistry (Traced π)} {l : Log} :
    r.Concerned l ↔ ∃ e, r.ledger l.address = some e ∧ l.ownedBy l.address e.1 := by
  unfold Concerned ledger Log.ownedBy
  cases r.getPool l.address with
  | none => simp
  | some p => simp

theorem PoolRegistry.concerned_of_owned {r : PoolRegistry (Traced π)} {a : Address} {e : PoolType × List Log} {l : Log}
    (he : r.ledger a = some e) (ho : l.ownedBy a e.1) : r.Concerned l := by
  have ha : l.address = a := (of_decide_eq_true ho).1
  subst ha
  exact concerned_iff.2 ⟨e, he, ho⟩

theorem PoolRegistry.Gives.concerned {r r' : PoolRegistry (Traced π)} {ls : List Log} (h : r.Gives ls r') (l : Log) :
    r'.Concerned l ↔ r.Concerned l := by
  rw [concerned_iff, concerned_iff, h.ledger]
  cases r.ledger l.address with
  | none => simp
  | some e => simp [entered]

/-- Every pool has been given each of its logs that satisfy `f` once, and no other. -/
def PoolRegistry.Holds (r : PoolRegistry (Traced π)) (c : Chain) (f : Log → Bool) : Prop :=
  ∀ a e, r.ledger a = some e → e.2.Perm (c.ownWhere a e.1 f)

theorem PoolRegistry.Holds.congr {r : PoolRegistry (Traced π)} {c : Chain} {f g : Log → Bool} (h : r.Holds c f)
    (hfg : ∀ a e, r.ledger a = some e → ∀ l ∈ c.logs, l.ownedBy a e.1 → (f l ↔ g l)) : r.Holds c g := by
  intro a e he
  rw [← c.ownWhere_congr (hfg a e he)]
  exact h a e he

theorem PoolRegistry.Gives.holds {r r' : PoolRegistry (Traced π)} {ls : List Log} {c : Chain} {f g : Log → Bool}
    (h : r.Gives ls r') (hf : r.Holds c f) (hn : ls.Nodup) (hm : ∀ l ∈ ls, l ∈ c.logs)
    (hfg : ∀ a e, r.ledger a = some e → ∀ l ∈ c.logs, l.ownedBy a e.1 → (g l ↔ f l ∨ l ∈ ls) ∧ ¬ (f l ∧ l ∈ ls)) :
    r'.Holds c g := by
  intro a e he
  rw [h.ledger] at he
  obtain ⟨e0, he0, rfl⟩ := Option.map_eq_some_iff.1 he
  exact ((hf a e0 he0).append_right _).trans (c.ownWhere_append_perm hn hm (hfg a e0 he0))

/-- What a query at the registry's addresses returns of a registered pool. -/
theorem Chain.owned_getLogs (c : Chain) {addresses : List Address} {topics : List Topic} {a : Address} (t : PoolType)
    (fromBlock toBlock : Nat) (ha : a ∈ addresses) :
    ((c.getLogs addresses topics fromBlock toBlock).filter (·.ownedBy a t)).map Log.untimed =
      c.ownWhere a t fun l => (fromBlock ≤ l.block ∧ l.block ≤ toBlock) ∧ (topics = [] ∨ ∃ x ∈ topics, l.topic0 = some x) := by
  unfold Chain.getLogs Chain.ownWhere
  rw [List.filter_filter]
  refine congrArg _ (List.filter_congr fun l _ => ?_)
  unfold matchesFilter Log.ownedBy
  by_cases h : l.address = a
  · subst h
    simp [ha]
  · simp [h]

end

end EvmDexPool
