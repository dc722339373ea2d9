import EvmDexPool.Collector.AppliedOnce
import EvmDexPool.Collector.PolledRuns

/-!
# Pools behind a websocket and what they stand for

A session gives a pool its logs from three sides: the catch-up before the floor, the events bootstrap drained and fetched, and
the blocks released. One feed's queue is in the order of the chain (`Pipeline.InLine`), and so are bootstrap's events and each
block; as long as no block goes on with a log that is before one already applied, the whole is. When besides nothing waits
that the cursor covers, the pool has been given exactly its logs from the saved cursor to the new one, in their order, and it
stands for what is there at the cursor (`Session.Standing.shows`). A session may then be stopped there and another
one started, any number of times.
-/

namespace EvmDexPool

open Std Replay

/-! ## The queue of one feed -/

namespace Pipeline
variable {c : Chain} {addresses : List Address} {s : Pipeline}

/-- What one feed has sent and the source has not yet handed out is in the order of the chain; what gaps were filled at
bootstrap is put in order there. -/
structure InLine (s : Pipeline) : Prop where
  queue : (s.queue.queue ++ s.sending.toList).Pairwise fun x y => x.place < y.place
  drained : ∀ drained, s.stage = .catchingUp drained → drained.Pairwise fun x y => x.place < y.place
  events : ∀ drained events, s.stage = .bootFilling drained events false → events.Pairwise fun x y => x.place < y.place
  settled : ∀ r, s.stage = .settled r → r.logs.Pairwise fun x y => x.placeInBlock ≤ y.placeInBlock

/-- A step that leaves the stage, and sends nothing new. -/
theorem InLine.frame (h : s.InLine) {s' : Pipeline} (hstage : s'.stage = s.stage)
    (hqueue : (s'.queue.queue ++ s'.sending.toList).Sublist (s.queue.queue ++ s.sending.toList)) : s'.InLine :=
  ⟨h.queue.sublist hqueue, fun d hd => h.drained d (hstage ▸ hd), fun d e hd => h.events d e (hstage ▸ hd),
    fun r hr => h.settled r (hstage ▸ hr)⟩

/-- A step into a stage of the loop that holds no logs. -/
theorem InLine.loop (h : s.InLine) {s' : Pipeline} (hdrained : ∀ d, s'.stage ≠ .catchingUp d)
    (hevents : ∀ d e, s'.stage ≠ .bootFilling d e false) (hsettled : ∀ r, s'.stage ≠ .settled r)
    (hqueue : (s'.queue.queue ++ s'.sending.toList).Sublist (s.queue.queue ++ s.sending.toList)) : s'.InLine :=
  ⟨h.queue.sublist hqueue, fun d hd => absurd hd (hdrained d), fun d e hd => absurd hd (hevents d e),
    fun r hr => absurd hr (hsettled r)⟩

theorem InLine.deliver (h : s.InLine) (hs : s.Sound c addresses) : s.deliver.InLine := by
  unfold Pipeline.deliver
  split
  · next l rest hc hsend ha =>
    have hqueue : ((s.progress.forwarding l).2.elim s.queue s.queue.noteGap).queue = s.queue.queue := by
      cases (s.progress.forwarding l).2 <;> rfl
    refine ⟨?_, h.drained, h.events, h.settled⟩
    dsimp only
    rw [hqueue]
    have hold := h.queue
    rw [hsend, Option.toList_none, List.append_nil] at hold
    refine List.pairwise_append.2 ⟨hold, List.pairwise_singleton .., fun m hm m' hm' => ?_⟩
    rw [Option.mem_toList.1 hm' |> Option.some.inj |> Eq.symm]
    exact (hs.next ha).1 m (hs.queued m (List.mem_append_left _ hm)).1
  · exact h

theorem InLine.send (h : s.InLine) (hs : s.Sound c addresses) : s.send.InLine := by
  unfold Pipeline.send
  split
  · next l hsend =>
    obtain ⟨hb, -⟩ := hs.queued l (List.mem_append_right _ (by
      rw [hsend]
      exact List.mem_singleton_self l))
    obtain ⟨k, hk⟩ := Option.isSome_iff_exists.1 (hs.mined hb).key
    obtain ⟨hq, -, -⟩ := EventQueue.send_effect (q := s.queue) hk
    refine h.frame rfl ?_
    rw [hsend, Option.toList_none, List.append_nil]
    rcases hq with hq | ⟨hq, -⟩
    · rw [hq]
      exact List.Sublist.refl _
    · rw [hq]
      exact List.sublist_append_left ..
  · exact h

theorem InLine.bootDrain (h : s.InLine) (latest : Nat) : (s.bootDrain latest).InLine := by
  unfold Pipeline.bootDrain
  split
  · refine ⟨h.queue.sublist (List.sublist_append_right ..), fun d hd => ?_, fun _ _ hd => Stage.noConfusion hd,
      fun _ hd => Stage.noConfusion hd⟩
    cases hd
    exact (List.pairwise_append.1 h.queue).1
  · exact h

theorem InLine.bootTakeGaps (h : s.InLine) : s.bootTakeGaps.InLine := by
  unfold Pipeline.bootTakeGaps
  split
  · next drained hstage =>
    refine ⟨h.queue, fun _ hd => Stage.noConfusion hd, fun d e hd => ?_, fun _ hd => Stage.noConfusion hd⟩
    cases hd
    exact h.drained _ hstage
  · exact h

theorem InLine.bootGap (h : s.InLine) (hs : s.Sound c addresses) : (s.bootGap c addresses).InLine := by
  unfold Pipeline.bootGap
  split
  · next drained events filled g rest hstage ht =>
    split
    · refine ⟨?_, fun _ hd => Stage.noConfusion hd, fun d e hd => ?_, fun _ hd => Stage.noConfusion hd⟩
      · dsimp only
        rw [(hs.fetchGap ht).2.1]
        exact h.queue
      · cases hd
    · refine ⟨h.queue, fun _ hd => Stage.noConfusion hd, fun d e hd => ?_, fun _ hd => Stage.noConfusion hd⟩
      cases hd
      exact h.events _ _ hstage
  · exact h

theorem InLine.takeReady (h : s.InLine) (now : Nat) : (s.takeReady now).InLine := by
  unfold Pipeline.takeReady
  split
  · rcases hr : s.source.settler.takeReady now with ⟨st, _ | r⟩
    · exact h.loop (fun _ hd => Stage.noConfusion hd) (fun _ _ hd => Stage.noConfusion hd) (fun _ hd => Stage.noConfusion hd)
        (List.Sublist.refl _)
    · refine ⟨h.queue, fun _ hd => Stage.noConfusion hd, fun _ _ hd => Stage.noConfusion hd, fun r' hr' => ?_⟩
      obtain rfl : r = r' := Stage.settled.inj hr'
      rw [(BlockSettler.takeReady_some hr).logs]
      exact List.pairwise_insertionSort _ _
  · exact h

theorem InLine.step (h : s.InLine) (hs : s.Sound c addresses) (a : Action) : (s.step c addresses a).InLine := by
  cases a with
  | subscribe =>
    unfold Pipeline.step Pipeline.subscribe
    dsimp only
    split
    · exact h
    · exact h.frame rfl (List.Sublist.refl _)
  | disconnect => exact h.frame rfl (List.Sublist.refl _)
  | miss =>
    unfold Pipeline.step Pipeline.miss
    dsimp only
    split
    · exact h.frame rfl (List.Sublist.refl _)
    · exact h
  | overflow =>
    unfold Pipeline.step Pipeline.overflow
    dsimp only
    split
    · exact h.frame rfl (List.Sublist.refl _)
    · exact h
  | deliver => exact h.deliver hs
  | send => exact h.send hs
  | bootDrain latest => exact h.bootDrain latest
  | bootTakeGaps => exact h.bootTakeGaps
  | bootGap => exact h.bootGap hs
  | bootDone =>
    unfold Pipeline.step Pipeline.bootDone
    dsimp only
    split
    · exact h.loop (fun _ hd => Stage.noConfusion hd) (fun _ _ hd => Stage.noConfusion hd) (fun _ hd => Stage.noConfusion hd)
        (List.Sublist.refl _)
    · exact h
  | intake now =>
    unfold Pipeline.step Pipeline.intake
    dsimp only
    split
    · exact h.loop (fun _ hd => Stage.noConfusion hd) (fun _ _ hd => Stage.noConfusion hd) (fun _ hd => Stage.noConfusion hd)
        (List.sublist_append_right ..)
    · exact h
  | takeGaps =>
    unfold Pipeline.step Pipeline.takeGaps
    dsimp only
    split
    · exact h.loop (fun _ hd => Stage.noConfusion hd) (fun _ _ hd => Stage.noConfusion hd) (fun _ hd => Stage.noConfusion hd)
        (List.Sublist.refl _)
    · exact h
  | fill now =>
    unfold Pipeline.step Pipeline.fill
    dsimp only
    split
    · next g rest hstage ht =>
      refine h.frame rfl ?_
      change List.Sublist ((s.source.fetchGap c addresses g s.queue).1.queue ++ _) _
      rw [(hs.fetchGap ht).2.1]
    · exact h
  | takeReady now => exact h.takeReady now
  | handOn =>
    unfold Pipeline.step Pipeline.handOn
    dsimp only
    split
    · exact h.loop (fun _ hd => Stage.noConfusion hd) (fun _ _ hd => Stage.noConfusion hd) (fun _ hd => Stage.noConfusion hd)
        (List.Sublist.refl _)
    · exact h

theorem inLine_init (c : Chain) (addresses : List Address) (topics : List Topic) (maxEvents maxBlocks settle : Nat) :
    (init c addresses topics maxEvents maxBlocks settle).InLine :=
  ⟨.nil, fun _ hd => Stage.noConfusion hd, fun _ _ hd => Stage.noConfusion hd, fun _ hd => Stage.noConfusion hd⟩

end Pipeline

/-! ## Logs in the order of the chain -/

section Order
variable {c : Chain} {ls : List Log} {x y : Log}

theorem Log.Mined.sortKey_eq (h : x.Mined) : x.sortKey = x.place := by
  unfold Log.sortKey
  rw [h.position, Option.getD_some]

/-- Within a block the place of a log is its place in the block. -/
theorem place_le_of_placeInBlock (hx : x.Mined) (hy : y.Mined) (hblock : x.block = y.block)
    (h : x.placeInBlock ≤ y.placeInBlock) : x.place ≤ y.place := by
  have hkey : ∀ l : Log, l.Mined → l.place = toLex (l.block, l.placeInBlock) := by
    intro l hl
    have hp := hl.position
    unfold Log.position at hp
    split at hp
    · next b t i hb ht hi =>
      unfold Log.block Log.placeInBlock
      rw [← Option.some.inj hp, hb, ht, hi]
      rfl
    · cases hp
  rw [hkey x hx, hkey y hy, hblock]
  exact Prod.Lex.le_iff.2 (.inr ⟨rfl, h⟩)

/-- Of the chain's logs no two have one place. -/
theorem Chain.lt_of_place_le (c : Chain) (hx : x ∈ c.logs) (hy : y ∈ c.logs) (hne : x ≠ y) (h : x.place ≤ y.place) :
    x.place < y.place := by
  refine h.lt_of_ne fun heq => ?_
  have : Std.Symm fun a b : Log => a.place ≠ b.place := ⟨fun _ _ h => h.symm⟩
  exact (c.sorted.imp fun {a b} (hab : a.place < b.place) => hab.ne).forall hx hy hne heq

/-- Logs of the chain, each there once, that do not go back in place are in its order. -/
theorem Chain.pairwise_lt (c : Chain) (hm : ∀ l ∈ ls, l ∈ c.logs) (hn : ls.Nodup)
    (h : ls.Pairwise fun x y => x.place ≤ y.place) : ls.Pairwise fun x y => x.place < y.place :=
  (h.and hn).imp_of_mem fun {x y} hx hy hxy => c.lt_of_place_le (hm x hx) (hm y hy) hxy.2 hxy.1

/-- A block's logs, each there once, as the settler hands them on. -/
theorem Chain.block_pairwise (c : Chain) {block : Nat} (hm : ∀ l ∈ ls, l ∈ c.logs ∧ l.block = block) (hn : ls.Nodup)
    (h : ls.Pairwise fun x y => x.placeInBlock ≤ y.placeInBlock) : ls.Pairwise fun x y => x.place < y.place := by
  refine c.pairwise_lt (fun l hl => (hm l hl).1) hn (h.imp_of_mem fun {x y} hx hy hxy => ?_)
  exact place_le_of_placeInBlock (c.mined x (hm x hx).1) (c.mined y (hm y hy).1) ((hm x hx).2.trans (hm y hy).2.symm) hxy

/-- Buffered logs, each there once, as bootstrap puts them in order. -/
theorem Chain.byPosition_pairwise (c : Chain) (hm : ∀ l ∈ ls, l ∈ c.logs) (hn : ls.Nodup) :
    (WebsocketBlockSource.byPosition ls).Pairwise fun x y => x.place < y.place := by
  have hperm : (WebsocketBlockSource.byPosition ls).Perm ls := List.perm_insertionSort ..
  have hmined : ∀ l ∈ WebsocketBlockSource.byPosition ls, l.Mined := fun l hl => c.mined l (hm l (hperm.mem_iff.1 hl))
  refine c.pairwise_lt (fun l hl => hm l (hperm.mem_iff.1 hl)) (hperm.nodup_iff.2 hn) ?_
  refine (List.pairwise_insertionSort (fun x y : Log => x.sortKey ≤ y.sortKey) ls).imp_of_mem fun {x y} hx hy hxy => ?_
  rwa [(hmined x hx).sortKey_eq, (hmined y hy).sortKey_eq] at hxy

/-- A pool's logs of some blocks, in the order of the chain: there is one such list. -/
theorem Chain.eq_ownBetween (c : Chain) {a : Address} {t : PoolType} {m n : Nat} (hsorted : ls.Pairwise fun x y => x.place < y.place)
    (hmem : ∀ l, l ∈ ls ↔ l ∈ c.logs ∧ l.ownedBy a t ∧ m < l.block ∧ l.block ≤ n) : ls = c.ownBetween a t m n := by
  have hown : (c.ownBetween a t m n).Pairwise fun x y => x.place < y.place := c.sorted.sublist List.filter_sublist
  have hnodup : ∀ {ls : List Log}, (ls.Pairwise fun x y => x.place < y.place) → ls.Nodup := fun h =>
    h.imp fun {x y} (hxy : x.place < y.place) (heq : x = y) => absurd hxy (by rw [heq]; exact lt_irrefl _)
  refine ((List.perm_ext_iff_of_nodup (hnodup hsorted) (hnodup hown)).2 fun l => ?_).eq_of_pairwise
    (fun x y _ _ hxy hyx => absurd (hxy.trans hyx) (lt_irrefl _)) hsorted hown
  rw [hmem]
  unfold Chain.ownBetween
  rw [List.mem_filter, decide_eq_true_iff]

end Order

/-! ## What a pool is called with -/

/-- A pool's calls of `apply_log`, each with what the clock says at it. -/
def callAll {π : Type} [PoolInterface π] (calls : List (Nat × Log)) (p : π) : π :=
  calls.foldl (fun p x => (PoolInterface.applyLog x.1 x.2 p).1) p

theorem poolType_callAll {π : Type} [PoolInterface π] (calls : List (Nat × Log)) (p : π) :
    PoolInterface.poolType (callAll calls p) = PoolInterface.poolType p := by
  induction calls generalizing p with
  | nil => rfl
  | cons x calls ih => exact (ih _).trans (PoolInterface.poolType_applyLog x.1 x.2 p)

/-- Calls with different logs go by one clock. -/
theorem exists_clock {calls : List (Nat × Log)} (h : (calls.map Prod.snd).Nodup) :
    ∃ clock : Log → Nat, ∀ x ∈ calls, clock x.2 = x.1 := by
  induction calls with
  | nil => exact ⟨fun _ => 0, fun x hx => absurd hx List.not_mem_nil⟩
  | cons x calls ih =>
    rw [List.map_cons, List.nodup_cons] at h
    obtain ⟨clock, hclock⟩ := ih h.2
    refine ⟨fun l => if l = x.2 then x.1 else clock l, fun y hy => ?_⟩
    dsimp only
    rcases List.mem_cons.1 hy with rfl | hy
    · rw [if_pos rfl]
    · have hne : y.2 ≠ x.2 := fun heq => h.1 (heq ▸ List.mem_map_of_mem hy)
      rw [if_neg hne, hclock y hy]

theorem callAll_eq {π : Type} [PoolInterface π] {clock : Log → Nat} {calls : List (Nat × Log)}
    (h : ∀ x ∈ calls, clock x.2 = x.1) (p : π) :
    callAll calls p = (calls.map Prod.snd).foldl (fun p l => stepLog clock l p) p := by
  induction calls generalizing p with
  | nil => rfl
  | cons x calls ih =>
    have hstep : (PoolInterface.applyLog x.1 x.2 p).1 = stepLog clock x.2 p := by
      rw [← h x List.mem_cons_self]
      rfl
    rw [List.map_cons, List.foldl_cons, ← hstep]
    exact ih (fun y hy => h y (List.mem_cons_of_mem x hy)) _

namespace Mirroring
variable {π : Type} [PoolInterface π] {c : Chain} {a : Address} {t : PoolType}

/-- A traced pool stands for what the pool does. -/
def traced (M : Mirroring π c a t) : Mirroring (Traced π) c a t where
  Shows n p := M.Shows n p.pool
  Dates := M.Dates
  ofType h := M.ofType h
  next := by
    intro n p clock times hdates hp
    have hpool : ∀ (ls : List Log) (p : Traced π), (ls.foldl (fun p l => stepLog clock l p) p).pool =
        ls.foldl (fun p l => stepLog clock l p) p.pool := by
      intro ls
      induction ls with
      | nil => exact fun _ => rfl
      | cons l ls ih => exact fun p => ih (stepLog clock l p)
    rw [hpool]
    exact M.next clock hdates hp
  passes := by
    intro p l now htype hother
    change (⟨_, if (PoolInterface.poolType p.pool).concerns l then _ else p.given⟩ : Traced π) = p
    rw [show PoolInterface.poolType p.pool = t from htype, if_neg hother, M.passes now htype hother]

variable (M : Mirroring π c a t)

/-- Called with its logs of some blocks a pool goes on to the last of them, whatever the clocks say. -/
theorem called (ht : t ≠ .TraderJoeLB) {times : Nat → Option Nat} (hdates : M.Dates times) {m n : Nat} (hmn : m ≤ n) {p : π}
    (hp : M.Shows m p) {calls : List (Nat × Log)} (hcalls : calls.map Prod.snd = c.ownBetween a t m n) :
    M.Shows n (callAll calls p) := by
  have hnodup : (calls.map Prod.snd).Nodup := hcalls ▸ c.nodup.sublist List.filter_sublist
  obtain ⟨clock, hclock⟩ := exists_clock hnodup
  have hthrough := M.through clock hdates hmn hp
  rw [PoolType.map_received ht] at hthrough
  rwa [callAll_eq hclock, hcalls]

end Mirroring

namespace PoolRegistry
variable {π : Type} [PoolInterface π] {c : Chain} {a : Address} {t : PoolType} {r r1 r2 : PoolRegistry π} {xs ys : List Log}

/-- The pool at `a` has been called with its logs of the list, in their order, and stays. -/
def Takes (a : Address) (t : PoolType) (r : PoolRegistry π) (ls : List Log) (r' : PoolRegistry π) : Prop :=
  ∀ p, r.getPool a = some p → PoolInterface.poolType p = t →
    ∃ calls : List (Nat × Log), calls.map Prod.snd = ls.filter (·.ownedBy a t) ∧ r'.getPool a = some (callAll calls p)

theorem Takes.trans (h : r.Takes a t xs r1) (h' : r1.Takes a t ys r2) : r.Takes a t (xs ++ ys) r2 := by
  intro p hp htype
  obtain ⟨calls, hcalls, hp1⟩ := h p hp htype
  obtain ⟨more, hmore, hp2⟩ := h' _ hp1 ((poolType_callAll calls p).trans htype)
  refine ⟨calls ++ more, by rw [List.map_append, hcalls, hmore, List.filter_append], ?_⟩
  rw [hp2]
  unfold callAll
  rw [List.foldl_append]

/-- A replay calls a pool with its logs. -/
theorem takes_replayed (M : Mirroring π c a t) (ht : t ≠ .TraderJoeLB) (clock : Log → Nat) (times : Nat → Option Nat)
    (ls : List Log) : r.Takes a t ls (r.replayed clock (r.enrichIfLbPoolsPresent times ls)) := by
  intro p hp htype
  refine ⟨(ls.filter (·.ownedBy a t)).map fun l => (clock l, l), ?_, ?_⟩
  · rw [List.map_map]
    exact List.map_id _
  · have hlookup := lookup_replay (·.address) (stepLog clock) r.byAddress (r.enrichIfLbPoolsPresent times ls) a
    refine (hlookup.trans (congrArg (Option.map _) hp)).trans (congrArg some ?_)
    unfold own
    rw [M.foldl_own clock htype, Mirroring.filter_enriched hp htype, PoolType.map_received ht]
    unfold callAll
    rw [List.foldl_map]
    rfl

end PoolRegistry

/-! ## What a pool of a session has been called with -/

/-- What the source has been through is of the chain, and applied; but for the catch-up it is from the floor on. -/
theorem Pipeline.applied_of_through {π : Type} [PoolInterface π] {c : Chain} {addresses : List Address} {s : Pipeline}
    {r₀ : PoolRegistry π} {events : List Log} (hs : s.Sound c addresses) (hu : s.Unpriced) (hperm : events.Perm s.bootstrapped)
    {l : Log} (hl : l ∈ s.caught c r₀ ++ events ++ s.releasedLogs) :
    l ∈ c.logs ∧ s.applied l ∧ (r₀.lastProcessedBlock < l.block ∨ s.source.fillFloor ≤ l.place) := by
  rw [Pipeline.applied_iff]
  rcases List.mem_append.1 hl with hl | hl
  · rcases List.mem_append.1 hl with hl | hl
    · obtain ⟨hl, hp⟩ := List.mem_filter.1 hl
      exact ⟨(List.mem_filter.1 hl).1, .inl (of_decide_eq_true hp).2, .inl (of_decide_eq_true hp).1⟩
    · have hl := hperm.mem_iff.1 hl
      obtain ⟨hlog, hfloor⟩ := hs.past_floor (List.mem_append_left _ hl)
      exact ⟨hlog, .inr (.inl hl), .inr hfloor⟩
  · obtain ⟨e, he, hle⟩ := List.mem_flatMap.1 hl
    obtain ⟨hlog, hfloor⟩ := hs.past_floor (List.mem_append_right _ (hu.released e he l hle))
    exact ⟨hlog, .inr (.inr hl), .inr hfloor⟩

/-- The pool at `a` has been called with the logs the source has been through, and these are in the order of the chain. -/
structure Follows {π : Type} [PoolInterface π] (c : Chain) (a : Address) (t : PoolType) (r₀ r : PoolRegistry π) (s : Pipeline) :
    Prop where
  saved : s.stage = .created ∨ (∃ drained, s.stage = .catchingUp drained) → r = r₀
  floor : s.stage ≠ .created → s.source.fillFloor.block < 2 ^ 64 ∧ r₀.lastProcessedBlock ≤ s.source.fillFloor.block ∧
    ∀ l ∈ c.logs, l.ownedBy a t → s.source.fillFloor ≤ l.place → r₀.lastProcessedBlock < l.block
  filling : ∀ drained events filled, s.stage = .bootFilling drained events filled → r₀.Takes a t (s.caught c r₀) r
  given : s.stage.boots = false → ∃ events, events.Perm s.bootstrapped ∧
    r₀.Takes a t (s.caught c r₀ ++ events ++ s.releasedLogs) r ∧
    (s.caught c r₀ ++ events ++ s.releasedLogs).Pairwise fun x y => x.ownedBy a t → y.ownedBy a t → x.place < y.place
  risen : s.stage.boots = false → r₀.lastProcessedBlock ≤ r.lastProcessedBlock ∧
    r.lastProcessedBlock ≤ s.source.settler.releasedThrough

namespace Follows
variable {π : Type} [PoolInterface π] {c : Chain} {a : Address} {t : PoolType} {r₀ r r' : PoolRegistry π} {s : Pipeline}

/-- The pool is there all along. -/
theorem typed (h : Follows c a t r₀ r s) (hp : ∃ p, r₀.getPool a = some p ∧ PoolInterface.poolType p = t) :
    ∃ p, r.getPool a = some p ∧ PoolInterface.poolType p = t := by
  have htaken : ∀ {ls : List Log}, r₀.Takes a t ls r → ∃ p, r.getPool a = some p ∧ PoolInterface.poolType p = t := by
    intro ls htakes
    obtain ⟨p, hp, htype⟩ := hp
    obtain ⟨calls, -, hcalled⟩ := htakes p hp htype
    exact ⟨_, hcalled, (poolType_callAll calls p).trans htype⟩
  cases hst : s.stage with
  | created => exact h.saved (.inl hst) ▸ hp
  | catchingUp drained => exact h.saved (.inr ⟨drained, hst⟩) ▸ hp
  | bootFilling drained events filled => exact htaken (h.filling _ _ _ hst)
  | draining | drained | filling | settled =>
    obtain ⟨events, -, htakes, -⟩ := h.given (by rw [hst]; rfl)
    exact htaken htakes

theorem quiet (h : Follows c a t r₀ r s) {s' : Pipeline} (hq : s.Quiet s') : Follows c a t r₀ r s' := by
  have hcaught : s'.caught c r₀ = s.caught c r₀ := by
    unfold Pipeline.caught
    rw [hq.topics, hq.floor]
  have hgiven : s.stage.boots = false → ∃ events, events.Perm s'.bootstrapped ∧
      r₀.Takes a t (s'.caught c r₀ ++ events ++ s'.releasedLogs) r ∧
      (s'.caught c r₀ ++ events ++ s'.releasedLogs).Pairwise fun x y => x.ownedBy a t → y.ownedBy a t → x.place < y.place := by
    intro hb
    unfold Pipeline.releasedLogs
    rw [hcaught, hq.bootstrapped hb, hq.released]
    exact h.given hb
  have hcreated : s'.stage ≠ .created → s.stage ≠ .created := by
    rintro hne hst
    rcases hq.stage with heq | ⟨hb, -⟩ | ⟨⟨d, e, f, heq⟩, -⟩
    · exact hne (heq.trans hst)
    · rw [hst] at hb
      cases hb
    · rw [hst] at heq
      cases heq
  have hfloor : s'.stage ≠ .created → s'.source.fillFloor.block < 2 ^ 64 ∧ r₀.lastProcessedBlock ≤ s'.source.fillFloor.block ∧
      ∀ l ∈ c.logs, l.ownedBy a t → s'.source.fillFloor ≤ l.place → r₀.lastProcessedBlock < l.block := by
    rw [hq.floor]
    exact fun hne => h.floor (hcreated hne)
  have hrisen : s.stage.boots = false → r₀.lastProcessedBlock ≤ r.lastProcessedBlock ∧
      r.lastProcessedBlock ≤ s'.source.settler.releasedThrough :=
    fun hb => ⟨(h.risen hb).1, (h.risen hb).2.trans hq.through⟩
  rcases hq.stage with hst | ⟨hb, hb'⟩ | ⟨⟨d, e, f, hst⟩, d', e', f', hst'⟩
  · refine ⟨?_, hfloor, ?_, fun hb => hgiven (hst ▸ hb), fun hb => hrisen (hst ▸ hb)⟩
    · rw [hst]
      exact h.saved
    · rw [hst, hcaught]
      exact h.filling
  · -- in the loop
    have hno : ∀ {st : Stage}, s'.stage = st → st.boots = false := fun hst => hst ▸ hb'
    refine ⟨?_, hfloor, fun d e f hd => Bool.noConfusion (hno hd), fun _ => hgiven hb, fun _ => hrisen hb⟩
    rintro (hd | ⟨d, hd⟩)
    · exact Bool.noConfusion (hno hd)
    · exact Bool.noConfusion (hno hd)
  · -- a gap of bootstrap's
    have hboots : ∀ b, s'.stage.boots = b → b = true := by
      rintro b rfl
      rw [hst']
      rfl
    refine ⟨fun hd => ?_, hfloor, fun _ _ _ _ => ?_, fun hb => Bool.noConfusion (hboots _ hb),
      fun hb => Bool.noConfusion (hboots _ hb)⟩
    · rw [hst'] at hd
      rcases hd with hd | ⟨_, hd⟩
      · cases hd
      · cases hd
    · rw [hcaught]
      exact h.filling _ _ _ hst

/-- The floor that bootstrap's drain fixes is not below the saved cursor. -/
theorem bootDrain (h : Follows c a t r₀ r s) {latest : Nat} (hl : latest < 2 ^ 64) (hq : ∀ l ∈ s.queue.queue, l.Mined)
    (hst : s.stage = .created)
    (hcursor : r₀.lastProcessedBlock ≤ (WebsocketBlockSource.firstQueuedPosition latest s.queue.queue).block)
    (hpast : ∀ l ∈ c.logs, l.ownedBy a t → WebsocketBlockSource.firstQueuedPosition latest s.queue.queue ≤ l.place →
      r₀.lastProcessedBlock < l.block) : Follows c a t r₀ r (s.bootDrain latest) := by
  unfold Pipeline.bootDrain
  rw [hst]
  exact ⟨fun _ => h.saved (.inl hst), fun _ => ⟨WebsocketBlockSource.firstQueuedPosition_block hl hq, hcursor, hpast⟩,
    fun _ _ _ hd => Stage.noConfusion hd, fun hb => (Bool.false_ne_true hb.symm).elim,
    fun hb => (Bool.false_ne_true hb.symm).elim⟩

/-- A block handed on whose logs come after those applied. -/
theorem handOn {addresses : List Address} (h : Follows c a t r₀ r s) (hs : s.Sound c addresses) (hse : s.Settling)
    (hu : s.Unpriced) (hi : s.InLine) {x : Settled} (hst : s.stage = .settled x)
    (hmem : ∀ l ∈ x.logs, l ∈ c.logs ∧ l.block = x.block)
    (hafter : ∀ l ∈ x.logs, ∀ y ∈ c.logs, y.address = l.address → s.applied y → y.place < l.place)
    (htakes : r.Takes a t x.logs r') (hcursor : r'.lastProcessedBlock = x.processedThrough) :
    Follows c a t r₀ r' s.handOn := by
  obtain ⟨hthrough, -⟩ := hse.through x hst
  have hboots : s.stage.boots = false := by
    rw [hst]
    rfl
  have hfloor := h.floor (by rw [hst]; exact Stage.noConfusion)
  obtain ⟨events, hperm, hgiven, hsorted⟩ := h.given hboots
  have hblock : x.logs.Pairwise fun y z => y.place < z.place :=
    c.block_pairwise hmem (Pipeline.settled_fresh hs hse hu hst).1 (hi.settled x hst)
  unfold Pipeline.handOn
  rw [hst]
  have hreleased : ∀ st mode, (Pipeline.releasedLogs { s with stage := st, released := s.released ++ [(x, mode)] }) =
      s.releasedLogs ++ x.logs := by
    intro st mode
    unfold Pipeline.releasedLogs
    rw [List.flatMap_append, List.flatMap_singleton]
  refine ⟨fun hd => ?_, fun _ => hfloor, fun _ _ _ hd => Stage.noConfusion hd, fun _ => ⟨events, hperm, ?_, ?_⟩,
    fun _ => ⟨?_, (hcursor.trans hthrough).le⟩⟩
  · rcases hd with hd | ⟨_, hd⟩
    · cases hd
    · cases hd
  · rw [hreleased, ← List.append_assoc]
    exact hgiven.trans htakes
  · rw [hreleased, ← List.append_assoc]
    refine List.pairwise_append.2 ⟨hsorted, hblock.imp fun hyz _ _ => hyz, fun y hy l hl hoy hol => ?_⟩
    have haddress : y.address = l.address := (of_decide_eq_true hoy).1.trans (of_decide_eq_true hol).1.symm
    have happlied := Pipeline.applied_of_through hs hu hperm hy
    exact hafter l hl y happlied.1 haddress happlied.2.1
  · rw [hcursor, hthrough]
    exact (h.risen hboots).1.trans (h.risen hboots).2

variable (M : Mirroring π c a t) (ht : t ≠ .TraderJoeLB)
include M ht

theorem bootTakeGaps (h : Follows c a t r₀ r s) {env : Env} {drained : List Log} (hst : s.stage = .catchingUp drained)
    (hw : s.source.catchUp c env r = (r', .ok ())) : Follows c a t r₀ r' s.bootTakeGaps := by
  have hfloor := h.floor (by rw [hst]; exact Stage.noConfusion)
  obtain rfl := h.saved (.inr ⟨_, hst⟩)
  have hr' := WebsocketBlockSource.catchUp_eq hfloor.1 hw
  unfold Pipeline.bootTakeGaps
  rw [hst]
  refine ⟨fun hd => ?_, fun _ => hfloor, fun _ _ _ _ => ?_, fun hb => (Bool.false_ne_true hb.symm).elim,
    fun hb => (Bool.false_ne_true hb.symm).elim⟩
  · rcases hd with hd | ⟨_, hd⟩
    · cases hd
    · cases hd
  · rw [hr']
    have htakes := PoolRegistry.takes_replayed (r := r) M ht env.clock env.times (s.caught c r)
    exact htakes

/-- The buffered logs, in the order of the chain: all of them after what the catch-up fetched. -/
theorem bootDone {addresses : List Address} (h : Follows c a t r₀ r s) (hs : s.Sound c addresses) (hse : s.Settling)
    (hi : s.InLine) {env : Env} {drained events : List Log} {filled : Bool} (hst : s.stage = .bootFilling drained events filled)
    (htaken : s.taken = []) (hw : s.source.applyBuffered env (if filled then WebsocketBlockSource.byPosition events else events) r =
      (r', .ok ())) : Follows c a t r₀ r' s.bootDone := by
  have hperm : (if filled then WebsocketBlockSource.byPosition events else events).Perm events := by
    split
    · exact List.perm_insertionSort ..
    · exact .refl _
  have hr' := WebsocketBlockSource.applyBuffered_eq hw
  rw [WebsocketBlockSource.bootstrapBlock_perm hperm] at hr'
  have hboot := hse.events _ _ _ hst
  have hrel := (hse.boots (by rw [hst]; rfl)).2
  have hfloor := h.floor (by rw [hst]; exact Stage.noConfusion)
  obtain ⟨hpassed, hnodup⟩ := hs.buffered hse hst
  have hsorted : (if filled then WebsocketBlockSource.byPosition events else events).Pairwise fun x y => x.place < y.place := by
    cases filled with
    | false => exact hi.events _ _ hst
    | true => exact c.byPosition_pairwise (fun l hl => (hpassed l hl).1) hnodup
  have hcaught : (s.caught c r₀).Pairwise fun x y => x.place < y.place :=
    (c.sorted.sublist List.filter_sublist).sublist List.filter_sublist
  have hcursor : r'.lastProcessedBlock = s.source.bootstrapBlock events := by rw [hr']; rfl
  unfold Pipeline.bootDone
  rw [hst, htaken]
  refine ⟨fun hd => ?_, fun _ => hfloor, fun _ _ _ hd => Stage.noConfusion hd,
    fun _ => ⟨_, hperm.trans (.of_eq hboot.symm), ?_, ?_⟩, fun _ => ⟨?_, hcursor.le⟩⟩
  · rcases hd with hd | ⟨_, hd⟩
    · cases hd
    · cases hd
  · unfold Pipeline.releasedLogs
    dsimp only
    rw [hrel, List.flatMap_nil, List.append_nil]
    have htakes := PoolRegistry.takes_replayed (r := r) M ht env.clock env.times
      (if filled then WebsocketBlockSource.byPosition events else events)
    refine (h.filling _ _ _ hst).trans ?_
    rw [hr']
    exact htakes
  · unfold Pipeline.releasedLogs
    dsimp only
    rw [hrel, List.flatMap_nil, List.append_nil]
    refine (List.pairwise_append.2 ⟨hcaught, hsorted, fun x hx y hy => ?_⟩).imp fun hxy _ _ => hxy
    exact (of_decide_eq_true (List.mem_filter.1 hx).2).2.trans_le (hpassed y (hperm.mem_iff.1 hy)).2
  · rw [hcursor]
    exact hfloor.2.1.trans (WebsocketBlockSource.fillFloor_le_bootstrapBlock fun l hl =>
      ⟨(c.mined l (hpassed l hl).1).blockNumber, (hpassed l hl).2⟩)

end Follows

/-! ## Runs -/

namespace Session
variable {π : Type} [PoolInterface π] {c : Chain} {a : Address} {t : PoolType} {r₀ : PoolRegistry (Traced π)}
  {s : Session (Traced π)}

/-- Bootstrap's floor is not below the saved cursor and the cursor covers no log of a pool from there on, and a block goes on
with no log that is before one its pool has been given. -/
def Orderly (c : Chain) (s : Session (Traced π)) : Action → Prop
  | .turn _ (.bootDrain latest) => s.pipeline.stage = .created → latest < 2 ^ 64 ∧
      s.registry.lastProcessedBlock ≤ (WebsocketBlockSource.firstQueuedPosition latest s.pipeline.queue.queue).block ∧
      ∀ l ∈ c.logs, s.registry.Concerned l →
        WebsocketBlockSource.firstQueuedPosition latest s.pipeline.queue.queue ≤ l.place →
        s.registry.lastProcessedBlock < l.block
  | .turn _ .handOn => ∀ x, s.pipeline.stage = .settled x → ∀ l ∈ x.logs, ∀ y ∈ c.logs, y.address = l.address →
      s.pipeline.applied y → y.place < l.place
  | _ => True

/-- In the loop of `next_batch`, and no log that the cursor covers is waiting. -/
structure CaughtUp (c : Chain) (s : Session (Traced π)) : Prop where
  sane : s.phase ≠ .panicked
  booted : s.pipeline.stage.boots = false
  covered : ∀ l ∈ c.logs, s.registry.Concerned l → s.pipeline.Waiting c s.registry.getAllAddresses l →
    s.registry.lastProcessedBlock < l.block

/-- The registry keeps step with the source, and the pool at `a` has been called with its logs in order. -/
structure Standing (c : Chain) (a : Address) (t : PoolType) (r₀ : PoolRegistry (Traced π)) (s : Session (Traced π)) : Prop where
  kept : s.Kept c
  inLine : s.pipeline.InLine
  follows : Follows c a t r₀ s.registry s.pipeline

section
variable (hp : ∃ p, r₀.getPool a = some p ∧ PoolInterface.poolType p = t)
include hp

/-- The pool's logs are of concern. -/
theorem Standing.concerned (h : s.Standing c a t r₀) {l : Log} (ho : l.ownedBy a t) : s.registry.Concerned l := by
  obtain ⟨p, hp, htype⟩ := h.follows.typed hp
  obtain ⟨ha, hcon⟩ := of_decide_eq_true ho
  exact ⟨p, ha.symm ▸ hp, htype.symm ▸ hcon⟩

/-- With nothing waiting that the cursor covers, the pool has been called with its logs up to the cursor. -/
theorem Standing.called (h : s.Standing c a t r₀) (hc : s.CaughtUp c) : ∃ ls, r₀.Takes a t ls s.registry ∧
    ls.filter (·.ownedBy a t) = c.ownBetween a t r₀.lastProcessedBlock s.registry.lastProcessedBlock := by
  obtain ⟨events, hperm, htakes, hsorted⟩ := h.follows.given hc.booted
  have hkept := h.kept
  have hfloor := h.follows.floor fun hst => by
    have hb := hc.booted
    rw [hst] at hb
    cases hb
  refine ⟨_, htakes, c.eq_ownBetween ?_ fun l => ?_⟩
  · refine (hsorted.sublist List.filter_sublist).imp_of_mem fun {x y} hx hy hxy => ?_
    exact hxy (List.mem_filter.1 hx).2 (List.mem_filter.1 hy).2
  rw [List.mem_filter]
  constructor
  · rintro ⟨hl, hown⟩
    obtain ⟨hlog, happlied, hpast⟩ := Pipeline.applied_of_through hkept.sound hkept.unpriced hperm hl
    exact ⟨hlog, hown, hpast.elim id (hfloor.2.2 l hlog hown),
      hkept.inStep.covered hc.booted l hlog (h.concerned hp hown) happlied⟩
  · rintro ⟨hlog, hown, hlt, hle⟩
    refine ⟨?_, hown⟩
    have hconcerned := h.concerned hp hown
    have hrelevant := hkept.inStep.subscribed.relevant hlog hconcerned
    rw [← hkept.inStep.topics] at hrelevant
    have happlied := (Pipeline.applied_or_waiting hkept.sound hkept.settling hrelevant).resolve_right fun hw =>
      absurd (hc.covered l hlog hconcerned hw) (Nat.not_lt.2 hle)
    rcases Pipeline.applied_iff.1 happlied with hbefore | hboot | hreleased
    · have haddress : l.address ∈ r₀.getAllAddresses := by
        obtain ⟨p, hp, -⟩ := hp
        rw [(of_decide_eq_true hown).1]
        exact PoolRegistry.mem_of_getPool hp
      have htopics := (of_decide_eq_true (List.mem_filter.1 hrelevant).2).2
      refine List.mem_append_left _ (List.mem_append_left _ (List.mem_filter.2 ⟨?_, decide_eq_true ⟨hlt, hbefore⟩⟩))
      exact List.mem_filter.2 ⟨hlog, decide_eq_true ⟨.inr haddress, htopics⟩⟩
    · exact List.mem_append_left _ (List.mem_append_right _ (hperm.mem_iff.2 hboot))
    · exact List.mem_append_right _ hreleased

variable (M : Mirroring (Traced π) c a t) (ht : t ≠ .TraderJoeLB)
include M ht

/-- What a step that goes through does to the pool. -/
theorem Standing.follows_turn (h : s.Standing c a t r₀) {env : Env} {x : Pipeline.Action} (ho : s.Orderly c (.turn env x))
    {r : PoolRegistry (Traced π)} (hw : s.work c env x = (r, .ok ())) :
    Follows c a t r₀ r (s.pipeline.step c s.registry.getAllAddresses x) := by
  obtain ⟨hkept, hi, hfollows⟩ := h
  rcases s.pipeline.step_cases c s.registry.getAllAddresses x with ⟨latest, rfl, hst⟩ | ⟨drained, rfl, hst⟩ |
    ⟨drained, events, filled, rfl, hst, htaken⟩ | ⟨block, rfl, hst⟩ | ⟨hquiet, htake, hdone, hhand⟩
  · cases hw
    obtain ⟨hl, hcursor, hpast⟩ := ho hst
    obtain rfl := hfollows.saved (.inl hst)
    exact hfollows.bootDrain hl (fun l hl => hkept.sound.mined (hkept.sound.queued l (List.mem_append_left _ hl)).1) hst hcursor
      fun l hl hown => hpast l hl (Standing.concerned hp ⟨hkept, hi, hfollows⟩ hown)
  · unfold work at hw
    rw [hst] at hw
    exact hfollows.bootTakeGaps M ht hst hw
  · unfold work at hw
    rw [hst, htaken] at hw
    exact hfollows.bootDone M ht hkept.sound hkept.settling hi hst htaken hw
  · obtain ⟨hmem, -, hcursor⟩ := hkept.gives_of_handOn hst hw
    refine hfollows.handOn hkept.sound hkept.settling hkept.unpriced hi hst hmem (ho block hst) ?_ hcursor
    unfold work at hw
    rw [hst] at hw
    have hreport : Reportable env.clock s.eventProcessor (s.batchOf env block).events s.registry := by
      refine UnifiedPoolUpdater.reportable_of_process (fun l hl => ?_) (s.batchOf_mode env block) (congrArg Prod.snd hw)
      obtain ⟨y, hy, rfl⟩ := List.mem_map.1 hl
      exact ((c.mined y (hmem y hy).1).fillBlockTimestamp ..).sendable _
    have hr := congrArg Prod.fst (UnifiedPoolUpdater.process_eq hreport (s.batchOf_mode env block) block.processedThrough rfl)
    rw [show UnifiedPoolUpdater.process s.eventProcessor env (s.batchOf env block) s.registry = (r, .ok ()) from hw] at hr
    have htakes := PoolRegistry.takes_replayed (r := s.registry) M ht env.clock env.times block.logs
    rw [show r = _ from hr]
    exact htakes
  · rw [work_idle htake hdone hhand] at hw
    cases hw
    exact hfollows.quiet hquiet

/-- **One step**, as long as nothing has panicked. -/
theorem Standing.step (h : s.phase ≠ .panicked → s.Standing c a t r₀) {x : Action} (ho : s.Orderly c x)
    (hsane : (s.step c x).phase ≠ .panicked) : (s.step c x).Standing c a t r₀ := by
  cases x with
  | stop =>
    unfold Session.step Session.stop at hsane ⊢
    dsimp only at hsane ⊢
    split
    · next hrunning =>
      obtain ⟨hkept, hi, hfollows⟩ := h (by rw [hrunning.1]; exact Phase.noConfusion)
      exact ⟨⟨hkept.sound, hkept.unpriced, hkept.settling, hkept.inStep⟩, hi, hfollows⟩
    · next hno =>
      rw [if_neg hno] at hsane
      exact h hsane
  | turn env x =>
    unfold Session.step at hsane ⊢
    dsimp only at hsane ⊢
    split
    · next hrunning =>
      rw [if_pos hrunning] at hsane
      have hs := h (by rw [hrunning]; exact Phase.noConfusion)
      obtain ⟨hkept, hi, -⟩ := id hs
      split
      · next r hw =>
        have hmeets : s.Meets c (.turn env x) := by
          cases x with
          | bootDrain latest => exact fun hst => ⟨(ho hst).1, (ho hst).2.2⟩
          | _ => trivial
        have hfollows := hs.follows_turn hp M ht ho hw
        have haddresses := hkept.addresses hw
        have hsound := hkept.sound.step x
        have hunpriced := hkept.unpriced.step hkept.sound x
        have hsettling := hkept.settling.step hkept.sound hkept.unpriced x
        have hin := hkept.turn hmeets hw
        have hline := hi.step hkept.sound x
        rw [← haddresses] at hsound hunpriced hsettling hin hline hfollows
        exact ⟨⟨hsound, hunpriced, hsettling, hin⟩, hline, hfollows⟩
      · next r e hw =>
        rw [hw] at hsane
        exact absurd rfl hsane
    · next hno =>
      rw [if_neg hno] at hsane
      exact h hsane

end

theorem standing_start {r : PoolRegistry (Traced π)} (hr : r.Holds c fun l => l.block ≤ r.lastProcessedBlock) (hs : r.Subscribed)
    (a : Address) (t : PoolType) (swapEventTx : Bool) (maxEvents maxBlocks settle : Nat) :
    (start c r swapEventTx maxEvents maxBlocks settle).Standing c a t r :=
  ⟨(left_start hr hs swapEventTx maxEvents maxBlocks settle).1 rfl, Pipeline.inLine_init .., fun _ => rfl,
    fun hd => absurd rfl hd, fun _ _ _ hd => Stage.noConfusion hd, fun hb => (Bool.false_ne_true hb.symm).elim,
    fun hb => (Bool.false_ne_true hb.symm).elim⟩

/-- **What a pool stands for in a run**: whenever the session is caught up, for what is there at the cursor. -/
theorem caughtUp_shows (M : Mirroring (Traced π) c a t) (ht : t ≠ .TraderJoeLB) (hdates : M.Dates fun _ => none)
    {r : PoolRegistry (Traced π)} (hr : r.Holds c fun l => l.block ≤ r.lastProcessedBlock) (hs : r.Subscribed) {p : Traced π}
    (hp : r.getPool a = some p) (hshows : M.Shows r.lastProcessedBlock p) (swapEventTx : Bool)
    (maxEvents maxBlocks settle : Nat) (actions : List Action)
    (ho : ∀ k x, actions[k]? = some x →
      (runTo (step c) (start c r swapEventTx maxEvents maxBlocks settle) actions k).Orderly c x) (k : Nat)
    (hc : (runTo (step c) (start c r swapEventTx maxEvents maxBlocks settle) actions k).CaughtUp c) :
    let r' := (runTo (step c) (start c r swapEventTx maxEvents maxBlocks settle) actions k).registry
    (r'.Holds c fun l => l.block ≤ r'.lastProcessedBlock) ∧ r'.Subscribed ∧
      ∃ q, r'.getPool a = some q ∧ M.Shows r'.lastProcessedBlock q := by
  have htyped : ∃ p, r.getPool a = some p ∧ PoolInterface.poolType p = t := ⟨p, hp, M.ofType hshows⟩
  have hstanding := runTo_invariant (P := fun s : Session (Traced π) => s.phase ≠ .panicked → s.Standing c a t r)
    (fun _ => standing_start hr hs a t swapEventTx maxEvents maxBlocks settle)
    (fun k x hx h hsane => Standing.step htyped M ht h (ho k x hx) hsane) k hc.sane
  revert hc hstanding
  generalize runTo (step c) (start c r swapEventTx maxEvents maxBlocks settle) actions k = s
  intro hc hstanding
  refine ⟨(hstanding.kept.stop (fun _ => hc.covered) hc.booted).exact, hstanding.kept.inStep.subscribed, ?_⟩
  obtain ⟨ls, htakes, hown⟩ := hstanding.called htyped hc
  obtain ⟨calls, hcalls, hq⟩ := htakes p hp (M.ofType hshows)
  exact ⟨_, hq, M.called ht hdates (hstanding.follows.risen hc.booted).1 hshows (hcalls.trans hown)⟩

/-- Sessions one after the other, each orderly and left when it is caught up; the next starts from what it leaves. -/
inductive Sessions (c : Chain) : PoolRegistry (Traced π) → PoolRegistry (Traced π) → Prop
  | done (r : PoolRegistry (Traced π)) : Sessions c r r
  | session {r r' : PoolRegistry (Traced π)} (swapEventTx : Bool) (maxEvents maxBlocks settle : Nat) (actions : List Action)
      (ho : ∀ k x, actions[k]? = some x →
        (runTo (step c) (start c r swapEventTx maxEvents maxBlocks settle) actions k).Orderly c x) (k : Nat)
      (hc : (runTo (step c) (start c r swapEventTx maxEvents maxBlocks settle) actions k).CaughtUp c)
      (hrest : Sessions c (runTo (step c) (start c r swapEventTx maxEvents maxBlocks settle) actions k).registry r') :
      Sessions c r r'

theorem Sessions.shows (M : Mirroring (Traced π) c a t) (ht : t ≠ .TraderJoeLB) (hdates : M.Dates fun _ => none)
    {r r' : PoolRegistry (Traced π)} (h : Sessions c r r') (hr : r.Holds c fun l => l.block ≤ r.lastProcessedBlock)
    (hs : r.Subscribed) (hp : ∃ p, r.getPool a = some p ∧ M.Shows r.lastProcessedBlock p) :
    ∃ q, r'.getPool a = some q ∧ M.Shows r'.lastProcessedBlock q := by
  induction h with
  | done => exact hp
  | session swapEventTx maxEvents maxBlocks settle actions ho k hc _ ih =>
    obtain ⟨p, hp, hshows⟩ := hp
    obtain ⟨hr', hs', hq⟩ := caughtUp_shows M ht hdates hr hs hp hshows swapEventTx maxEvents maxBlocks settle actions ho k hc
    exact ih hr' hs' hq

/-- **Pools behind a websocket quote what would be paid at the cursor.** Over any number of sessions with one feed, each left
at some moment when it is caught up, whatever the feed loses and whatever gaps are filled, as long as bootstrap's floor is not
below the saved cursor and no block goes on with a log that is before one its pool has: a V3 pool that had what its contract
has at the saved cursor quotes what the contract would swap at the last one, and a pair that had its reserves what the pair
pays then. -/
theorem sessions_quote (c : Chain) {r r' : PoolRegistry (Traced Pool)} (h : Sessions c r r')
    (hr : r.Holds c fun l => l.block ≤ r.lastProcessedBlock) (hs : r.Subscribed) :
    (∀ a (w : V3.OnChain c a) q given, r.getPool a = some ⟨.v3 q, given⟩ → V3.Tracks q (w.after r.lastProcessedBlock) →
      (w.after r.lastProcessedBlock).Sound →
      ∃ q' given', r'.getPool a = some ⟨.v3 q', given'⟩ ∧ q'.QuotesOf (w.after r'.lastProcessedBlock)) ∧
    ∀ a (w : V2.OnChain c a) q given, r.getPool a = some ⟨.v2 q, given⟩ → (q.reserve0, q.reserve1) = w.after r.lastProcessedBlock →
      q.poolType = .UniswapV2 → q.token0 ≠ q.token1 → q.fee < V2.FEE_DENOMINATOR →
      (0 < (w.after r'.lastProcessedBlock).1 ∧ (w.after r'.lastProcessedBlock).1 < 2 ^ 112) →
      (0 < (w.after r'.lastProcessedBlock).2 ∧ (w.after r'.lastProcessedBlock).2 < 2 ^ 112) →
      ∃ q' given', r'.getPool a = some ⟨.v2 q', given'⟩ ∧ q'.fee = q.fee ∧ q'.QuotesOf (w.after r'.lastProcessedBlock) := by
  constructor
  · intro a w q given hq htracks hsound
    obtain ⟨⟨_, given'⟩, hq', q', rfl, htracks', hsound'⟩ :=
      h.shows w.mirroring.traced (by decide) trivial hr hs ⟨_, hq, q, rfl, htracks, hsound⟩
    exact ⟨q', given', hq', fun zeroForOne _ _ _ hfuel ha => htracks'.quotes hsound' zeroForOne hfuel ha⟩
  · intro a w q given hq hreserves htype htokens hfee h0 h1
    obtain ⟨⟨_, given'⟩, hq', q', rfl, ⟨htype', ht0, ht1, hfee'⟩, hreserves'⟩ :=
      h.shows (w.mirroring q).traced (by decide) trivial hr hs ⟨_, hq, q, rfl, ⟨rfl, rfl, rfl, rfl⟩, hreserves⟩
    refine ⟨q', given', hq', hfee', ?_⟩
    rw [← hreserves'] at h0 h1 ⊢
    have hsound : q'.Sound := ⟨htype'.trans htype, hfee' ▸ hfee, by rwa [ht0, ht1], h0, h1⟩
    exact hsound.quotesOf

/-! ## A position that comes in over the feed -/

/-- The pool at block 100. -/
def rangeAt100 : PoolRegistry (Traced Pool) :=
  (PoolRegistry.empty.registerPoolsAndTopics [⟨.v3 V3.rangePool, []⟩]).setLastProcessedBlock 100

theorem rangeAt100_holds : rangeAt100.Holds oneMint fun l => l.block ≤ rangeAt100.lastProcessedBlock := by
  intro a e he
  have hpools : rangeAt100.byAddress =
      (∅ : ExtTreeMap Address (Traced Pool)).insert V3.rangePool.address ⟨.v3 V3.rangePool, []⟩ := rfl
  unfold PoolRegistry.ledger PoolRegistry.getPool at he
  rw [hpools, Ranges.lookup_insert] at he
  split at he
  · next ha =>
    obtain rfl := (Option.some.inj he).symm
    subst ha
    have hnil : oneMint.ownWhere V3.rangePool.address .UniswapV3 (fun l => l.block ≤ rangeAt100.lastProcessedBlock) = [] := by
      decide +kernel
    exact .of_eq hnil.symm
  · simp at he

/-- Bootstrap at block 110 with an empty queue; then the log is sent, and its block handed on. -/
def mintArrives : List Action :=
  ([.bootDrain 110, .bootTakeGaps, .bootDone, .subscribe, .deliver, .send, .intake 0, .takeGaps, .fill 0, .takeReady 100, .handOn] :
    List Pipeline.Action).map (.turn stillEnv)

theorem mintArrives_orderly (k : Nat) (x : Action) (hx : mintArrives[k]? = some x) :
    (runTo (step oneMint) (start oneMint rangeAt100 false 1000 10 20) mintArrives k).Orderly oneMint x := by
  match k with
  | 0 =>
    cases hx
    have hall : ∀ l ∈ oneMint.logs, 100 < l.block := by decide +kernel
    exact fun _ => ⟨by decide, by decide +kernel, fun l hl _ _ => hall l hl⟩
  | 10 =>
    cases hx
    have happlied : ∀ y ∈ oneMint.logs, (runTo (step oneMint) (start oneMint rangeAt100 false 1000 10 20) mintArrives
        10).pipeline.applied y = false := by decide +kernel
    exact fun _ _ _ _ y hy _ h => absurd h (by rw [happlied y hy]; exact Bool.false_ne_true)
  | 1 | 2 | 3 | 4 | 5 | 6 | 7 | 8 | 9 =>
    cases hx
    trivial
  | k + 11 => cases hx

theorem mintArrives_caughtUp :
    (runTo (step oneMint) (start oneMint rangeAt100 false 1000 10 20) mintArrives 11).CaughtUp oneMint := by
  have hphase : (runTo (step oneMint) (start oneMint rangeAt100 false 1000 10 20) mintArrives 11).phase = .running := by
    decide +kernel
  have hboots : (runTo (step oneMint) (start oneMint rangeAt100 false 1000 10 20) mintArrives 11).pipeline.stage.boots = false := by
    decide +kernel
  have hbehind : ∀ l ∈ (runTo (step oneMint) (start oneMint rangeAt100 false 1000 10 20) mintArrives 11).pipeline.behind,
      (runTo (step oneMint) (start oneMint rangeAt100 false 1000 10 20) mintArrives 11).pipeline.progress.lastForwarded.any
        (l.place ≤ ·) = true := by decide +kernel
  have hnone : let s := runTo (step oneMint) (start oneMint rangeAt100 false 1000 10 20) mintArrives 11
      s.pipeline.ahead = [] ∧ s.pipeline.inQueue = [] ∧ s.pipeline.inGaps oneMint s.registry.getAllAddresses = [] ∧
        s.pipeline.source.settler.pending.isEmpty = true ∧ s.pipeline.stage.logs = [] := by decide +kernel
  revert hphase hboots hbehind hnone
  generalize runTo (step oneMint) (start oneMint rangeAt100 false 1000 10 20) mintArrives 11 = s
  rintro hphase hboots hbehind ⟨hahead, hqueue, hgaps, hpending, hlogs⟩
  refine ⟨by rw [hphase]; exact Phase.noConfusion, hboots, fun l hl _ => ?_⟩
  rintro (⟨-, ha | ⟨hb, hp⟩⟩ | hq | hg | ⟨b, hb⟩ | hst)
  · rw [hahead] at ha
    cases ha
  · exact absurd (hbehind l hb) hp
  · rw [hqueue] at hq
    cases hq
  · rw [hgaps] at hg
    cases hg
  · rw [ExtTreeMap.isEmpty_iff] at hpending
    unfold BlockSettler.logsOf at hb
    rw [hpending, ExtTreeMap.getElem?_empty] at hb
    cases hb
  · rw [hlogs] at hst
    cases hst

/-- With the log handed on the pool quotes what its contract would swap with the position in. -/
theorem sessions_quote_mint : ∃ r' q' given', Sessions oneMint rangeAt100 r' ∧
    r'.getPool V3.rangePool.address = some ⟨.v3 q', given'⟩ ∧ q'.QuotesOf mintedContract := by
  have hsessions : Sessions oneMint rangeAt100
      (runTo (step oneMint) (start oneMint rangeAt100 false 1000 10 20) mintArrives 11).registry :=
    .session false 1000 10 20 mintArrives mintArrives_orderly 11 mintArrives_caughtUp (.done _)
  have hcursor : (runTo (step oneMint) (start oneMint rangeAt100 false 1000 10 20) mintArrives
      11).registry.lastProcessedBlock = 120 := by decide +kernel
  obtain ⟨hv3, -⟩ := sessions_quote oneMint hsessions rangeAt100_holds (PoolRegistry.subscribed_empty.register _)
  obtain ⟨q', given', hq', hquotes⟩ := hv3 V3.rangePool.address rangeOnChain V3.rangePool [] (by decide +kernel)
    V3.rangePool_tracks V3.rangeContract_sound
  have hafter : rangeOnChain.after 120 = mintedContract := by
    unfold rangeOnChain
    simp
  rw [hcursor, hafter] at hquotes
  exact ⟨_, q', given', hsessions, hq', hquotes⟩

end Session

end EvmDexPool
