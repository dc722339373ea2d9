import EvmDexPool.Collector.Session

/-!
# What bootstrap's cursor covers (`collector/block_source.rs:733-924`)

Bootstrap moves the cursor to the last block among the logs it applied, or to the block it took from the
RPC. What it has not applied up to there has to come by another way: it waits in the queue, lies in a gap
that is still noted, or is yet to be forwarded by a feed, which on its first log notes the gap before it.

`bootstrap` is told run through here; in a session it is the steps from `bootDrain` to `bootDone`, and
`steps_bootstrap` says that these, in a row, come to it.
-/

namespace EvmDexPool

open Replay

/-- A subscribed feed, and the logs it is going to forward. -/
structure Feed where
  progress : FeedProgress
  coming : List Log

/-- The feed brings the log, by itself or through the gap that the first log it forwards closes. -/
def Feed.Delivers (f : Feed) (src : WebsocketBlockSource) (l : Log) : Prop :=
  l ∈ f.coming ∨ src.fillReconnectGaps = true ∧ src.fillFloor ≤ l.place ∧
    ∃ first g, f.coming.head? = some first ∧ (f.progress.forwarding first).2 = some g ∧ g.Holds l.place

/-- The queue has the log, or lacks it and has noted its gap, or a feed brings it. -/
def WebsocketBlockSource.Expects (src : WebsocketBlockSource) (queue : EventQueue) (feeds : List Feed) (l : Log) : Prop :=
  l ∈ queue.queue ∨ (src.fillReconnectGaps = true ∧ src.fillFloor ≤ l.place ∧ ∃ g ∈ queue.gaps, g.Holds l.place) ∨
    ∃ f ∈ feeds, f.Delivers src l

/-- The pool the log is of has been given it. -/
def PoolRegistry.Includes {π : Type} [PoolInterface π] (r : PoolRegistry (Traced π)) (l : Log) : Prop :=
  ∃ e, r.ledger l.address = some e ∧ l.untimed ∈ e.2

/-- The keys recorded are those of logs taken from the queue or still in it. -/
def EventQueue.Known (q : EventQueue) (taken : List Log) : Prop :=
  ∀ k ∈ q.recent, ∃ l, (l ∈ taken ∨ l ∈ q.queue) ∧ l.key? = some k

/-- Bootstrap's start: pools that hold their logs up to the cursor, a source for the registry's topics, and
a queue that only this source drains. -/
structure Booting {π : Type} [PoolInterface π] (src : WebsocketBlockSource) (c : Chain) (latest : Nat) (drained : List Log)
    (queue : EventQueue) (r : PoolRegistry (Traced π)) : Prop where
  holds : r.Holds c fun l => l.block ≤ r.lastProcessedBlock
  subscribed : r.Subscribed
  topics : src.topics = r.topics
  latest : latest < 2 ^ 64
  mined : ∀ l ∈ drained, l ∈ c.logs
  queued : ∀ l ∈ queue.queue, l ∈ c.logs
  known : queue.Known drained
  gaps : ∀ g ∈ queue.gaps, g.before.block < 2 ^ 64

/-! ## Bootstrap's steps in a row -/

namespace Session
variable {π : Type} [PoolInterface π] {c : Chain} {env : Env} {s : Session π}

theorem step_ok (hrun : s.phase = .running) {a : Pipeline.Action} {r : PoolRegistry π} (hw : s.work c env a = (r, .ok ())) :
    s.step c (.turn env a) = { s with registry := r, pipeline := s.pipeline.step c r.getAllAddresses a } := by
  unfold step
  dsimp only
  rw [if_pos hrun, hw]

theorem step_error (hrun : s.phase = .running) {a : Pipeline.Action} {r : PoolRegistry π} {e : Fault}
    (hw : s.work c env a = (r, .error e)) : s.step c (.turn env a) = { s with registry := r, phase := .panicked } := by
  unfold step
  dsimp only
  rw [if_pos hrun, hw]

/-- The feed moves on. -/
theorem steps_feed (c : Chain) (env : Env) (hrun : s.phase = .running) {feed : List Pipeline.Action}
    (hfeed : ∀ a ∈ feed, a.ofFeed = true) :
    let s' := (feed.map (.turn env)).foldl (step c) s
    s'.phase = .running ∧ s'.registry = s.registry ∧ s.pipeline.SameSource s'.pipeline := by
  induction feed generalizing s with
  | nil => exact ⟨hrun, rfl, .refl s.pipeline⟩
  | cons a feed ih =>
    have ha := hfeed a List.mem_cons_self
    have hnot : a ≠ .bootTakeGaps ∧ a ≠ .bootDone ∧ a ≠ .handOn := by
      cases a <;> first | cases ha; done | exact ⟨nofun, nofun, nofun⟩
    have hstep : s.step c (.turn env a) = { s with pipeline := s.pipeline.step c s.registry.getAllAddresses a } :=
      step_ok hrun (work_idle (fun h => absurd h hnot.1) (fun h => absurd h hnot.2.1) (fun h => absurd h hnot.2.2))
    rw [List.map_cons, List.foldl_cons, hstep]
    have hsame : s.pipeline.SameSource (s.pipeline.step c s.registry.getAllAddresses a) := Pipeline.sameSource_feed ha
    obtain ⟨h1, h2, h3⟩ := ih (s := { s with pipeline := s.pipeline.step c s.registry.getAllAddresses a }) hrun
      fun b hb => hfeed b (List.mem_cons_of_mem _ hb)
    exact ⟨h1, h2, ⟨h3.source.trans hsame.source, h3.stage.trans hsame.stage, h3.bootstrapped.trans hsame.bootstrapped,
      h3.handed.trans hsame.handed, h3.released.trans hsame.released⟩⟩

/-- The gaps one after the other. -/
theorem steps_bootGap (c : Chain) (env : Env) (hrun : s.phase = .running) {drained events : List Log} {filled : Bool}
    (hstage : s.pipeline.stage = .bootFilling drained events filled) :
    let out := s.pipeline.taken.foldl (s.pipeline.source.fillQueued c s.registry.getAllAddresses (drained.filterMap Log.position))
      (s.pipeline.queue, events, filled)
    let s' := (List.replicate s.pipeline.taken.length (.turn env .bootGap)).foldl (step c) s
    s'.phase = .running ∧ s'.registry = s.registry ∧ s'.pipeline.source = s.pipeline.source ∧ s'.pipeline.queue = out.1 ∧
      s'.pipeline.stage = .bootFilling drained out.2.1 out.2.2 ∧ s'.pipeline.taken = [] := by
  obtain ⟨gaps, hgaps⟩ : ∃ gaps, s.pipeline.taken = gaps := ⟨_, rfl⟩
  induction gaps generalizing s events filled with
  | nil =>
    rw [hgaps]
    exact ⟨hrun, rfl, rfl, rfl, hstage, hgaps⟩
  | cons g gaps ih =>
    have hstep : s.step c (.turn env .bootGap) = { s with pipeline := s.pipeline.bootGap c s.registry.getAllAddresses } :=
      step_ok hrun (work_idle nofun nofun nofun)
    have hone : ∃ events' filled',
        s.pipeline.source.fillQueued c s.registry.getAllAddresses (drained.filterMap Log.position)
            (s.pipeline.queue, events, filled) g =
          ((s.pipeline.bootGap c s.registry.getAllAddresses).queue, events', filled') ∧
        (s.pipeline.bootGap c s.registry.getAllAddresses).stage = .bootFilling drained events' filled' ∧
        (s.pipeline.bootGap c s.registry.getAllAddresses).source = s.pipeline.source ∧
        (s.pipeline.bootGap c s.registry.getAllAddresses).taken = gaps := by
      unfold Pipeline.bootGap WebsocketBlockSource.fillQueued
      rw [hstage, hgaps]
      dsimp only
      split
      · exact ⟨_, _, rfl, rfl, rfl, rfl⟩
      · exact ⟨_, _, rfl, rfl, rfl, rfl⟩
    obtain ⟨events', filled', hfilled, hstage', hsource, htaken⟩ := hone
    have hrest := ih (s := { s with pipeline := s.pipeline.bootGap c s.registry.getAllAddresses }) hrun hstage' htaken
    dsimp only at hrest
    rw [hsource, htaken] at hrest
    dsimp only
    rw [hgaps, List.foldl_cons, hfilled, List.length_cons, List.replicate_succ, List.foldl_cons, hstep]
    exact hrest

/-- What bootstrap does from the end of its catch-up on. -/
def bootTurns (s : Session π) (env : Env) : List Action :=
  .turn env .bootTakeGaps ::
    (List.replicate (if s.pipeline.source.fillReconnectGaps then s.pipeline.queue.gaps.length else 0) (.turn env .bootGap) ++
      [.turn env .bootDone])

theorem steps_panicked (hrun : s.phase = .panicked) (turns : List Action) : turns.foldl (step c) s = s := by
  induction turns with
  | nil => rfl
  | cons a turns ih =>
    have hstep : s.step c a = s := by
      unfold step stop
      cases a with
      | stop => exact if_neg fun h => Phase.noConfusion (hrun.symm.trans h.1)
      | turn env a => exact if_neg fun h => Phase.noConfusion (hrun.symm.trans h)
    rw [List.foldl_cons, hstep]
    exact ih

theorem work_bootTakeGaps {drained : List Log} (hstage : s.pipeline.stage = .catchingUp drained) :
    s.work c env .bootTakeGaps = s.pipeline.source.catchUp c env s.registry := by
  unfold work
  rw [hstage]

/-- The gaps taken after a catch-up that ends well, one after the other. -/
theorem steps_takeGaps (hrun : s.phase = .running) {drained : List Log} (hstage : s.pipeline.stage = .catchingUp drained)
    {r : PoolRegistry π} (hw : s.pipeline.source.catchUp c env s.registry = (r, .ok ())) :
    let out := s.pipeline.source.buffered c r.getAllAddresses drained s.pipeline.queue
    let s' := (List.replicate (if s.pipeline.source.fillReconnectGaps then s.pipeline.queue.gaps.length else 0)
      (.turn env .bootGap)).foldl (step c) (s.step c (.turn env .bootTakeGaps))
    s'.phase = .running ∧ s'.registry = r ∧ s'.pipeline.source = s.pipeline.source ∧ s'.pipeline.queue = out.1 ∧
      s'.pipeline.stage = .bootFilling drained out.2.1 out.2.2 ∧ s'.pipeline.taken = [] := by
  rw [step_ok hrun ((work_bootTakeGaps hstage).trans hw)]
  generalize hp : s.pipeline.step c r.getAllAddresses .bootTakeGaps = p
  unfold Pipeline.step Pipeline.bootTakeGaps at hp
  rw [hstage] at hp
  dsimp only at hp
  have hlength : p.taken.length = if s.pipeline.source.fillReconnectGaps then s.pipeline.queue.gaps.length else 0 := by
    rw [← hp]
    dsimp only
    split <;> rfl
  have hbuffered : p.taken.foldl (p.source.fillQueued c r.getAllAddresses (drained.filterMap Log.position))
      (p.queue, drained, false) = s.pipeline.source.buffered c r.getAllAddresses drained s.pipeline.queue := by
    rw [← hp]
    unfold WebsocketBlockSource.buffered
    dsimp only
    split <;> rfl
  have hgaps := steps_bootGap c env (s := { s with registry := r, pipeline := p }) hrun
    (show p.stage = .bootFilling drained drained false by rw [← hp])
  dsimp only at hgaps
  rw [hbuffered, hlength, show p.source = s.pipeline.source by rw [← hp]] at hgaps
  exact hgaps

/-- From the end of the catch-up on, with nothing in between. -/
theorem steps_bootTurns (c : Chain) (env : Env) (hrun : s.phase = .running) {src : WebsocketBlockSource} {latest : Nat}
    {drained : List Log} (hstage : s.pipeline.stage = .catchingUp drained)
    (hsource : s.pipeline.source = { src with fillFloor := WebsocketBlockSource.firstQueuedPosition latest drained }) :
    let s' := (s.bootTurns env).foldl (step c) s
    match src.bootstrap c env latest drained s.pipeline.queue s.registry with
    | ((source, queue, r), .ok ()) => s'.phase = .running ∧ s'.registry = r ∧ s'.pipeline.source = source ∧
        s'.pipeline.queue = queue ∧ s'.pipeline.stage = .draining
    | ((_, _, r), .error _) => s'.phase = .panicked ∧ s'.registry = r := by
  unfold WebsocketBlockSource.bootstrap bootTurns
  dsimp only
  rw [← hsource, List.foldl_cons]
  rcases hw : s.pipeline.source.catchUp c env s.registry with ⟨r, e | _⟩
  · rw [step_error hrun ((work_bootTakeGaps hstage).trans hw), steps_panicked rfl]
    exact ⟨rfl, rfl⟩
  · obtain ⟨hphase, hregistry, hsrc, hqueue, hfilling, htaken⟩ := steps_takeGaps hrun hstage hw
    obtain ⟨queue, events, filled, hout⟩ : ∃ queue events filled,
        s.pipeline.source.buffered c r.getAllAddresses drained s.pipeline.queue = (queue, events, filled) := ⟨_, _, _, rfl⟩
    rw [List.foldl_append, List.foldl_cons, List.foldl_nil]
    dsimp only
    rw [hout] at hqueue hfilling ⊢
    dsimp only at hqueue hfilling ⊢
    generalize (List.replicate _ (Action.turn env .bootGap)).foldl (step c) (s.step c (.turn env .bootTakeGaps)) = s1 at *
    -- the events are applied, and the settler starts after them
    have hdone : s1.work c env .bootDone = s.pipeline.source.applyBuffered env
        (if filled then WebsocketBlockSource.byPosition events else events) r := by
      unfold work
      rw [hfilling, htaken, hregistry, hsrc]
    rcases hw' : s.pipeline.source.applyBuffered env (if filled then WebsocketBlockSource.byPosition events else events) r with
      ⟨r', e | _⟩
    · rw [step_error hphase (hdone.trans hw')]
      exact ⟨rfl, rfl⟩
    · rw [step_ok hphase (hdone.trans hw')]
      change _ ∧ _ ∧ s1.pipeline.bootDone.source = _ ∧ s1.pipeline.bootDone.queue = _ ∧ s1.pipeline.bootDone.stage = _
      unfold Pipeline.bootDone
      rw [hfilling, htaken]
      dsimp only
      rw [hsrc, hsource]
      exact ⟨hphase, rfl, rfl, hqueue, rfl⟩

/-- **The steps of bootstrap in a row**, with only the feed at work while it catches up, come to what `bootstrap` does: `queued` is
the session at the end of the catch-up. -/
theorem steps_bootstrap (hrun : s.phase = .running) (hstage : s.pipeline.stage = .created) (latest : Nat)
    {feed : List Pipeline.Action} (hfeed : ∀ a ∈ feed, a.ofFeed = true) :
    let queued := (feed.map (.turn env)).foldl (step c) (s.step c (.turn env (.bootDrain latest)))
    let s' := (queued.bootTurns env).foldl (step c) queued
    match s.pipeline.source.bootstrap c env latest s.pipeline.queue.queue queued.pipeline.queue s.registry with
    | ((source, queue, r), .ok ()) => s'.phase = .running ∧ s'.registry = r ∧ s'.pipeline.source = source ∧
        s'.pipeline.queue = queue ∧ s'.pipeline.stage = .draining
    | ((_, _, r), .error _) => s'.phase = .panicked ∧ s'.registry = r := by
  have hdrain : s.step c (.turn env (.bootDrain latest)) = { s with pipeline := s.pipeline.bootDrain latest } :=
    step_ok hrun (work_idle nofun nofun nofun)
  rw [hdrain]
  obtain ⟨hphase, hregistry, hsame⟩ := steps_feed c env
    (s := { s with pipeline := s.pipeline.bootDrain latest }) hrun hfeed
  have hcatching : (s.pipeline.bootDrain latest).stage = .catchingUp s.pipeline.queue.queue := by
    unfold Pipeline.bootDrain
    rw [hstage]
  have hfloor : (s.pipeline.bootDrain latest).source =
      { s.pipeline.source with fillFloor := WebsocketBlockSource.firstQueuedPosition latest s.pipeline.queue.queue } := by
    unfold Pipeline.bootDrain
    rw [hstage]
  have hturns := steps_bootTurns c env hphase (hsame.stage.trans hcatching) (hsame.source.trans hfloor)
  rw [hregistry] at hturns
  exact hturns

end Session
/-! ## What a registry includes -/

section
variable {π : Type} [PoolInterface π] {r r' : PoolRegistry (Traced π)} {c : Chain} {l : Log}

theorem Chain.eq_of_untimed {x : Log} (hl : l ∈ c.logs) (hx : x ∈ c.logs) (h : x.untimed = l.untimed) : x = l := by
  have hkey : x.untimed.key? = l.untimed.key? := by rw [h]
  exact Chain.eq_of_key hx hl hkey

theorem PoolRegistry.Holds.includes_iff {f : Log → Bool} (h : r.Holds c f) (hl : l ∈ c.logs) (hc : r.Concerned l) :
    r.Includes l ↔ f l := by
  obtain ⟨e, he, ho⟩ := PoolRegistry.concerned_iff.1 hc
  have hmem : l.untimed ∈ e.2 ↔ f l := by
    rw [(h _ e he).mem_iff]
    unfold Chain.ownWhere
    constructor
    · intro hin
      obtain ⟨x, hx, hxl⟩ := List.mem_map.1 hin
      obtain ⟨hx, hf⟩ := List.mem_filter.1 hx
      rw [← Chain.eq_of_untimed hl hx hxl]
      exact (of_decide_eq_true hf).2
    · exact fun hf => List.mem_map_of_mem (List.mem_filter.2 ⟨hl, decide_eq_true ⟨ho, hf⟩⟩)
  constructor
  · rintro ⟨e1, he1, hin⟩
    cases he.symm.trans he1
    exact hmem.1 hin
  · exact fun hf => ⟨e, he, hmem.2 hf⟩

theorem PoolRegistry.Gives.includes_iff {ls : List Log} (h : r.Gives ls r') (hm : ∀ x ∈ ls, x ∈ c.logs) (hl : l ∈ c.logs)
    (hc : r.Concerned l) : r'.Includes l ↔ r.Includes l ∨ l ∈ ls := by
  obtain ⟨e, he, ho⟩ := PoolRegistry.concerned_iff.1 hc
  unfold PoolRegistry.Includes
  rw [h.ledger, he]
  simp only [Option.map_some, Option.some.injEq, exists_eq_left', entered, List.mem_append]
  refine or_congr_right ⟨fun hin => ?_, fun hin => List.mem_map_of_mem (List.mem_filter.2 ⟨hin, ho⟩)⟩
  obtain ⟨x, hx, hxl⟩ := List.mem_map.1 hin
  have hx := (List.mem_filter.1 hx).1
  rwa [← Chain.eq_of_untimed hl (hm x hx) hxl]

end

/-! ## What the gaps give -/

namespace WebsocketBlockSource
variable {src : WebsocketBlockSource} {c : Chain}

/-- A wanted log is claimed, unless it is at hand already. -/
theorem claimMissed_effect (src : WebsocketBlockSource) (g : Gap) {base : List Log} {s : EventQueue × List Log} {l : Log} (hl : l ∈ c.logs)
    (hs : ∀ x, x ∈ base ++ s.2 ∨ x ∈ s.1.queue → x ∈ c.logs) (hk : s.1.Known (base ++ s.2)) :
    let s' := src.claimMissed g s l
    s'.1.queue = s.1.queue ∧ s'.1.gaps = s.1.gaps ∧ s'.1.Known (base ++ s'.2) ∧
      (∃ new, s'.2 = s.2 ++ new ∧ ∀ x ∈ new, x = l ∧ src.wants g x) ∧
      (src.wants g l → l ∈ base ++ s'.2 ∨ l ∈ s'.1.queue) := by
  unfold claimMissed
  by_cases hw : src.wants g l
  · obtain ⟨k, hlk⟩ := Option.isSome_iff_exists.1 (c.mined l hl).key
    unfold EventQueue.claim
    rw [if_pos hw]
    by_cases hr : k ∈ s.1.recent
    · rw [EventQueue.record_stale hlk hr]
      refine ⟨rfl, rfl, hk, ⟨[], (List.append_nil _).symm, by simp⟩, fun _ => ?_⟩
      obtain ⟨x, hx, hxk⟩ := hk k hr
      rwa [← Chain.eq_of_key (hs x hx) hl (hxk.trans hlk.symm)]
    · obtain ⟨kept, hkept, hrec⟩ := EventQueue.record_fresh hlk hr
      rw [hrec]
      refine ⟨rfl, rfl, fun x hx => ?_, ⟨[l], rfl, fun x hx => ?_⟩, fun _ => .inl (by simp)⟩
      · rcases List.mem_append.1 hx with hx | hx
        · obtain ⟨y, hy, hyx⟩ := hk x (hkept x hx)
          refine ⟨y, hy.imp_left fun hy => ?_, hyx⟩
          rw [← List.append_assoc]
          exact List.mem_append_left _ hy
        · rw [List.mem_singleton.1 hx]
          exact ⟨l, .inl (by simp), hlk⟩
      · rw [List.mem_singleton.1 hx]
        exact ⟨rfl, hw⟩
  · rw [if_neg hw]
    exact ⟨rfl, rfl, hk, ⟨[], (List.append_nil _).symm, by simp⟩, fun h => absurd h hw⟩

theorem foldl_claimMissed_effect (src : WebsocketBlockSource) (g : Gap) {base ls : List Log} {s : EventQueue × List Log} (hl : ∀ l ∈ ls, l ∈ c.logs)
    (hs : ∀ x, x ∈ base ++ s.2 ∨ x ∈ s.1.queue → x ∈ c.logs) (hk : s.1.Known (base ++ s.2)) :
    let s' := ls.foldl (src.claimMissed g) s
    s'.1.queue = s.1.queue ∧ s'.1.gaps = s.1.gaps ∧ s'.1.Known (base ++ s'.2) ∧
      (∃ new, s'.2 = s.2 ++ new ∧ ∀ x ∈ new, x ∈ ls ∧ src.wants g x) ∧
      (∀ l ∈ ls, src.wants g l → l ∈ base ++ s'.2 ∨ l ∈ s'.1.queue) := by
  induction ls generalizing s with
  | nil => exact ⟨rfl, rfl, hk, ⟨[], (List.append_nil _).symm, by simp⟩, by simp⟩
  | cons l ls ih =>
    obtain ⟨hq, hg, hk1, ⟨new, hnew, hsrc⟩, hcov⟩ := claimMissed_effect src g (hl l List.mem_cons_self) hs hk
    have hs1 : ∀ x, x ∈ base ++ (src.claimMissed g s l).2 ∨ x ∈ (src.claimMissed g s l).1.queue → x ∈ c.logs := by
      intro x hx
      rw [hq, hnew, ← List.append_assoc, List.mem_append] at hx
      rcases hx with (hx | hx) | hx
      · exact hs x (.inl hx)
      · rw [(hsrc x hx).1]
        exact hl l List.mem_cons_self
      · exact hs x (.inr hx)
    obtain ⟨hq2, hg2, hk2, ⟨more, hmore, hsrc2⟩, hcov2⟩ := ih (fun x hx => hl x (List.mem_cons_of_mem _ hx)) hs1 hk1
    rw [List.foldl_cons]
    refine ⟨hq2.trans hq, hg2.trans hg, hk2, ⟨new ++ more, by rw [hmore, hnew, List.append_assoc], fun x hx => ?_⟩,
      fun x hx hw => ?_⟩
    · rcases List.mem_append.1 hx with hx | hx
      · rw [(hsrc x hx).1]
        exact ⟨List.mem_cons_self, (hsrc x hx).1 ▸ (hsrc x hx).2⟩
      · exact ⟨List.mem_cons_of_mem _ (hsrc2 x hx).1, (hsrc2 x hx).2⟩
    · rcases List.mem_cons.1 hx with rfl | hx
      · rw [hq2, hmore, ← List.append_assoc]
        rcases hcov hw with hin | hin
        · exact .inl (List.mem_append_left _ hin)
        · exact .inr hin
      · exact hcov2 x hx hw

/-- **A gap fetch leaves none of the gap's logs out**: those it does not take are at hand. -/
theorem fetchGap_effect (src : WebsocketBlockSource) (addresses : List Address) {g : Gap} {q : EventQueue} {base : List Log} (hb : g.before.block < 2 ^ 64)
    (hs : ∀ x, x ∈ base ∨ x ∈ q.queue → x ∈ c.logs) (hk : q.Known base) :
    let s' := src.fetchGap c addresses g q
    s'.1.queue = q.queue ∧ s'.1.gaps = q.gaps ∧ s'.1.Known (base ++ s'.2) ∧
      (∀ x ∈ s'.2, x ∈ src.gapLogs c addresses g) ∧
      (∀ l ∈ src.gapLogs c addresses g, l ∈ base ++ s'.2 ∨ l ∈ s'.1.queue) := by
  unfold fetchGap
  by_cases hskip : g.before ≤ src.fillFloor ∨ g.after.any (g.before ≤ ·)
  · rw [if_pos hskip]
    refine ⟨rfl, rfl, by simpa using hk, by simp, fun l hl => ?_⟩
    rw [gapLogs_eq_nil hskip] at hl
    cases hl
  · rw [if_neg hskip]
    dsimp only
    have hfilter := filter_wants_getBatches src c addresses hb
    have hmined : ∀ l ∈ c.getBatches addresses src.topics (catchupBatches
        (max (g.after.elim src.fillFloor.block LogPosition.block) src.fillFloor.block - 1) src.maxBlocksPerBatch
        g.before.block), l ∈ c.logs := by
      rw [c.getBatches_catchupBatches hb]
      exact fun l hl => (List.mem_filter.1 hl).1
    obtain ⟨h1, h2, h3, ⟨new, h4, h5⟩, h6⟩ := foldl_claimMissed_effect (s := (q, [])) src g hmined (by simpa using hs)
      (by simpa using hk)
    refine ⟨h1, h2, h3, fun x hx => ?_, fun l hl => ?_⟩
    · rw [← hfilter]
      rw [h4, List.nil_append] at hx
      exact List.mem_filter.2 (h5 x hx)
    · rw [← hfilter] at hl
      obtain ⟨hl, hw⟩ := List.mem_filter.1 hl
      exact h6 l hl hw

/-- **Bootstrap's gaps**: those whose closing log was drained are filled, the others stay noted. -/
theorem foldl_fillQueued_effect (src : WebsocketBlockSource) (addresses : List Address) (drained : List LogPosition)
    {gaps : List Gap} {s : EventQueue × List Log × Bool} (hb : ∀ g ∈ gaps, g.before.block < 2 ^ 64)
    (hs : ∀ x, x ∈ s.2.1 ∨ x ∈ s.1.queue → x ∈ c.logs) (hk : s.1.Known s.2.1) :
    let s' := gaps.foldl (src.fillQueued c addresses drained) s
    s'.1.queue = s.1.queue ∧ s'.1.gaps = s.1.gaps ++ gaps.filter (fun g => g.before ∉ drained) ∧
      (∃ new, s'.2.1 = s.2.1 ++ new ∧ ∀ x ∈ new, ∃ g ∈ gaps, g.before ∈ drained ∧ x ∈ src.gapLogs c addresses g) ∧
      (∀ g ∈ gaps, g.before ∈ drained → ∀ l ∈ src.gapLogs c addresses g, l ∈ s'.2.1 ∨ l ∈ s'.1.queue) := by
  induction gaps generalizing s with
  | nil => exact ⟨rfl, (List.append_nil _).symm, ⟨[], (List.append_nil _).symm, by simp⟩, by simp⟩
  | cons g gaps ih =>
    have hb' : ∀ g ∈ gaps, g.before.block < 2 ^ 64 := fun x hx => hb x (List.mem_cons_of_mem _ hx)
    rw [List.foldl_cons]
    by_cases hg : g.before ∈ drained
    · obtain ⟨hq, hgaps, hk1, hnew, hcov⟩ := fetchGap_effect src addresses (hb g List.mem_cons_self)
        hs hk
      have hstep : src.fillQueued c addresses drained s g =
          ((src.fetchGap c addresses g s.1).1, s.2.1 ++ (src.fetchGap c addresses g s.1).2, true) := if_pos hg
      rw [hstep]
      have hs1 : ∀ x, x ∈ s.2.1 ++ (src.fetchGap c addresses g s.1).2 ∨ x ∈ (src.fetchGap c addresses g s.1).1.queue →
          x ∈ c.logs := by
        intro x hx
        rw [hq, List.mem_append] at hx
        rcases hx with (hx | hx) | hx
        · exact hs x (.inl hx)
        · exact (List.mem_filter.1 (List.mem_filter.1 (hnew x hx)).1).1
        · exact hs x (.inr hx)
      obtain ⟨hq2, hgaps2, ⟨more, hmore, hsrc⟩, hcov2⟩ := ih
        (s := ((src.fetchGap c addresses g s.1).1, s.2.1 ++ (src.fetchGap c addresses g s.1).2, true)) hb' hs1 hk1
      refine ⟨hq2.trans hq, ?_, ⟨(src.fetchGap c addresses g s.1).2 ++ more, ?_, fun x hx => ?_⟩, fun x hx hd l hl => ?_⟩
      · rw [hgaps2, hgaps, List.filter_cons_of_neg (by simpa using hg)]
      · rw [hmore]
        exact List.append_assoc ..
      · rcases List.mem_append.1 hx with hx | hx
        · exact ⟨g, List.mem_cons_self, hg, hnew x hx⟩
        · obtain ⟨g', hg', hd⟩ := hsrc x hx
          exact ⟨g', List.mem_cons_of_mem _ hg', hd⟩
      · rcases List.mem_cons.1 hx with rfl | hx
        · rw [hq2, hmore]
          exact (hcov l hl).imp_left (List.mem_append_left _)
        · exact hcov2 x hx hd l hl
    · have hstep : src.fillQueued c addresses drained s g = (s.1.noteGap g, s.2) := if_neg hg
      rw [hstep]
      obtain ⟨hq2, hgaps2, ⟨more, hmore, hsrc⟩, hcov2⟩ := ih (s := (s.1.noteGap g, s.2)) hb' hs hk
      refine ⟨hq2, ?_, ⟨more, hmore, fun x hx => ?_⟩, fun x hx hd l hl => ?_⟩
      · rw [hgaps2, List.filter_cons_of_pos (by simpa using hg)]
        exact (List.append_assoc ..).trans rfl
      · obtain ⟨g', hg', hd⟩ := hsrc x hx
        exact ⟨g', List.mem_cons_of_mem _ hg', hd⟩
      · rcases List.mem_cons.1 hx with rfl | hx
        · exact absurd hd hg
        · exact hcov2 x hx hd l hl

/-- The gap's closing log was drained, and gaps are filled. -/
def Closes (src : WebsocketBlockSource) (drained : List Log) (queue : EventQueue) (g : Gap) : Prop :=
  src.fillReconnectGaps = true ∧ g ∈ queue.gaps ∧ g.before ∈ drained.filterMap Log.position

theorem buffered_effect (src : WebsocketBlockSource) (addresses : List Address) {drained : List Log} {queue : EventQueue}
    (hm : ∀ l ∈ drained, l ∈ c.logs) (hq : ∀ l ∈ queue.queue, l ∈ c.logs) (hk : queue.Known drained)
    (hb : ∀ g ∈ queue.gaps, g.before.block < 2 ^ 64) :
    let out := src.buffered c addresses drained queue
    out.1.queue = queue.queue ∧
      (src.fillReconnectGaps = true → ∀ g, g ∈ out.1.gaps ↔ g ∈ queue.gaps ∧ g.before ∉ drained.filterMap Log.position) ∧
      (∀ x ∈ drained, x ∈ out.2.1) ∧
      (∀ x ∈ out.2.1, x ∈ drained ∨ ∃ g, src.Closes drained queue g ∧ x ∈ src.gapLogs c addresses g) ∧
      (∀ g, src.Closes drained queue g → ∀ l ∈ src.gapLogs c addresses g, l ∈ out.2.1 ∨ l ∈ out.1.queue) := by
  unfold buffered
  by_cases hf : src.fillReconnectGaps = true
  · rw [if_pos hf]
    obtain ⟨h1, h2, ⟨new, h3, h4⟩, h5⟩ := foldl_fillQueued_effect src addresses
      (drained.filterMap Log.position) (s := (queue.takeGaps.1, drained, false)) hb
      (fun x hx => hx.elim (hm x) (hq x)) hk
    refine ⟨h1, fun _ g => ?_, fun x hx => ?_, fun x hx => ?_, fun g hg => h5 g hg.2.1 hg.2.2⟩
    · rw [h2]
      change g ∈ [] ++ _ ↔ _
      rw [List.nil_append, List.mem_filter, decide_eq_true_iff]
    · rw [h3]
      exact List.mem_append_left _ hx
    · rw [h3] at hx
      refine (List.mem_append.1 hx).imp_right fun hx => ?_
      obtain ⟨g, hg, hd, hin⟩ := h4 x hx
      exact ⟨g, ⟨hf, hg, hd⟩, hin⟩
  · rw [if_neg hf]
    exact ⟨rfl, fun h => absurd h hf, fun _ hx => hx, fun _ hx => .inl hx, fun _ hg => absurd hg.1 hf⟩

/-- Logs of blocks no later than those there do not move the cursor. -/
theorem bootstrapBlock_eq {xs ys : List Log} (hm : ∀ l ∈ ys, l.blockNumber = some l.block) (hsub : ∀ l ∈ xs, l ∈ ys)
    (hle : ∀ l ∈ ys, ∃ m ∈ xs, l.block ≤ m.block) : src.bootstrapBlock ys = src.bootstrapBlock xs := by
  cases hx : (xs.filterMap (·.blockNumber)).max? with
  | none =>
    rw [List.max?_eq_none_iff, List.filterMap_eq_nil_iff] at hx
    have hnil : ys = [] := List.eq_nil_iff_forall_not_mem.2 fun l hl => by
      obtain ⟨m, hm', -⟩ := hle l hl
      exact absurd ((hx m hm').symm.trans (hm m (hsub m hm'))) nofun
    subst hnil
    have hxs : xs = [] := List.eq_nil_iff_forall_not_mem.2 fun l hl => absurd (hsub l hl) List.not_mem_nil
    rw [hxs]
  | some b =>
    obtain ⟨hb, hmax⟩ := List.max?_eq_some_iff.1 hx
    obtain ⟨l, hl, hlb⟩ := List.mem_filterMap.1 hb
    have hblock : (ys.filterMap (·.blockNumber)).max? = some b := by
      refine List.max?_eq_some_iff.2 ⟨List.mem_filterMap.2 ⟨l, hsub l hl, hlb⟩, fun x hx => ?_⟩
      obtain ⟨y, hy, hyx⟩ := List.mem_filterMap.1 hx
      obtain ⟨m, hmx, hym⟩ := hle y hy
      have hyb := Option.some.inj ((hm y hy).symm.trans hyx)
      exact hyb ▸ hym.trans (hmax _ (List.mem_filterMap.2 ⟨m, hmx, hm m (hsub m hmx)⟩))
    unfold bootstrapBlock
    rw [hblock, hx]

/-! ## The cursor -/

section
variable {π : Type} [PoolInterface π] {env : Env} {latest : Nat} {drained : List Log} {queue queue' : EventQueue}
  {src' : WebsocketBlockSource} {r r' : PoolRegistry (Traced π)}

/-- What bootstrap leaves, told by the `events` it applies over the catch-up. -/
theorem bootstrap_effect (hstart : Booting src c latest drained queue r)
    (hb : src.bootstrap c env latest drained queue r = ((src', queue', r'), .ok ())) :
    let floored := { src with fillFloor := firstQueuedPosition latest drained }
    ∃ events : List Log, queue'.queue = queue.queue ∧
      (src.fillReconnectGaps = true → ∀ g, g ∈ queue'.gaps ↔ g ∈ queue.gaps ∧ g.before ∉ drained.filterMap Log.position) ∧
      (∀ x ∈ drained, x ∈ events) ∧
      (∀ x ∈ events, x ∈ drained ∨ ∃ g, src.Closes drained queue g ∧ x ∈ floored.gapLogs c r.getAllAddresses g) ∧
      (∀ g, src.Closes drained queue g → ∀ l ∈ floored.gapLogs c r.getAllAddresses g, l ∈ events ∨ l ∈ queue.queue) ∧
      r'.lastProcessedBlock = floored.bootstrapBlock drained ∧
      ∀ l ∈ c.logs, r.Concerned l → r.lastProcessedBlock < l.block →
        (r'.Includes l ↔ l.place < floored.fillFloor ∨ l ∈ events) := by
  intro floored
  obtain ⟨r1, h1, hr', rfl, -, -⟩ := bootstrap_ok hb
  have hfloorBlock : floored.fillFloor.block < 2 ^ 64 :=
    firstQueuedPosition_block hstart.latest fun l hl => c.mined l (hstart.mined l hl)
  obtain ⟨-, hcatch⟩ := catchUp_ok hfloorBlock h1
  have hbuffered := buffered_effect floored r1.getAllAddresses hstart.mined hstart.queued
    hstart.known hstart.gaps
  rw [hcatch.addresses] at hr' hbuffered ⊢
  change r' = (r1.replayed env.clock (r1.enrichIfLbPoolsPresent env.times _)).setLastProcessedBlock
    (floored.bootstrapBlock (floored.buffered c r.getAllAddresses drained queue).2.1) at hr'
  change ∃ events, (floored.buffered c r.getAllAddresses drained queue).1.queue = _ ∧
    (_ → ∀ g, g ∈ (floored.buffered c r.getAllAddresses drained queue).1.gaps ↔ _) ∧ _
  generalize floored.buffered c r.getAllAddresses drained queue = out at hr' hbuffered ⊢
  obtain ⟨hqueue, hgaps, hkeep, hnew, hcov⟩ := hbuffered
  rw [hqueue] at hcov
  have hlogs : ∀ x ∈ out.2.1, x ∈ c.logs := fun x hx => (hnew x hx).elim (hstart.mined x) fun ⟨_, _, hin⟩ =>
    (List.mem_filter.1 (List.mem_filter.1 hin).1).1
  refine ⟨out.2.1, hqueue, hgaps, hkeep, hnew, hcov, ?_, fun l hl hc hlt => ?_⟩
  · rw [hr']
    refine bootstrapBlock_eq (fun l hl => (c.mined l (hlogs l hl)).blockNumber) hkeep fun l hl => ?_
    rcases hnew l hl with hd | ⟨g, ⟨-, -, hclosing⟩, hin⟩
    · exact ⟨l, hd, le_rfl⟩
    · -- a gap ends before its closing log
      obtain ⟨m, hm, hp⟩ := List.mem_filterMap.1 hclosing
      have hbefore := (of_decide_eq_true (List.mem_filter.1 hin).2).1.2
      rw [(c.mined m (hstart.mined m hm)).position] at hp
      rw [← Option.some.inj hp] at hbefore
      exact ⟨m, hm, LogPosition.block_le hbefore.le⟩
  · -- put in order or not, the same logs
    have hsame : ∀ x, x ∈ (if out.2.2 then byPosition out.2.1 else out.2.1) ↔ x ∈ out.2.1 := by
      intro x
      split
      · exact (List.perm_insertionSort ..).mem_iff
      · exact Iff.rfl
    have hgives : r1.Gives (if out.2.2 then byPosition out.2.1 else out.2.1) r' := by
      rw [hr']
      have hg := (PoolRegistry.gives_replayed env.clock r1 (r1.enrichIfLbPoolsPresent env.times
        (if out.2.2 then byPosition out.2.1 else out.2.1))).of_enriched
      exact ⟨hg.ledger, hg.addresses, hg.topics⟩
    have hrel := hstart.subscribed.relevant hl hc
    rw [← hstart.topics] at hrel
    rw [hgives.includes_iff (fun x hx => hlogs x ((hsame x).1 hx)) hl ((hcatch.concerned l).2 hc), hsame,
      hcatch.includes_iff (fun x hx => (List.mem_filter.1 (List.mem_filter.1 hx).1).1) hl hc,
      hstart.holds.includes_iff hl hc, decide_eq_true_iff, List.mem_filter, decide_eq_true_iff]
    refine or_congr_left ⟨fun h => ?_, fun h => .inr ⟨hrel, hlt, h⟩⟩
    rcases h with h | ⟨-, -, h⟩
    · exact absurd h (not_le.2 hlt)
    · exact h

/-- **What bootstrap's cursor covers is applied or still comes**, exactly when every log after the old cursor
and from the floor on, in blocks that reach as far as the queue's, was drained or was still to come. -/
theorem bootstrap_covers (feeds : List Feed) (hstart : Booting src c latest drained queue r)
    (hb : src.bootstrap c env latest drained queue r = ((src', queue', r'), .ok ())) :
    let floored := { src with fillFloor := firstQueuedPosition latest drained }
    (∀ l ∈ c.logs, r.Concerned l → r.lastProcessedBlock < l.block → l.block ≤ r'.lastProcessedBlock →
        r'.Includes l ∨ src'.Expects queue' feeds l) ↔
      ∀ l ∈ c.logs, r.Concerned l → r.lastProcessedBlock < l.block → l.block ≤ floored.bootstrapBlock drained →
        floored.fillFloor ≤ l.place → l ∈ drained ∨ floored.Expects queue feeds l := by
  intro floored
  obtain ⟨-, -, -, -, hfloor, hfills⟩ := bootstrap_ok hb
  obtain ⟨events, hqueue, hgaps, hkeep, hnew, hcov, hcursor, hincludes⟩ := bootstrap_effect hstart hb
  have hfeed : ∀ f l, Feed.Delivers f src' l ↔ Feed.Delivers f floored l := by
    intro f l
    unfold Feed.Delivers
    rw [hfloor, hfills]
  rw [hcursor]
  unfold Expects
  simp only [hfeed, hqueue, hfloor, hfills]
  refine forall₂_congr fun l hl => forall₃_congr fun hc hlt hle => ?_
  rw [hincludes l hl hc hlt]
  have hrel := hstart.subscribed.relevant hl hc
  rw [← hstart.topics] at hrel
  constructor
  · rintro ((hbefore | hin) | hqueued | ⟨hf, hfl, g, hg, hholds⟩ | hfeeds) hfl
    · exact absurd hbefore (not_lt.2 hfl)
    · refine (hnew l hin).imp_right fun ⟨g, ⟨hf, hg, _⟩, hin⟩ => .inr (.inl ⟨hf, hfl, g, hg, ?_⟩)
      exact (of_decide_eq_true (List.mem_filter.1 hin).2).1
    · exact .inr (.inl hqueued)
    · exact .inr (.inr (.inl ⟨hf, hfl, g, ((hgaps hf g).1 hg).1, hholds⟩))
    · exact .inr (.inr (.inr hfeeds))
  · intro h
    by_cases hbefore : l.place < floored.fillFloor
    · exact .inl (.inl hbefore)
    rcases h (not_lt.1 hbefore) with hd | hqueued | ⟨hf, hfl, g, hg, hholds⟩ | hfeeds
    · exact .inl (.inr (hkeep l hd))
    · exact .inr (.inl hqueued)
    · by_cases hclosing : g.before ∈ drained.filterMap Log.position
      · have hin : l ∈ floored.gapLogs c r.getAllAddresses g := List.mem_filter.2 ⟨hrel, decide_eq_true ⟨hholds, hfl⟩⟩
        rcases hcov g ⟨hf, hg, hclosing⟩ l hin with hin | hin
        · exact .inl (.inr hin)
        · exact .inr (.inl hin)
      · exact .inr (.inr (.inl ⟨hf, hfl, g, (hgaps hf g).2 ⟨hg, hclosing⟩, hholds⟩))
    · exact .inr (.inr (.inr hfeeds))

end

/-! ## A block between two feeds -/

open Session

theorem booting_pairAt99 {latest : Nat} {drained : List Log} {queue : EventQueue} (fills : Bool) (hlatest : latest < 2 ^ 64)
    (hd : ∀ l ∈ drained ++ queue.queue, l ∈ twoSyncs.logs) (hk : queue.Known drained) (hg : queue.gaps = []) :
    Booting (.new pairAt99.topics 10 20 fills) twoSyncs latest drained queue pairAt99 where
  holds := pairAt99_holds
  subscribed := pairAt99_subscribed
  topics := rfl
  latest := hlatest
  mined l hl := hd l (List.mem_append_left _ hl)
  queued l hl := hd l (List.mem_append_right _ hl)
  known := hk
  gaps g h := by
    rw [hg] at h
    cases h

/-- The first sync was queued when bootstrap began and the second has been since. -/
theorem bootstrap_covers_twoSyncs :
    let queue : EventQueue := ⟨[syncAt 100 1], [(100, 0), (100, 1)], [], 1000⟩
    let out := (new pairAt99.topics 10 20 false).bootstrap twoSyncs stillEnv 99 [syncAt 100 0] queue pairAt99
    out.2 = .ok () ∧ ∀ l ∈ twoSyncs.logs, pairAt99.Concerned l → 99 < l.block → l.block ≤ out.1.2.2.lastProcessedBlock →
      out.1.2.2.Includes l ∨ out.1.1.Expects out.1.2.1 [] l := by
  intro queue out
  have hok : out.2 = .ok () := by decide +kernel
  have hk : queue.Known [syncAt 100 0] := by
    intro k hk
    rcases List.mem_cons.1 hk with rfl | hk
    · exact ⟨syncAt 100 0, .inl List.mem_cons_self, rfl⟩
    · rw [List.mem_singleton.1 hk]
      exact ⟨syncAt 100 1, .inr List.mem_cons_self, rfl⟩
  refine ⟨hok, (bootstrap_covers [] (booting_pairAt99 false (by decide) (by decide +kernel) hk rfl)
    (show out = ((out.1.1, out.1.2.1, out.1.2.2), .ok ()) by rw [← hok])).2 fun l hl _ _ _ _ => ?_⟩
  rcases List.mem_cons.1 hl with rfl | hl
  · exact .inl List.mem_cons_self
  · rw [List.mem_singleton.1 hl]
    exact .inr (.inl List.mem_cons_self)

/-- Nothing is queued, and both feeds were subscribed after the RPC's newest block had been sent: bootstrap
leaves that block to them, and takes it for processed. -/
theorem bootstrap_covers_fails :
    ¬ ∀ (src src' : WebsocketBlockSource) (c : Chain) (env : Env) (latest : Nat) (drained : List Log) (queue queue' : EventQueue)
      (r r' : PoolRegistry (Traced Pool)) (feeds : List Feed), Booting src c latest drained queue r →
      src.bootstrap c env latest drained queue r = ((src', queue', r'), .ok ()) →
      ∀ l ∈ c.logs, r.Concerned l → r.lastProcessedBlock < l.block → l.block ≤ r'.lastProcessedBlock →
        r'.Includes l ∨ src'.Expects queue' feeds l := by
  intro h
  have hlost := h _ _ twoSyncs stillEnv 100 [] (.new 1000) _ pairAt99 _
    [⟨FeedProgress.start.subscribed.1, []⟩, ⟨FeedProgress.start.subscribed.1, []⟩]
    (booting_pairAt99 false (by decide) (by decide +kernel) (fun k hk => absurd hk List.not_mem_nil) rfl) rfl
    (syncAt 100 0) List.mem_cons_self ⟨_, rfl, by decide +kernel⟩ (by decide +kernel) (by decide +kernel)
  rcases hlost with ⟨e, he, hin⟩ | hq | ⟨hf, -⟩ | ⟨f, hf, hin | ⟨hfills, -⟩⟩
  · -- the pair has been given nothing
    have hledger := he.symm.trans (by decide +kernel : _ = some (PoolType.UniswapV2, ([] : List Log)))
    rw [Option.some.inj hledger] at hin
    cases hin
  · cases hq
  · cases hf
  · have hnone : f.coming = [] := by
      rcases List.mem_cons.1 hf with rfl | hf
      · rfl
      · rw [List.mem_singleton.1 hf]
    rw [hnone] at hin
    cases hin
  · cases hfills

end WebsocketBlockSource

end EvmDexPool
