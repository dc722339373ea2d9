import Mathlib.Data.Multiset.Filter
import Mathlib.Tactic.Abel
import EvmDexPool.Collector.Pipeline

/-!
# Every log of the feed, exactly once

Between the floor and the last log forwarded, a relevant log has been forwarded or lies in exactly one
noted gap; what has been forwarded or fetched is with bootstrap, with the settler, or on its way there
(`Accounted`). One more turn of the source brings in what is on its way, and nothing a gap fetch brought
is priced.
-/

namespace EvmDexPool

open Replay

/-- The source is going through gaps it has taken. -/
def Stage.fills : Stage → Bool
  | .bootFilling .. => true
  | .filling => true
  | _ => false

namespace Pipeline

section
variable (c : Chain) (addresses : List Address) (s : Pipeline)

/-- What the listener has forwarded and the source has not drained, without what is below the floor. -/
def inQueue : List Log := (s.queue.queue ++ s.sending.toList).filter fun l => s.source.fillFloor ≤ l.place

/-- The logs of the gaps that are noted and not filled. -/
def inGaps : List Log := (s.taken ++ s.queue.gaps).flatMap (s.source.gapLogs c addresses)

/-- The relevant logs from the floor up to the last one forwarded. -/
def passed : List Log :=
  s.behind.filter fun l => s.source.fillFloor ≤ l.place ∧ s.progress.lastForwarded.any (l.place ≤ ·)

/-- What of the forwarded logs is not below the floor. -/
def forwardedAbove : List Log := s.forwarded.filter fun l => s.source.fillFloor ≤ l.place

/-- The feed: what it has passed is behind it, and while nothing was lost since the last log forwarded,
nothing behind it comes after that. -/
structure OnWire : Prop where
  wire : s.behind ++ s.ahead = c.relevant addresses s.source.topics
  last_lt : ∀ p, s.progress.lastForwarded = some p → ∀ l ∈ s.ahead, p < l.place
  caught : s.connected = true → s.progress.gapOpen = false →
    ∀ l ∈ s.behind, s.progress.lastForwarded.any (l.place ≤ ·)
  queued : ∀ l ∈ s.queue.queue ++ s.sending.toList, l ∈ s.behind ∧ l ∈ s.forwarded
  closed : ∀ g ∈ s.taken ++ s.queue.gaps, ∃ l ∈ s.behind, g.before = l.place

/-- Every log passed is forwarded, fetched or in a gap, and every log forwarded or fetched is with
bootstrap, with the settler or in the queue; the recent keys above the floor are those of logs that have
been recorded. -/
structure Accounted : Prop where
  split : (s.forwardedAbove + s.fetched + s.inGaps c addresses : Multiset Log) = s.passed
  account : (s.bootstrapped + s.handed + s.inQueue : Multiset Log) = s.forwardedAbove + s.fetched
  recent : ∀ k ∈ s.queue.recent, ∃ l ∈ s.behind, l.key? = some k ∧
    (s.source.fillFloor ≤ l.place → l ∈ s.bootstrapped ∨ l ∈ s.handed ∨ l ∈ s.queue.queue)

/-- What the stage says: only a filling stage holds gaps, and before bootstrap nothing has been taken. -/
structure Staged : Prop where
  fills : s.source.fillReconnectGaps = true
  taken : s.stage.fills = false → s.taken = []
  created : s.stage = .created →
    s.source.fillFloor = .mk 0 0 0 ∧ s.bootstrapped = [] ∧ s.handed = [] ∧ s.fetched = []

structure Sound : Prop extends s.OnWire c addresses, s.Accounted c addresses, s.Staged

end

section
variable {c : Chain} {addresses : List Address} {s : Pipeline}

/-! ## The wire -/

theorem OnWire.nodup (h : s.OnWire c addresses) : (s.behind ++ s.ahead).Nodup := by
  rw [h.wire]
  exact c.relevant_nodup ..

theorem OnWire.mined_ahead (h : s.OnWire c addresses) {l : Log} (hl : l ∈ s.ahead) : l.Mined := by
  have hl : l ∈ s.behind ++ s.ahead := List.mem_append_right _ hl
  rw [h.wire] at hl
  exact Chain.relevant_mined hl

theorem OnWire.mined (h : s.OnWire c addresses) {l : Log} (hl : l ∈ s.behind) : l.Mined := by
  have hl : l ∈ s.behind ++ s.ahead := List.mem_append_left _ hl
  rw [h.wire] at hl
  exact Chain.relevant_mined hl

/-- The next log comes after all behind it and before all that follow. -/
theorem OnWire.next (h : s.OnWire c addresses) {l : Log} {rest : List Log} (ha : s.ahead = l :: rest) :
    (∀ m ∈ s.behind, m.place < l.place) ∧ ∀ m ∈ rest, l.place < m.place := by
  have hs := c.relevant_sorted addresses s.source.topics
  rw [← h.wire, ha, List.pairwise_append, List.pairwise_cons] at hs
  exact ⟨fun m hm => hs.2.2 m hm l List.mem_cons_self, hs.2.1.1⟩

theorem passed_nodup (h : s.OnWire c addresses) : s.passed.Nodup :=
  (List.nodup_append.1 h.nodup).1.sublist List.filter_sublist

/-- A loss, noticed or not, moves a log behind. -/
theorem passed_append (h : s.OnWire c addresses) {l : Log} {rest : List Log} (ha : s.ahead = l :: rest) :
    (s.behind ++ [l]).filter (fun l => decide (s.source.fillFloor ≤ l.place ∧
      s.progress.lastForwarded.any (l.place ≤ ·))) = s.passed := by
  have hl : l ∈ s.ahead := by
    rw [ha]
    exact List.mem_cons_self
  rw [List.filter_append, List.filter_cons_of_neg, List.filter_nil, List.append_nil]
  · rfl
  · simp only [decide_eq_true_eq, not_and]
    intro _ hany
    obtain ⟨p, hp, hle⟩ := (Option.any_eq_true ..).1 hany
    exact absurd (of_decide_eq_true hle) (not_le.2 (h.last_lt p hp l hl))

/-! ## The feed's steps -/

theorem Sound.subscribe (h : s.Sound c addresses) : s.subscribe.Sound c addresses := by
  unfold Pipeline.subscribe
  split
  · exact h
  · exact
      { h with
        caught := fun _ hg => by cases hg }

theorem Sound.disconnect (h : s.Sound c addresses) : s.disconnect.Sound c addresses :=
  { h with
    caught := fun hc => by cases hc }

/-- A log passes: the listener does not see it. -/
theorem Sound.lose (h : s.Sound c addresses) {l : Log} {rest : List Log} (ha : s.ahead = l :: rest)
    {progress : FeedProgress} (hp : progress.lastForwarded = s.progress.lastForwarded)
    (hg : s.connected = true → progress.gapOpen = true) :
    Sound c addresses { s with behind := s.behind ++ [l], ahead := rest, progress := progress } := by
  have hpassed := passed_append h.toOnWire ha
  constructor
  · constructor
    · change s.behind ++ [l] ++ rest = _
      rw [List.append_assoc, List.singleton_append, ← ha]
      exact h.wire
    · intro p hl m hm
      refine h.last_lt p (hp.symm.trans hl) m ?_
      rw [ha]
      exact List.mem_cons_of_mem _ hm
    · intro hc hgap
      rw [hg hc] at hgap
      cases hgap
    · exact fun m hm => (h.queued m hm).imp_left (List.mem_append_left _)
    · intro g hgap
      obtain ⟨m, hm, hb⟩ := h.closed g hgap
      exact ⟨m, List.mem_append_left _ hm, hb⟩
  · constructor
    · refine h.split.trans ?_
      unfold passed at hpassed ⊢
      dsimp only
      rw [hp, hpassed]
    · exact h.account
    · intro k hk
      obtain ⟨m, hm, hk⟩ := h.recent k hk
      exact ⟨m, List.mem_append_left _ hm, hk⟩
  · exact { h.toStaged with }

theorem Sound.miss (h : s.Sound c addresses) : s.miss.Sound c addresses := by
  unfold Pipeline.miss
  split
  · next hc ha =>
    refine h.lose ha rfl fun hc' => ?_
    rw [hc] at hc'
    cases hc'
  · exact h

theorem Sound.overflow (h : s.Sound c addresses) : s.overflow.Sound c addresses := by
  unfold Pipeline.overflow
  split
  · next hc ha => exact h.lose ha rfl fun _ => rfl
  · exact h

/-- The gap a log closes, if one is open. -/
def closing (s : Pipeline) (l : Log) : Option Gap :=
  if s.progress.gapOpen then some ⟨s.progress.lastForwarded, l.place⟩ else none

/-- The logs behind the next one are those passed and those of the gap it closes. -/
theorem passed_closing (h : s.OnWire c addresses) (hc : s.connected = true) {l : Log} {rest : List Log}
    (ha : s.ahead = l :: rest) :
    s.passed ++ (s.closing l).toList.flatMap (s.source.gapLogs c addresses) =
      s.behind.filter fun l => s.source.fillFloor ≤ l.place := by
  obtain ⟨hlt, hgt⟩ := h.next ha
  unfold closing
  cases hg : s.progress.gapOpen with
  | false =>
    rw [if_neg Bool.false_ne_true]
    unfold passed
    simp only [Option.toList_none, List.flatMap_nil, List.append_nil]
    refine List.filter_congr fun m hm => ?_
    have := h.caught hc hg m hm
    simp [this]
  | true =>
    rw [if_pos rfl]
    simp only [Option.toList_some, List.flatMap_singleton]
    unfold WebsocketBlockSource.gapLogs
    rw [← h.wire, ha, List.filter_append]
    have hnone : (l :: rest).filter (fun m => decide (Gap.Holds ⟨s.progress.lastForwarded, l.place⟩ m.place ∧
        s.source.fillFloor ≤ m.place)) = [] := by
      rw [List.filter_eq_nil_iff]
      intro m hm hin
      have hlt : m.place < l.place := (of_decide_eq_true hin).1.2
      rcases List.mem_cons.1 hm with rfl | hm
      · exact lt_irrefl _ hlt
      · exact lt_asymm hlt (hgt m hm)
    rw [hnone, List.append_nil]
    have hsorted := (List.pairwise_append.1 (h.wire ▸ c.relevant_sorted addresses s.source.topics)).1
    refine filter_append_filter (hsorted.imp fun {x y} hxy hq hp => ?_) (fun m hm => ?_) fun m hm => ?_
    · obtain ⟨p, hl, hle⟩ := (Option.any_eq_true ..).1 (of_decide_eq_true hp).2
      exact lt_asymm hxy ((of_decide_eq_true hle).trans_lt ((of_decide_eq_true hq).1.1 p hl))
    · have hml := hlt m hm
      cases hl : s.progress.lastForwarded with
      | none => simp [Gap.Holds, hml]
      | some p =>
        simp only [Option.any_some, decide_eq_true_eq, Gap.Holds, hml, and_true, Option.some.injEq, forall_eq']
        constructor
        · intro hf
          rcases le_or_gt m.place p with hle | hlt
          · exact .inl ⟨hf, hle⟩
          · exact .inr ⟨hlt, hf⟩
        · rintro (h | h)
          · exact h.1
          · exact h.2
    · rintro ⟨hp, hq⟩
      obtain ⟨p, hl, hle⟩ := (Option.any_eq_true ..).1 (of_decide_eq_true hp).2
      exact absurd ((of_decide_eq_true hq).1.1 p hl) (not_lt.2 (of_decide_eq_true hle))

theorem Sound.deliver (h : s.Sound c addresses) : s.deliver.Sound c addresses := by
  unfold Pipeline.deliver
  split
  · next l rest hc hs ha =>
    obtain ⟨hlt, hgt⟩ := h.next ha
    have hmem : l ∈ s.behind ++ [l] := List.mem_append_right _ (List.mem_singleton_self l)
    have hl : l.Mined := h.mined_ahead (by
      rw [ha]
      exact List.mem_cons_self)
    have hforward := FeedProgress.forwarding_mined hl fun p hp => h.last_lt p hp l (by
      rw [ha]
      exact List.mem_cons_self)
    rw [hforward]
    change Sound c addresses { s with
      behind := s.behind ++ [l]
      ahead := rest
      progress := { s.progress with gapOpen := false, lastForwarded := some l.place }
      queue := (s.closing l).elim s.queue s.queue.noteGap
      sending := some l
      forwarded := s.forwarded ++ [l] }
    have hqueue : ((s.closing l).elim s.queue s.queue.noteGap).queue = s.queue.queue := by
      cases s.closing l <;> rfl
    have hrecent : ((s.closing l).elim s.queue s.queue.noteGap).recent = s.queue.recent := by
      cases s.closing l <;> rfl
    have hgaps : ((s.closing l).elim s.queue s.queue.noteGap).gaps = s.queue.gaps ++ (s.closing l).toList := by
      cases s.closing l
      · exact (List.append_nil _).symm
      · rfl
    constructor
    · constructor
      · change s.behind ++ [l] ++ rest = _
        rw [List.append_assoc, List.singleton_append, ← ha]
        exact h.wire
      · intro p hp m hm
        cases hp
        exact hgt m hm
      · intro _ _ m hm
        refine (Option.any_eq_true ..).2 ⟨l.place, rfl, decide_eq_true ?_⟩
        rcases List.mem_append.1 hm with hm | hm
        · exact (hlt m hm).le
        · rw [List.mem_singleton.1 hm]
      · intro m hm
        dsimp only at hm
        rw [hqueue] at hm
        rcases List.mem_append.1 hm with hm | hm
        · exact (h.queued m (List.mem_append_left _ hm)).imp (List.mem_append_left _) (List.mem_append_left _)
        · rw [List.mem_singleton.1 hm]
          exact ⟨hmem, List.mem_append_right _ (List.mem_singleton_self l)⟩
      · intro g hg
        dsimp only at hg
        rw [hgaps, ← List.append_assoc] at hg
        rcases List.mem_append.1 hg with hg | hg
        · obtain ⟨m, hm, hb⟩ := h.closed g hg
          exact ⟨m, List.mem_append_left _ hm, hb⟩
        · unfold closing at hg
          split at hg
          · rw [List.mem_singleton.1 hg]
            exact ⟨l, hmem, rfl⟩
          · cases hg
    · have hclosing := passed_closing h.toOnWire hc ha
      have habove : (s.forwarded ++ [l]).filter (fun l => decide (s.source.fillFloor ≤ l.place)) =
          s.forwardedAbove ++ [l].filter fun l => s.source.fillFloor ≤ l.place := List.filter_append ..
      constructor
      · have hin : (s.taken ++ ((s.closing l).elim s.queue s.queue.noteGap).gaps).flatMap (s.source.gapLogs c addresses) =
            s.inGaps c addresses ++ (s.closing l).toList.flatMap (s.source.gapLogs c addresses) := by
          rw [hgaps, ← List.append_assoc, List.flatMap_append]
          rfl
        have hpass : (s.behind ++ [l]).filter (fun m => decide (s.source.fillFloor ≤ m.place ∧
              (some l.place).any (m.place ≤ ·))) =
            s.passed ++ (s.closing l).toList.flatMap (s.source.gapLogs c addresses) ++
              [l].filter fun l => s.source.fillFloor ≤ l.place := by
          rw [hclosing, ← List.filter_append]
          refine List.filter_congr fun m hm => ?_
          have : m.place ≤ l.place := by
            rcases List.mem_append.1 hm with hm | hm
            · exact (hlt m hm).le
            · rw [List.mem_singleton.1 hm]
          simp [this]
        unfold forwardedAbove inGaps passed
        dsimp only
        rw [habove, hin, hpass]
        simp only [← Multiset.coe_add, ← h.split]
        abel
      · have hq : s.inQueue = s.queue.queue.filter fun l => s.source.fillFloor ≤ l.place := by
          unfold inQueue
          rw [hs, Option.toList_none, List.append_nil]
        have haccount := h.account
        unfold forwardedAbove inQueue
        dsimp only
        rw [habove, hqueue, Option.toList_some, List.filter_append, ← hq]
        simp only [← Multiset.coe_add]
        rw [← add_assoc, haccount]
        abel
      · intro k hk
        dsimp only at hk
        rw [hrecent] at hk
        obtain ⟨m, hm, hk⟩ := h.recent k hk
        refine ⟨m, List.mem_append_left _ hm, hk.1, ?_⟩
        dsimp only
        rw [hqueue]
        exact hk.2
    · exact { h.toStaged with }
  · exact h

/-! ## The queue -/

/-- No log is in two places. -/
theorem Sound.nodup (h : s.Sound c addresses) :
    (s.bootstrapped ++ s.handed ++ s.inQueue ++ s.inGaps c addresses).Nodup := by
  rw [← Multiset.coe_nodup]
  simp only [← Multiset.coe_add]
  rw [h.account, h.split]
  exact Multiset.coe_nodup.2 (passed_nodup h.toOnWire)

/-- A log in the account has passed. -/
theorem Sound.mem_passed (h : s.Sound c addresses) {l : Log}
    (hl : l ∈ s.bootstrapped ++ s.handed ++ s.inQueue ++ s.inGaps c addresses) : l ∈ s.passed := by
  have : l ∈ (s.passed : Multiset Log) := by
    rw [← h.split, ← h.account]
    simpa [or_assoc] using hl
  exact this

/-- A log whose key is recent and which is not below the floor is with bootstrap, with the settler or in
the channel. -/
theorem Sound.of_recent (h : s.Sound c addresses) {l : Log} (hl : l ∈ c.relevant addresses s.source.topics)
    (hf : s.source.fillFloor ≤ l.place) {k : B256 × Nat} (hk : l.key? = some k) (hr : k ∈ s.queue.recent) :
    l ∈ s.bootstrapped ∨ l ∈ s.handed ∨ l ∈ s.queue.queue := by
  obtain ⟨m, hm, hmk, hplace⟩ := h.recent k hr
  have hmr : m ∈ c.relevant addresses s.source.topics := by
    rw [← h.wire]
    exact List.mem_append_left _ hm
  have heq := Chain.eq_of_key (List.mem_filter.1 hl).1 (List.mem_filter.1 hmr).1 (hk.trans hmk.symm)
  subst heq
  exact hplace hf

/-- The log being sent is not among the recent ones, unless it is below the floor. -/
theorem Sound.sending_fresh (h : s.Sound c addresses) {l : Log} (hs : s.sending = some l)
    (hl : l ∈ c.relevant addresses s.source.topics) (hf : s.source.fillFloor ≤ l.place) {k : B256 × Nat}
    (hk : l.key? = some k) : k ∉ s.queue.recent := by
  intro hr
  have hq : s.inQueue = (s.queue.queue.filter fun l => s.source.fillFloor ≤ l.place) ++ [l] := by
    unfold inQueue
    rw [hs, Option.toList_some, List.filter_append]
    exact congrArg _ (List.filter_cons_of_pos (by simpa using hf))
  have hn := h.nodup
  rw [hq] at hn
  have hn := (List.nodup_append.1 hn).1
  rw [← List.append_assoc] at hn
  have hnot := (List.nodup_append.1 hn).2.2
  refine hnot l ?_ l (List.mem_singleton_self l) rfl
  rcases h.of_recent hl hf hk hr with hm | hm | hm
  · exact List.mem_append_left _ (List.mem_append_left _ hm)
  · exact List.mem_append_left _ (List.mem_append_right _ hm)
  · exact List.mem_append_right _ (List.mem_filter.2 ⟨hm, decide_eq_true hf⟩)

theorem Sound.send (h : s.Sound c addresses) : s.send.Sound c addresses := by
  unfold Pipeline.send
  split
  · next l hs =>
    obtain ⟨hb, hfwd⟩ := h.queued l (List.mem_append_right _ (by
      rw [hs]
      exact List.mem_singleton_self l))
    have hrel : l ∈ c.relevant addresses s.source.topics := by
      rw [← h.wire]
      exact List.mem_append_left _ hb
    obtain ⟨k, hk⟩ := Option.isSome_iff_exists.1 (h.mined hb).key
    obtain ⟨hq, hg, hr⟩ := EventQueue.send_effect (q := s.queue) hk
    have hin : ((s.queue.send l).1.queue ++ (none : Option Log).toList).filter (fun l => decide (s.source.fillFloor ≤ l.place)) =
        s.inQueue := by
      unfold inQueue
      rw [hs, Option.toList_none, List.append_nil]
      rcases hq with hq | ⟨hq, hstale⟩
      · rw [hq]
        rfl
      · have hf : ¬ s.source.fillFloor ≤ l.place := fun hf => h.sending_fresh hs hrel hf hk hstale
        rw [hq, Option.toList_some, List.filter_append, List.filter_cons_of_neg (by simpa using hf), List.filter_nil,
          List.append_nil]
    have hsub : ∀ m ∈ s.queue.queue, m ∈ (s.queue.send l).1.queue := by
      intro m hm
      rcases hq with hq | ⟨hq, -⟩
      · rw [hq]
        exact List.mem_append_left _ hm
      · rw [hq]
        exact hm
    constructor
    · refine { h.toOnWire with queued := fun m hm => ?_, closed := fun g hg' => ?_ }
      · rw [Option.toList_none, List.append_nil] at hm
        rcases hq with hq | ⟨hq, -⟩
        · rw [hq] at hm
          rcases List.mem_append.1 hm with hm | hm
          · exact h.queued m (List.mem_append_left _ hm)
          · rw [List.mem_singleton.1 hm]
            exact ⟨hb, hfwd⟩
        · rw [hq] at hm
          exact h.queued m (List.mem_append_left _ hm)
      · dsimp only at hg'
        rw [hg] at hg'
        exact h.closed g hg'
    · constructor
      · have := h.split
        unfold inGaps at this ⊢
        dsimp only
        rw [hg]
        exact this
      · have := h.account
        unfold inQueue
        dsimp only
        rw [hin]
        exact this
      · intro k' hk'
        rcases hr k' hk' with hk' | rfl
        · obtain ⟨m, hm, hmk, hplace⟩ := h.recent k' hk'
          exact ⟨m, hm, hmk, fun hf => (hplace hf).imp_right (Or.imp_right (hsub m))⟩
        · refine ⟨l, hb, hk, fun hf => .inr (.inr ?_)⟩
          rcases hq with hq | ⟨-, hstale⟩
          · rw [hq]
            exact List.mem_append_right _ (List.mem_singleton_self l)
          · exact absurd hstale (h.sending_fresh hs hrel hf hk)
    · exact { h.toStaged with }
  · exact h

/-! ## Bootstrap -/

/-- A gap's logs above a higher floor. -/
theorem gapLogs_raise (src : WebsocketBlockSource) {floor : LogPosition} (hf : src.fillFloor ≤ floor) (g : Gap) :
    { src with fillFloor := floor }.gapLogs c addresses g =
      (src.gapLogs c addresses g).filter fun l => floor ≤ l.place := by
  unfold WebsocketBlockSource.gapLogs
  rw [List.filter_filter]
  refine List.filter_congr fun l _ => ?_
  by_cases h : floor ≤ l.place
  · simp [h, hf.trans h]
  · simp [h]

theorem Sound.bootDrain (h : s.Sound c addresses) (latest : Nat) : (s.bootDrain latest).Sound c addresses := by
  unfold Pipeline.bootDrain
  split
  · next hstage =>
    obtain ⟨hfloor, hboot, hhanded, hfetched⟩ := h.created hstage
    have hlow : ∀ p : LogPosition, s.source.fillFloor ≤ p := by
      intro p
      rw [hfloor]
      exact LogPosition.start_le (Nat.zero_le _)
    generalize hfl : WebsocketBlockSource.firstQueuedPosition latest s.queue.queue = floor
    have hfilter : ∀ ls : List Log, (ls.filter fun l => s.source.fillFloor ≤ l.place) = ls := by
      intro ls
      rw [List.filter_eq_self]
      exact fun l _ => decide_eq_true (hlow _)
    constructor
    · refine { h.toOnWire with queued := fun m hm => ?_ }
      exact h.queued m (List.mem_append_right _ hm)
    · have hsplit := congrArg (Multiset.filter fun l => floor ≤ l.place) h.split
      have haccount := congrArg (Multiset.filter fun l => floor ≤ l.place) h.account
      unfold forwardedAbove inQueue at haccount
      unfold forwardedAbove inGaps passed at hsplit
      rw [hboot, hhanded, hfetched, hfilter, hfilter] at haccount
      rw [hfetched, hfilter] at hsplit
      constructor
      · unfold forwardedAbove inGaps passed
        dsimp only
        have hgaps : (s.taken ++ s.queue.gaps).flatMap ({ s.source with fillFloor := floor }.gapLogs c addresses) =
            ((s.taken ++ s.queue.gaps).flatMap (s.source.gapLogs c addresses)).filter fun l => floor ≤ l.place := by
          rw [List.filter_flatMap]
          exact List.flatMap_congr fun g _ => gapLogs_raise s.source (hlow floor) g
        have hpass : (s.behind.filter fun l => floor ≤ l.place ∧ s.progress.lastForwarded.any (l.place ≤ ·)) =
            (s.behind.filter fun l => s.source.fillFloor ≤ l.place ∧ s.progress.lastForwarded.any (l.place ≤ ·)).filter
              fun l => floor ≤ l.place := by
          rw [List.filter_filter]
          exact List.filter_congr fun l _ => by simp [hlow l.place]
        rw [show s.queue.getAllAvailableEvents.1.gaps = s.queue.gaps from rfl, hgaps, hpass, hfetched]
        simpa using hsplit
      · have hdrained : (s.queue.queue.filter fun l => floor ≤ l.place) = s.queue.queue := by
          rw [List.filter_eq_self]
          intro l hl
          rw [← hfl]
          exact decide_eq_true (WebsocketBlockSource.firstQueuedPosition_le hl
            (h.mined (h.queued l (List.mem_append_left _ hl)).1).position)
        unfold forwardedAbove inQueue
        dsimp only
        rw [show s.queue.getAllAvailableEvents.1.queue = [] from rfl, hhanded, hfetched, List.nil_append]
        simp only [← Multiset.coe_add, ← Multiset.filter_coe, Multiset.filter_add, Multiset.coe_nil, add_zero,
          zero_add] at haccount ⊢
        rw [← haccount]
        exact congrArg (· + _) (congrArg (↑· : List Log → Multiset Log) hdrained.symm)
      · intro k hk
        obtain ⟨m, hm, hmk, hplace⟩ := h.recent k hk
        refine ⟨m, hm, hmk, fun _ => ?_⟩
        rcases hplace (hlow _) with hm | hm | hm
        · rw [hboot] at hm
          cases hm
        · rw [hhanded] at hm
          cases hm
        · exact .inl hm
    · refine { h.toStaged with taken := fun _ => h.taken ?_, created := fun hc => by cases hc }
      rw [hstage]
      rfl
  · exact h

/-! ## Taking and filling gaps -/

/-- `take_gaps`, in bootstrap or in the loop. -/
theorem Sound.take (h : s.Sound c addresses) (ht : s.taken = []) {stage : Stage} (hst : stage.fills = true) :
    Sound c addresses { s with
      queue := s.queue.takeGaps.1
      taken := if s.source.fillReconnectGaps then s.queue.gaps else []
      stage := stage } := by
  have hgaps : ((if s.source.fillReconnectGaps then s.queue.gaps else []) ++ s.queue.takeGaps.1.gaps) =
      s.taken ++ s.queue.gaps := by
    rw [h.fills, if_pos rfl, ht]
    exact List.append_nil _
  constructor
  · refine { h.toOnWire with closed := fun g hg => ?_ }
    dsimp only at hg
    rw [hgaps] at hg
    exact h.closed g hg
  · refine { h.toAccounted with split := ?_ }
    have := h.split
    unfold inGaps at this ⊢
    dsimp only
    rw [hgaps]
    exact this
  · refine ⟨h.fills, fun hf => ?_, fun hc => ?_⟩
    · dsimp only at hf
      rw [hst] at hf
      cases hf
    · dsimp only at hc
      rw [hc] at hst
      cases hst

theorem Sound.bootTakeGaps (h : s.Sound c addresses) : s.bootTakeGaps.Sound c addresses := by
  unfold Pipeline.bootTakeGaps
  split
  · next drained hstage =>
    refine h.take (h.taken ?_) rfl
    rw [hstage]
    rfl
  · exact h

theorem Sound.takeGaps (h : s.Sound c addresses) : s.takeGaps.Sound c addresses := by
  unfold Pipeline.takeGaps
  split
  · next hstage =>
    refine h.take (h.taken ?_) rfl
    rw [hstage]
    rfl
  · exact h

/-- A gap's logs are nowhere yet, so the fetch takes them all. -/
theorem Sound.fetchGap (h : s.Sound c addresses) {g : Gap} {rest : List Gap} (ht : s.taken = g :: rest) :
    (s.source.fetchGap c addresses g s.queue).2 = s.source.gapLogs c addresses g ∧
    (s.source.fetchGap c addresses g s.queue).1.queue = s.queue.queue ∧
    (s.source.fetchGap c addresses g s.queue).1.gaps = s.queue.gaps ∧
    ∀ k ∈ (s.source.fetchGap c addresses g s.queue).1.recent,
      k ∈ s.queue.recent ∨ ∃ l ∈ s.source.gapLogs c addresses g, l.key? = some k := by
  refine WebsocketBlockSource.fetchGap_spec ?_ fun l hl k hk hr => ?_
  · obtain ⟨m, hm, hb⟩ := h.closed g (by
      rw [ht]
      exact List.mem_append_left _ List.mem_cons_self)
    have := (h.mined hm).bounded
    rw [hb]
    change m.block < 2 ^ 64
    omega
  · obtain ⟨hrel, hin⟩ := List.mem_filter.1 hl
    have hf : s.source.fillFloor ≤ l.place := (of_decide_eq_true hin).2
    have hgaps : l ∈ s.inGaps c addresses := by
      unfold inGaps
      rw [ht]
      exact List.mem_flatMap.2 ⟨g, List.mem_append_left _ List.mem_cons_self, hl⟩
    refine (List.nodup_append.1 h.nodup).2.2 l ?_ l hgaps rfl
    rcases h.of_recent hrel hf hk hr with hm | hm | hm
    · exact List.mem_append_left _ (List.mem_append_left _ hm)
    · exact List.mem_append_left _ (List.mem_append_right _ hm)
    · exact List.mem_append_right _ (List.mem_filter.2 ⟨List.mem_append_left _ hm, decide_eq_true hf⟩)

/-- A filled gap: its logs are added to those bootstrap took, or to those handed to the settler. -/
theorem Sound.filled (h : s.Sound c addresses) {g : Gap} {rest : List Gap} (ht : s.taken = g :: rest)
    (source : WebsocketBlockSource) (htopics : source.topics = s.source.topics)
    (hfloor : source.fillFloor = s.source.fillFloor) (hfill : source.fillReconnectGaps = s.source.fillReconnectGaps)
    (stage : Stage) (hst : stage.fills = true) {bootstrapped handed : List Log}
    (hplaces : (bootstrapped + handed : Multiset Log) =
      s.bootstrapped + s.handed + (s.source.fetchGap c addresses g s.queue).2)
    (hkeep : ∀ l, l ∈ s.bootstrapped ∨ l ∈ s.handed → l ∈ bootstrapped ∨ l ∈ handed) :
    Sound c addresses { s with
      source := source
      queue := (s.source.fetchGap c addresses g s.queue).1
      stage := stage
      taken := rest
      fetched := s.fetched ++ (s.source.fetchGap c addresses g s.queue).2
      bootstrapped := bootstrapped
      handed := handed } := by
  obtain ⟨hmissed, hqueue, hgaps, hrecent⟩ := h.fetchGap ht
  rw [hmissed] at hplaces ⊢
  have hgap : source.gapLogs c addresses = s.source.gapLogs c addresses := by
    unfold WebsocketBlockSource.gapLogs
    rw [htopics, hfloor]
  constructor
  · refine ⟨by rw [htopics]; exact h.wire, h.last_lt, h.caught, fun l hl => ?_, fun g' hg' => ?_⟩
    · dsimp only at hl
      rw [hqueue] at hl
      exact h.queued l hl
    · dsimp only at hg'
      rw [hgaps] at hg'
      refine h.closed g' ?_
      rw [ht]
      exact List.mem_cons_of_mem _ hg'
  · constructor
    · have hsplit := h.split
      unfold forwardedAbove inGaps passed at hsplit ⊢
      dsimp only
      rw [hfloor, hgaps, hgap, ← hsplit, ht, List.cons_append, List.flatMap_cons]
      simp only [← Multiset.coe_add]
      abel
    · have haccount := h.account
      unfold forwardedAbove inQueue at haccount ⊢
      dsimp only
      rw [hplaces, hfloor, hqueue]
      simp only [← Multiset.coe_add] at haccount ⊢
      rw [add_right_comm, haccount]
      abel
    · intro k hk
      dsimp only
      rw [hfloor, hqueue]
      rcases hrecent k hk with hk | ⟨l, hl, hlk⟩
      · obtain ⟨m, hm, hmk, hplace⟩ := h.recent k hk
        refine ⟨m, hm, hmk, fun hf => ?_⟩
        rcases hplace hf with hm | hm | hm
        · exact or_assoc.1 (.inl (hkeep m (.inl hm)))
        · exact or_assoc.1 (.inl (hkeep m (.inr hm)))
        · exact .inr (.inr hm)
      · have hpassed : l ∈ (s.passed : Multiset Log) := by
          rw [← h.split]
          refine Multiset.mem_add.2 (.inr (List.mem_flatMap.2 ⟨g, ?_, hl⟩))
          rw [ht]
          exact List.mem_append_left _ List.mem_cons_self
        have hnew : l ∈ (bootstrapped + handed : Multiset Log) := by
          rw [hplaces]
          exact Multiset.mem_add.2 (.inr hl)
        exact ⟨l, (List.mem_filter.1 hpassed).1, hlk, fun _ => or_assoc.1 (.inl (Multiset.mem_add.1 hnew))⟩
  · refine ⟨hfill.trans h.fills, fun hf => ?_, fun hc => ?_⟩
    · dsimp only at hf
      rw [hst] at hf
      cases hf
    · dsimp only at hc
      rw [hc] at hst
      cases hst

theorem Sound.bootGap (h : s.Sound c addresses) : (s.bootGap c addresses).Sound c addresses := by
  unfold Pipeline.bootGap
  split
  · next drained events filled g rest hstage ht =>
    split
    · refine h.filled ht s.source rfl rfl rfl (.bootFilling ..) rfl ?_ fun l hl => hl.imp_left (List.mem_append_left _)
      simp only [← Multiset.coe_add]
      abel
    · -- noted again
      have hgaps : (rest ++ (s.queue.noteGap g).gaps).Perm (s.taken ++ s.queue.gaps) := by
        rw [ht]
        change (rest ++ (s.queue.gaps ++ [g])).Perm _
        rw [← List.append_assoc]
        exact List.perm_append_singleton g (rest ++ s.queue.gaps)
      constructor
      · refine { h.toOnWire with closed := fun g' hg' => h.closed g' (hgaps.mem_iff.1 hg') }
      · refine { h.toAccounted with split := ?_ }
        refine Eq.trans ?_ h.split
        unfold inGaps
        exact congrArg _ (Multiset.coe_eq_coe.2 (hgaps.flatMap_right _))
      · exact ⟨h.fills, fun hf => (Bool.false_ne_true hf.symm).elim, fun hc => Stage.noConfusion hc⟩
  · exact h

theorem Sound.fill (h : s.Sound c addresses) (now : Nat) : (s.fill c addresses now).Sound c addresses := by
  unfold Pipeline.fill
  split
  · next g rest hstage ht =>
    have hst : s.stage.fills = true := by
      rw [hstage]
      rfl
    refine h.filled ht (s.source.fillGap c addresses g now s.queue).1 rfl rfl rfl s.stage hst ?_ fun l hl =>
      hl.imp_right (List.mem_append_left _)
    simp only [← Multiset.coe_add]
    abel
  · exact h

/-! ## The rest of the loop -/

/-- The settler's own steps move no log in or out of the account. -/
theorem Sound.restage (h : s.Sound c addresses) (source : WebsocketBlockSource)
    (htopics : source.topics = s.source.topics) (hfloor : source.fillFloor = s.source.fillFloor)
    (hfill : source.fillReconnectGaps = s.source.fillReconnectGaps) (stage : Stage) (hst : stage ≠ .created)
    (ht : stage.fills = false → s.taken = []) (released : List (Settled × ProcessingMode)) :
    Sound c addresses { s with source := source, stage := stage, released := released } := by
  have hgap : source.gapLogs c addresses = s.source.gapLogs c addresses := by
    unfold WebsocketBlockSource.gapLogs
    rw [htopics, hfloor]
  constructor
  · exact { h.toOnWire with wire := by rw [htopics]; exact h.wire }
  · constructor
    · have := h.split
      unfold forwardedAbove inGaps passed at this ⊢
      dsimp only
      rw [hfloor, hgap]
      exact this
    · have := h.account
      unfold forwardedAbove inQueue at this ⊢
      dsimp only
      rw [hfloor]
      exact this
    · intro k hk
      obtain ⟨m, hm, hmk, hplace⟩ := h.recent k hk
      dsimp only
      rw [hfloor]
      exact ⟨m, hm, hmk, hplace⟩
  · exact ⟨hfill.trans h.fills, ht, fun hc => absurd hc hst⟩

theorem Sound.bootDone (h : s.Sound c addresses) : s.bootDone.Sound c addresses := by
  unfold Pipeline.bootDone
  split
  · next hstage ht =>
    exact h.restage { s.source with settler := .new s.source.blockSettle _ } rfl rfl rfl .draining
      (fun hc => Stage.noConfusion hc) (fun _ => ht) s.released
  · exact h

theorem Sound.takeReady (h : s.Sound c addresses) (now : Nat) : (s.takeReady now).Sound c addresses := by
  unfold Pipeline.takeReady
  split
  · next hstage ht =>
    refine h.restage { s.source with settler := (s.source.settler.takeReady now).1 } rfl rfl rfl _ (fun hc => ?_)
      (fun _ => ht) s.released
    cases hr : (s.source.settler.takeReady now).2 with
    | none =>
      rw [hr] at hc
      exact Stage.noConfusion hc
    | some r =>
      rw [hr] at hc
      exact Stage.noConfusion hc
  · exact h

theorem Sound.handOn (h : s.Sound c addresses) : s.handOn.Sound c addresses := by
  unfold Pipeline.handOn
  split
  · next r hstage =>
    refine h.restage s.source rfl rfl rfl .draining (fun hc => Stage.noConfusion hc) (fun _ => h.taken ?_) _
    rw [hstage]
    rfl
  · exact h

/-- What a drain keeps is what the account counts. -/
theorem filter_keeps (h : s.OnWire c addresses) :
    s.queue.queue.filter s.source.keeps = s.queue.queue.filter fun l => s.source.fillFloor ≤ l.place := by
  refine List.filter_congr fun l hl => ?_
  unfold WebsocketBlockSource.keeps
  rw [(h.mined (h.queued l (List.mem_append_left _ hl)).1).position]
  rfl

theorem Sound.intake (h : s.Sound c addresses) (now : Nat) : (s.intake now).Sound c addresses := by
  unfold Pipeline.intake
  split
  · next hstage =>
    rw [filter_keeps h.toOnWire]
    constructor
    · exact { h.toOnWire with queued := fun l hl => h.queued l (List.mem_append_right _ hl) }
    · constructor
      · exact h.split
      · refine Eq.trans ?_ h.account
        unfold inQueue
        change (_ + (↑(s.handed ++ _) : Multiset Log) +
          (↑(s.sending.toList.filter fun l => decide (s.source.fillFloor ≤ l.place)) : Multiset Log)) = _
        rw [List.filter_append]
        simp only [← Multiset.coe_add]
        abel
      · intro k hk
        obtain ⟨m, hm, hmk, hplace⟩ := h.recent k hk
        refine ⟨m, hm, hmk, fun hf => ?_⟩
        rcases hplace hf with hm | hm | hm
        · exact .inl hm
        · exact .inr (.inl (List.mem_append_left _ hm))
        · exact .inr (.inl (List.mem_append_right _ (List.mem_filter.2 ⟨hm, decide_eq_true hf⟩)))
    · refine ⟨h.fills, fun _ => h.taken ?_, fun hc => Stage.noConfusion hc⟩
      rw [hstage]
      rfl
  · exact h

/-! ## What a gap fetch brought is not priced -/

/-- The settler files each log under its block, and what it was handed is what it and the released
batches hold; a log fetched for it is in a block that is applied only. -/
structure Unpriced (s : Pipeline) : Prop where
  filed : ∀ b, ∀ l ∈ s.source.settler.logsOf b, l.block = b ∧ l ∈ s.handed
  settled : ∀ r, s.stage = .settled r → ∀ l ∈ r.logs, l.block = r.block ∧ l ∈ s.handed
  released : ∀ e ∈ s.released, ∀ l ∈ e.1.logs, l ∈ s.handed
  late : ∀ l ∈ s.fetched, l ∈ s.handed → l.block ≤ s.source.applyOnlyThrough
  unpriced : ∀ e ∈ s.released, ∀ l ∈ e.1.logs, l ∈ s.fetched → e.2 = .ApplyOnly

/-- Logs added to the settler are filed under their blocks. -/
theorem filed_add {st : BlockSettler} {handed ls : List Log} {now : Nat} (hm : ∀ l ∈ ls, l.Mined)
    (h : ∀ b, ∀ l ∈ st.logsOf b, l.block = b ∧ l ∈ handed) (b : Nat) {l : Log} (hl : l ∈ (st.add ls now).logsOf b) :
    l.block = b ∧ l ∈ handed ++ ls := by
  rw [BlockSettler.logsOf_add] at hl
  rcases List.mem_append.1 hl with hl | hl
  · exact (h b l hl).imp_right (List.mem_append_left _)
  · obtain ⟨hl, hb⟩ := List.mem_filter.1 hl
    have hl := (List.mem_filter.1 hl).1
    rw [(hm l hl).blockNumber] at hb
    exact ⟨of_decide_eq_true hb, List.mem_append_right _ hl⟩

theorem Unpriced.bootGap (h : s.Unpriced) (hs : s.Sound c addresses) : (s.bootGap c addresses).Unpriced := by
  have hn := hs.bootGap.nodup
  revert hn
  unfold Pipeline.bootGap
  split
  · next drained events filled g rest hstage ht =>
    split
    · intro hn
      have hnot : ∀ l ∈ (s.source.fetchGap c addresses g s.queue).2, l ∉ s.handed := by
        intro l hl hh
        have hn := (List.nodup_append.1 (List.nodup_append.1 (List.nodup_append.1 hn).1).1).2.2
        exact hn l (List.mem_append_right _ hl) l hh rfl
      refine ⟨h.filed, fun r hr => Stage.noConfusion hr, h.released, fun l hl hh => ?_, fun e he l hl hf => ?_⟩
      · rcases List.mem_append.1 hl with hl | hl
        · exact h.late l hl hh
        · exact absurd hh (hnot l hl)
      · rcases List.mem_append.1 hf with hf | hf
        · exact h.unpriced e he l hl hf
        · exact absurd (h.released e he l hl) (hnot l hf)
    · exact fun _ => ⟨h.filed, fun r hr => Stage.noConfusion hr, h.released, h.late, h.unpriced⟩
  · exact fun _ => h

theorem Unpriced.fill (h : s.Unpriced) (hs : s.Sound c addresses) (now : Nat) :
    (s.fill c addresses now).Unpriced := by
  have hn := (hs.fill now).nodup
  revert hn
  unfold Pipeline.fill
  split
  · next g rest hstage ht =>
    intro hn
    obtain ⟨hmissed, -, -, -⟩ := hs.fetchGap ht
    have hin : ∀ l ∈ (s.source.fetchGap c addresses g s.queue).2, l.Mined ∧ l.block ≤ g.before.block := by
      intro l hl
      rw [hmissed] at hl
      obtain ⟨hrel, hin⟩ := List.mem_filter.1 hl
      exact ⟨Chain.relevant_mined hrel, LogPosition.block_le (of_decide_eq_true hin).1.2.le⟩
    have hnot : ∀ l ∈ (s.source.fetchGap c addresses g s.queue).2, l ∉ s.handed := by
      intro l hl hh
      have hn := (List.nodup_append.1 (List.nodup_append.1 (List.nodup_append.1 hn).1).1).2.1
      exact (List.nodup_append.1 hn).2.2 l hh l hl rfl
    constructor
    · exact fun b l hl => filed_add (fun l hl => (hin l hl).1) h.filed b hl
    · intro r hr
      dsimp only at hr
      rw [hstage] at hr
      exact Stage.noConfusion hr
    · exact fun e he l hl => List.mem_append_left _ (h.released e he l hl)
    · intro l hl hh
      change l.block ≤ max s.source.applyOnlyThrough g.before.block
      rcases List.mem_append.1 hh with hh | hh
      · rcases List.mem_append.1 hl with hl | hl
        · exact (h.late l hl hh).trans (le_max_left ..)
        · exact absurd hh (hnot l hl)
      · exact (hin l hh).2.trans (le_max_right ..)
    · intro e he l hl hf
      rcases List.mem_append.1 hf with hf | hf
      · exact h.unpriced e he l hl hf
      · exact absurd (h.released e he l hl) (hnot l hf)
  · exact fun _ => h

theorem Sound.forwarded_disjoint_fetched (h : s.Sound c addresses) (l : Log) (hl : l ∈ s.forwardedAbove) :
    l ∉ s.fetched := by
  have hn : (s.forwardedAbove ++ s.fetched ++ s.inGaps c addresses).Nodup := by
    rw [← Multiset.coe_nodup]
    simp only [← Multiset.coe_add]
    rw [h.split]
    exact Multiset.coe_nodup.2 (passed_nodup h.toOnWire)
  exact fun hf => (List.nodup_append.1 (List.nodup_append.1 hn).1).2.2 l hl l hf rfl

theorem Unpriced.intake (h : s.Unpriced) (hs : s.Sound c addresses) (now : Nat) : (s.intake now).Unpriced := by
  unfold Pipeline.intake
  split
  · next hstage =>
    have hmined : ∀ l ∈ s.queue.queue.filter s.source.keeps, l.Mined := fun l hl =>
      hs.mined (hs.queued l (List.mem_append_left _ (List.mem_filter.1 hl).1)).1
    refine ⟨fun b l hl => filed_add hmined h.filed b hl, fun r hr => Stage.noConfusion hr,
      fun e he l hl => List.mem_append_left _ (h.released e he l hl), fun l hl hh => ?_, h.unpriced⟩
    rcases List.mem_append.1 hh with hh | hh
    · exact h.late l hl hh
    · -- a forwarded log is not a fetched one
      exfalso
      obtain ⟨hq, hk⟩ := List.mem_filter.1 (by rw [← filter_keeps hs.toOnWire]; exact hh)
      exact hs.forwarded_disjoint_fetched l
        (List.mem_filter.2 ⟨(hs.queued l (List.mem_append_left _ hq)).2, hk⟩) hl
  · exact h

theorem Unpriced.takeReady (h : s.Unpriced) (now : Nat) : (s.takeReady now).Unpriced := by
  unfold Pipeline.takeReady
  split
  · next hstage ht =>
    rcases hr : s.source.settler.takeReady now with ⟨st, _ | r⟩
    · rw [BlockSettler.takeReady_none hr]
      exact ⟨h.filed, fun r hr => Stage.noConfusion hr, h.released, h.late, h.unpriced⟩
    · have hon := BlockSettler.takeReady_some hr
      refine ⟨fun b l hl => ?_, fun r' hr' l hl => ?_, h.released, h.late, h.unpriced⟩
      · dsimp only at hl
        rw [hon.rest] at hl
        split at hl
        · cases hl
        · exact h.filed b l hl
      · have : r = r' := Stage.settled.inj hr'
        subst this
        rw [hon.logs, List.mem_insertionSort] at hl
        exact h.filed r.block l hl
  · exact h

theorem Unpriced.handOn (h : s.Unpriced) : s.handOn.Unpriced := by
  unfold Pipeline.handOn
  split
  · next r hstage =>
    refine ⟨h.filed, fun r hr => Stage.noConfusion hr, fun e he l hl => ?_, h.late, fun e he l hl hf => ?_⟩
    · rcases List.mem_append.1 he with he | he
      · exact h.released e he l hl
      · rw [List.mem_singleton.1 he] at hl
        exact (h.settled r hstage l hl).2
    · rcases List.mem_append.1 he with he | he
      · exact h.unpriced e he l hl hf
      · rw [List.mem_singleton.1 he] at hl ⊢
        obtain ⟨hb, hh⟩ := h.settled r hstage l hl
        exact if_pos (.inr (hb ▸ h.late l hf hh))
  · exact h

theorem Unpriced.bootDone (h : s.Unpriced) : s.bootDone.Unpriced := by
  unfold Pipeline.bootDone
  split
  · refine ⟨fun b l hl => ?_, fun r hr => Stage.noConfusion hr, h.released, h.late, h.unpriced⟩
    dsimp only at hl
    rw [BlockSettler.logsOf_new] at hl
    cases hl
  · exact h

theorem Unpriced.step (h : s.Unpriced) (hs : s.Sound c addresses) (a : Action) : (s.step c addresses a).Unpriced := by
  cases a with
  | bootGap => exact h.bootGap hs
  | bootDone => exact h.bootDone
  | intake now => exact h.intake hs now
  | fill now => exact h.fill hs now
  | takeReady now => exact h.takeReady now
  | handOn => exact h.handOn
  | disconnect => exact { h with }
  | subscribe =>
    unfold Pipeline.step Pipeline.subscribe
    dsimp only
    split
    · exact h
    · exact { h with }
  | miss =>
    unfold Pipeline.step Pipeline.miss
    dsimp only
    split
    · exact { h with }
    · exact h
  | overflow =>
    unfold Pipeline.step Pipeline.overflow
    dsimp only
    split
    · exact { h with }
    · exact h
  | deliver =>
    unfold Pipeline.step Pipeline.deliver
    dsimp only
    split
    · exact { h with }
    · exact h
  | send =>
    unfold Pipeline.step Pipeline.send
    dsimp only
    split
    · exact { h with }
    · exact h
  | bootDrain latest =>
    unfold Pipeline.step Pipeline.bootDrain
    dsimp only
    split
    · exact { h with settled := fun r hr => Stage.noConfusion hr }
    · exact h
  | bootTakeGaps =>
    unfold Pipeline.step Pipeline.bootTakeGaps
    dsimp only
    split
    · exact { h with settled := fun r hr => Stage.noConfusion hr }
    · exact h
  | takeGaps =>
    unfold Pipeline.step Pipeline.takeGaps
    dsimp only
    split
    · exact { h with settled := fun r hr => Stage.noConfusion hr }
    · exact h

/-! ## Runs -/

theorem sound_init (c : Chain) (addresses : List Address) (topics : List Topic) (maxEvents maxBlocks settle : Nat) :
    (init c addresses topics maxEvents maxBlocks settle).Sound c addresses where
  wire := rfl
  last_lt _ hp := by cases hp
  caught hc := by cases hc
  queued l hl := by cases hl
  closed g hg := by cases hg
  split := rfl
  account := rfl
  recent k hk := by cases hk
  fills := rfl
  taken _ := rfl
  created _ := ⟨rfl, rfl, rfl, rfl⟩

theorem Sound.step (h : s.Sound c addresses) (a : Action) : (s.step c addresses a).Sound c addresses := by
  cases a with
  | subscribe => exact h.subscribe
  | disconnect => exact h.disconnect
  | miss => exact h.miss
  | overflow => exact h.overflow
  | deliver => exact h.deliver
  | send => exact h.send
  | bootDrain latest => exact h.bootDrain latest
  | bootTakeGaps => exact h.bootTakeGaps
  | bootGap => exact h.bootGap
  | bootDone => exact h.bootDone
  | intake now => exact h.intake now
  | takeGaps => exact h.takeGaps
  | fill now => exact h.fill now
  | takeReady now => exact h.takeReady now
  | handOn => exact h.handOn

/-- Whatever the feed and the source do, and in whatever order, the account holds. -/
theorem sound_run (h : s.Sound c addresses) (hu : s.Unpriced) (actions : List Action) (k : Nat) :
    (runTo (step c addresses) s actions k).Sound c addresses ∧ (runTo (step c addresses) s actions k).Unpriced :=
  runTo_invariant (P := fun s : Pipeline => s.Sound c addresses ∧ s.Unpriced) ⟨h, hu⟩
    (fun _ a _ h => ⟨h.1.step a, h.2.step h.1 a⟩) k

theorem unpriced_init (c : Chain) (addresses : List Address) (topics : List Topic) (maxEvents maxBlocks settle : Nat) :
    (init c addresses topics maxEvents maxBlocks settle).Unpriced where
  filed b l hl := by
    unfold init WebsocketBlockSource.new at hl
    dsimp only at hl
    rw [BlockSettler.logsOf_new] at hl
    cases hl
  settled r hr := by cases hr
  released e he := by cases he
  late l hl := by cases hl
  unpriced e he := by cases he

/-- One turn of the source, from the top of the loop of `next_batch` to the settler, with the listener's
send in hand done first. -/
def turn (now : Nat) (s : Pipeline) : List Action :=
  [.send, .intake now, .takeGaps] ++ List.replicate s.queue.gaps.length (.fill now)

/-- Filling takes the gaps one by one and touches nothing else that is on its way. -/
theorem foldl_fill (h : s.Sound c addresses) (hstage : s.stage = .filling) (now : Nat) :
    ∀ n, n = s.taken.length →
      let s' := (List.replicate n (Action.fill now)).foldl (step c addresses) s
      s'.Sound c addresses ∧ s'.taken = [] ∧ s'.queue.gaps = s.queue.gaps ∧ s'.queue.queue = s.queue.queue ∧
        s'.sending = s.sending ∧ s'.progress = s.progress ∧ s'.source.fillFloor = s.source.fillFloor ∧
        s'.source.topics = s.source.topics := by
  intro n
  induction n generalizing s with
  | zero => exact fun hn => ⟨h, List.length_eq_zero_iff.1 hn.symm, rfl, rfl, rfl, rfl, rfl, rfl⟩
  | succ n ih =>
    intro hn
    cases ht : s.taken with
    | nil =>
      rw [ht] at hn
      cases hn
    | cons g rest =>
      obtain ⟨-, hqueue, hgaps, -⟩ := h.fetchGap ht
      have hstep : s.step c addresses (.fill now) =
          { s with
            source := (s.source.fillGap c addresses g now s.queue).1
            queue := (s.source.fillGap c addresses g now s.queue).2
            taken := rest
            fetched := s.fetched ++ (s.source.fetchGap c addresses g s.queue).2
            handed := s.handed ++ (s.source.fetchGap c addresses g s.queue).2 } := by
        unfold step fill
        dsimp only
        rw [hstage, ht]
      have hs' := h.step (.fill now)
      rw [List.replicate_succ, List.foldl_cons]
      rw [hstep] at hs' ⊢
      obtain ⟨h1, h2, h3, h4, h5⟩ := ih hs' hstage (by
        rw [ht, List.length_cons] at hn
        exact Nat.succ.inj hn)
      exact ⟨h1, h2, h3.trans hgaps, h4.trans hqueue, h5⟩

/-- After a turn nothing is on its way. -/
theorem Sound.turn (h : s.Sound c addresses) (hstage : s.stage = .draining) (now : Nat) :
    let s' := (s.turn now).foldl (Pipeline.step c addresses) s
    s'.Sound c addresses ∧ s'.inQueue = [] ∧ s'.inGaps c addresses = [] ∧ s'.progress = s.progress ∧
      s'.source.fillFloor = s.source.fillFloor ∧ s'.source.topics = s.source.topics := by
  have hsend : s.send.stage = .draining ∧ s.send.sending = none ∧ s.send.queue.gaps = s.queue.gaps ∧
      s.send.progress = s.progress ∧ s.send.source = s.source := by
    unfold Pipeline.send
    split
    · next l hs =>
      obtain ⟨hb, -⟩ := h.queued l (List.mem_append_right _ (by
        rw [hs]
        exact List.mem_singleton_self l))
      obtain ⟨k, hk⟩ := Option.isSome_iff_exists.1 (h.mined hb).key
      exact ⟨hstage, rfl, (EventQueue.send_effect (q := s.queue) hk).2.1, rfl, rfl⟩
    · next hs => exact ⟨hstage, hs, rfl, rfl, rfl⟩
  obtain ⟨hstage, hsending, hgaps, hprogress, hsource⟩ := hsend
  unfold Pipeline.turn
  rw [List.foldl_append]
  generalize hs3 : [Action.send, .intake now, .takeGaps].foldl (Pipeline.step c addresses) s = s3
  have hthree : s3 = ((s.send).intake now).takeGaps := hs3.symm
  have hfinal := (((h.send).intake now).takeGaps)
  rw [← hthree] at hfinal
  have hintake : s.send.intake now = { s.send with
      source := (s.send.source.intake now s.send.queue).1
      queue := (s.send.source.intake now s.send.queue).2
      stage := .drained
      handed := s.send.handed ++ s.send.queue.queue.filter s.send.source.keeps } := by
    unfold Pipeline.intake
    rw [hstage]
  have hfills := h.send.fills
  have htake : s3 = { s.send.intake now with
      queue := (s.send.intake now).queue.takeGaps.1
      taken := s.queue.gaps
      stage := .filling } := by
    rw [hthree, hintake]
    unfold Pipeline.takeGaps
    dsimp only
    rw [show (s.send.source.intake now s.send.queue).1.fillReconnectGaps = true from hfills, if_pos rfl, ← hgaps]
    rfl
  have hstage3 : s3.stage = .filling := by rw [htake]
  have hlen : s.queue.gaps.length = s3.taken.length := by rw [htake]
  have hempty : s3.queue.queue = [] ∧ s3.queue.gaps = [] ∧ s3.sending = none := by
    rw [htake, hintake]
    exact ⟨rfl, rfl, hsending⟩
  have hsame : s3.progress = s.progress ∧ s3.source.fillFloor = s.source.fillFloor ∧
      s3.source.topics = s.source.topics := by
    rw [htake, hintake, ← hprogress, ← hsource]
    exact ⟨rfl, rfl, rfl⟩
  obtain ⟨h1, h2, h3, h4, h5, h6, h7, h8⟩ := foldl_fill hfinal hstage3 now s.queue.gaps.length hlen
  refine ⟨h1, ?_, ?_, h6.trans hsame.1, h7.trans hsame.2.1, h8.trans hsame.2.2⟩
  · unfold inQueue
    rw [h4, h5, hempty.1, hempty.2.2]
    rfl
  · unfold inGaps
    rw [h2, h3, hempty.2.1]
    rfl

/-- The relevant logs from the floor up to the last one forwarded. -/
def due (c : Chain) (addresses : List Address) (s : Pipeline) : List Log :=
  (c.relevant addresses s.source.topics).filter fun l =>
    s.source.fillFloor ≤ l.place ∧ s.progress.lastForwarded.any (l.place ≤ ·)

theorem passed_eq_due (h : s.OnWire c addresses) : s.passed = s.due c addresses := by
  unfold due
  rw [← h.wire, List.filter_append]
  have hnone : s.ahead.filter (fun l => decide (s.source.fillFloor ≤ l.place ∧
      s.progress.lastForwarded.any (l.place ≤ ·))) = [] := by
    rw [List.filter_eq_nil_iff]
    intro l hl hin
    obtain ⟨p, hp, hle⟩ := (Option.any_eq_true ..).1 (of_decide_eq_true hin).2
    exact absurd (of_decide_eq_true hle) (not_le.2 (h.last_lt p hp l hl))
  rw [hnone, List.append_nil]
  rfl

/-- The account, as lists. -/
theorem Sound.perm (h : s.Sound c addresses) :
    (s.bootstrapped ++ s.handed ++ s.inQueue ++ s.inGaps c addresses).Perm (s.due c addresses) ∧
      (s.forwardedAbove ++ s.fetched ++ s.inGaps c addresses).Perm (s.due c addresses) := by
  rw [← passed_eq_due h.toOnWire, ← Multiset.coe_eq_coe, ← Multiset.coe_eq_coe]
  simp only [← Multiset.coe_add]
  exact ⟨by rw [h.account, h.split], h.split⟩

/-- **Exactly-once delivery across feed gaps.** In every run of one feed against the source, every log
due is with bootstrap, with the settler, in the queue or in one noted gap, and in one of these only; the
forwarded logs, the fetched ones and those of the gaps still open are the logs due, each once. A turn of
the source later, bootstrap and the settler have them all, and the forwarded and the fetched logs are
disjoint and make them up. And no batch that holds a fetched log is priced. -/
theorem delivered_exactly_once (c : Chain) (addresses : List Address) (topics : List Topic)
    (maxEvents maxBlocks settle : Nat) (actions : List Action) (k : Nat) :
    let s := runTo (step c addresses) (init c addresses topics maxEvents maxBlocks settle) actions k
    (s.due c addresses).Nodup ∧
    (s.bootstrapped ++ s.handed ++ s.inQueue ++ s.inGaps c addresses).Perm (s.due c addresses) ∧
    (s.forwardedAbove ++ s.fetched ++ s.inGaps c addresses).Perm (s.due c addresses) ∧
    (s.stage = .draining → ∀ now,
      let s' := (s.turn now).foldl (step c addresses) s
      (s'.bootstrapped ++ s'.handed).Perm (s.due c addresses) ∧
        (s'.forwardedAbove ++ s'.fetched).Perm (s.due c addresses)) ∧
    ∀ e ∈ s.released, ∀ l ∈ e.1.logs, l ∈ s.fetched → e.2 = .ApplyOnly := by
  intro s
  obtain ⟨hs, hu⟩ := sound_run (sound_init c addresses topics maxEvents maxBlocks settle)
    (unpriced_init c addresses topics maxEvents maxBlocks settle) actions k
  refine ⟨(c.relevant_nodup _ _).sublist List.filter_sublist, hs.perm.1, hs.perm.2, fun hstage now => ?_, hu.unpriced⟩
  obtain ⟨hs', hqueue, hgaps, hprogress, hfloor, htopics⟩ := hs.turn hstage now
  have hperm := hs'.perm
  have hdue : ((s.turn now).foldl (step c addresses) s).due c addresses = s.due c addresses := by
    unfold due
    rw [hprogress, hfloor, htopics]
  rw [hqueue, hgaps, hdue, List.append_nil, List.append_nil, List.append_nil] at hperm
  exact hperm

end

end Pipeline

end EvmDexPool
