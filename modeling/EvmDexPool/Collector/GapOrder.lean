import EvmDexPool.Collector.GapDelivery

/-!
# Gap logs go on in block order

A gap is noted before the log that closes it is sent, so no log of a later block can leave the settler
before the gap's logs are in it. Between the drain and `take_gaps` the listener keeps running, though: a
gap it notes then is filled in this turn, while a log it forwarded before that gap may only be drained
in the next. With no such log at `take_gaps` (`Timely`), blocks leave the settler in order.
-/

namespace EvmDexPool

open Replay

namespace Pipeline

section
variable (c : Chain) (addresses : List Address) (s : Pipeline)

/-- The logs of the gaps noted since gaps were last taken. -/
def inNoted : List Log := s.queue.gaps.flatMap (s.source.gapLogs c addresses)

/-- The logs of the gaps taken and not filled yet. -/
def inTaken : List Log := s.taken.flatMap (s.source.gapLogs c addresses)

/-- The log is not released, nor in the block being handed on. -/
def Rest (l : Log) : Prop := s.Held l ∨ l ∈ s.inQueue ∨ l ∈ s.inTaken c addresses ∨ l ∈ s.inNoted c addresses ∨ l ∈ s.ahead

/-- The log is after the last one forwarded. -/
def Fresh (l : Log) : Prop := ∀ p, s.progress.lastForwarded = some p → p < l.place

/-- When gaps are taken no log in the queue is of an earlier block than a log of one of them. -/
def Timely : Action → Prop
  | .takeGaps => s.stage = .drained → ∀ x ∈ s.inNoted c addresses, ∀ w ∈ s.inQueue, x.block ≤ w.block
  | _ => True

end

/-- Blocks leave in order: what is held is not after what is to come, except that gaps noted between the
drain and `take_gaps` are still to be taken. -/
structure Ordered (c : Chain) (addresses : List Address) (s : Pipeline) : Prop where
  sorted : (s.queue.queue ++ s.sending.toList).Pairwise fun a b => a.place < b.place
  sending : ∀ l, s.sending = some l → s.progress.lastForwarded = some l.place
  boots : s.stage.boots = true → (∀ l, ¬ s.Held l) ∧ s.released = []
  queue : ∀ x, s.Held x → ∀ w ∈ s.inQueue, x.block ≤ w.block
  noted : s.stage ≠ .drained → ∀ x, s.Held x → ∀ w ∈ s.inNoted c addresses, x.block ≤ w.block
  taken : s.stage = .filling → ∀ x ∈ s.inTaken c addresses, ∀ w, w ∈ s.inQueue ∨ w ∈ s.inNoted c addresses →
    x.block ≤ w.block
  settled : ∀ r, s.stage = .settled r → ∀ y ∈ r.logs, ∀ x, s.Rest c addresses x → y.block ≤ x.block
  released : ∀ e ∈ s.released, ∀ y ∈ e.1.logs, ∀ x,
    s.Rest c addresses x ∨ (∃ r, s.stage = .settled r ∧ x ∈ r.logs) → y.block ≤ x.block
  inOrder : s.released.Pairwise fun e e' => ∀ y ∈ e.1.logs, ∀ x ∈ e'.1.logs, y.block ≤ x.block

section
variable {c : Chain} {addresses : List Address} {s : Pipeline}

/-! ## What has passed is before what is fresh -/

theorem inGaps_eq : s.inGaps c addresses = s.inTaken c addresses ++ s.inNoted c addresses := List.flatMap_append ..

theorem mem_passed_of_handed (h : s.Sound c addresses) {l : Log} (hl : l ∈ s.handed) : l ∈ s.passed :=
  h.mem_passed (List.mem_append_left _ (List.mem_append_left _ (List.mem_append_right _ hl)))

/-- What has passed is of no later block than what is fresh. -/
theorem block_le_of_fresh {y x : Log} (hy : y ∈ s.passed) (hx : s.Fresh x) : y.block ≤ x.block := by
  obtain ⟨p, hp, hle⟩ := (Option.any_eq_true ..).1 (of_decide_eq_true (List.mem_filter.1 hy).2).2
  exact LogPosition.block_le (p := y.place) (q := x.place) ((of_decide_eq_true hle).trans (hx p hp).le)

theorem Unpriced.held (h : s.Unpriced) {l : Log} (hl : s.Held l) : l ∈ s.handed :=
  hl.elim fun b hb => (h.filed b l hb).2

/-! ## The feed's steps -/

/-- A step of the feed or the listener: what it adds is fresh. -/
structure FeedStep (c : Chain) (addresses : List Address) (s s' : Pipeline) : Prop where
  source : s'.source = s.source
  stage : s'.stage = s.stage
  taken : s'.taken = s.taken
  released : s'.released = s.released
  queue : ∀ w ∈ s'.inQueue, w ∈ s.inQueue ∨ s.Fresh w
  noted : ∀ w ∈ s'.inNoted c addresses, w ∈ s.inNoted c addresses ∨ s.Fresh w
  ahead : ∀ w ∈ s'.ahead, w ∈ s.ahead
  sorted : (s'.queue.queue ++ s'.sending.toList).Pairwise fun a b => a.place < b.place
  sending : ∀ l, s'.sending = some l → s'.progress.lastForwarded = some l.place

theorem FeedStep.rest {s' : Pipeline} (f : FeedStep c addresses s s') {x : Log} (hx : s'.Rest c addresses x) :
    s.Rest c addresses x ∨ s.Fresh x := by
  rcases hx with hx | hx | hx | hx | hx
  · unfold Held at hx
    rw [f.source] at hx
    exact .inl (.inl hx)
  · exact (f.queue x hx).imp_left fun h => .inr (.inl h)
  · unfold inTaken at hx
    rw [f.source, f.taken] at hx
    exact .inl (.inr (.inr (.inl hx)))
  · exact (f.noted x hx).imp_left fun h => .inr (.inr (.inr (.inl h)))
  · exact .inl (.inr (.inr (.inr (.inr (f.ahead x hx)))))

theorem Ordered.feed (h : s.Ordered c addresses) (hs : s.Sound c addresses) (hu : s.Unpriced) {s' : Pipeline}
    (f : FeedStep c addresses s s') : s'.Ordered c addresses := by
  have hheld : ∀ x, s'.Held x → s.Held x := by
    intro x hx
    unfold Held at hx
    rwa [f.source] at hx
  have htaken : ∀ x ∈ s'.inTaken c addresses, x ∈ s.inTaken c addresses := by
    intro x hx
    unfold inTaken at hx
    rwa [f.source, f.taken] at hx
  have hpassed : ∀ x, s.Held x → x ∈ s.passed := fun x hx => mem_passed_of_handed hs (hu.held hx)
  refine ⟨f.sorted, f.sending, fun hb => ?_, fun x hx w hw => ?_, fun hd x hx w hw => ?_, fun hf x hx w hw => ?_,
    fun r hr y hy x hx => ?_, fun e he y hy x hx => ?_, ?_⟩
  · rw [f.stage] at hb
    rw [f.released]
    exact ⟨fun l hl => (h.boots hb).1 l (hheld l hl), (h.boots hb).2⟩
  · rcases f.queue w hw with hw | hw
    · exact h.queue x (hheld x hx) w hw
    · exact block_le_of_fresh (hpassed x (hheld x hx)) hw
  · rw [f.stage] at hd
    rcases f.noted w hw with hw | hw
    · exact h.noted hd x (hheld x hx) w hw
    · exact block_le_of_fresh (hpassed x (hheld x hx)) hw
  · rw [f.stage] at hf
    have hx := htaken x hx
    have hxp : x ∈ s.passed := hs.mem_passed (List.mem_append_right _ (by
      rw [inGaps_eq]
      exact List.mem_append_left _ hx))
    rcases hw with hw | hw
    · rcases f.queue w hw with hw | hw
      · exact h.taken hf x hx w (.inl hw)
      · exact block_le_of_fresh hxp hw
    · rcases f.noted w hw with hw | hw
      · exact h.taken hf x hx w (.inr hw)
      · exact block_le_of_fresh hxp hw
  · rw [f.stage] at hr
    rcases f.rest hx with hx | hx
    · exact h.settled r hr y hy x hx
    · exact block_le_of_fresh (mem_passed_of_handed hs (hu.settled r hr y hy).2) hx
  · rw [f.released] at he
    rw [f.stage] at hx
    rcases hx with hx | hx
    · rcases f.rest hx with hx | hx
      · exact h.released e he y hy x (.inl hx)
      · exact block_le_of_fresh (mem_passed_of_handed hs (hu.released e he y hy)) hx
    · exact h.released e he y hy x (.inr hx)
  · rw [f.released]
    exact h.inOrder

theorem FeedStep.refl (h : s.Ordered c addresses) : FeedStep c addresses s s :=
  ⟨rfl, rfl, rfl, rfl, fun _ hw => .inl hw, fun _ hw => .inl hw, fun _ hw => hw, h.sorted, h.sending⟩

theorem feedStep_lose (h : s.Ordered c addresses) {l : Log} {rest : List Log} (ha : s.ahead = l :: rest)
    {progress : FeedProgress} (hp : progress.lastForwarded = s.progress.lastForwarded) :
    FeedStep c addresses s { s with behind := s.behind ++ [l], ahead := rest, progress := progress } := by
  refine ⟨rfl, rfl, rfl, rfl, fun _ hw => .inl hw, fun _ hw => .inl hw, fun w hw => ?_, h.sorted, fun l hl => ?_⟩
  · rw [ha]
    exact List.mem_cons_of_mem _ hw
  · exact hp.trans (h.sending l hl)

theorem feedStep_deliver (h : s.Ordered c addresses) (hs : s.Sound c addresses) :
    FeedStep c addresses s s.deliver := by
  unfold Pipeline.deliver
  split
  · next l rest hc hsend ha =>
    have hmem : l ∈ s.ahead := by
      rw [ha]
      exact List.mem_cons_self
    have hl : l.Mined := hs.mined_ahead hmem
    have hfresh : s.Fresh l := fun p hp => hs.last_lt p hp l hmem
    rw [FeedProgress.forwarding_mined hl hfresh]
    have hqueue : ((s.closing l).elim s.queue s.queue.noteGap).queue = s.queue.queue := by
      cases s.closing l <;> rfl
    have hgaps : ((s.closing l).elim s.queue s.queue.noteGap).gaps = s.queue.gaps ++ (s.closing l).toList := by
      cases s.closing l
      · exact (List.append_nil _).symm
      · rfl
    have hold : s.queue.queue ++ s.sending.toList = s.queue.queue := by
      rw [hsend]
      exact List.append_nil _
    change FeedStep c addresses s { s with
      behind := s.behind ++ [l]
      ahead := rest
      progress := { s.progress with gapOpen := false, lastForwarded := some l.place }
      queue := (s.closing l).elim s.queue s.queue.noteGap
      sending := some l
      forwarded := s.forwarded ++ [l] }
    refine ⟨rfl, rfl, rfl, rfl, fun w hw => ?_, fun w hw => ?_, fun w hw => ?_, ?_, fun m hm => ?_⟩
    · obtain ⟨hw, hf⟩ := List.mem_filter.1 hw
      dsimp only at hw
      rw [hqueue] at hw
      rcases List.mem_append.1 hw with hw | hw
      · exact .inl (List.mem_filter.2 ⟨List.mem_append_left _ hw, hf⟩)
      · rw [Option.mem_toList.1 hw |> Option.some.inj |> Eq.symm]
        exact .inr hfresh
    · obtain ⟨g, hg, hw⟩ := List.mem_flatMap.1 hw
      dsimp only at hg
      rw [hgaps] at hg
      rcases List.mem_append.1 hg with hg | hg
      · exact .inl (List.mem_flatMap.2 ⟨g, hg, hw⟩)
      · unfold closing at hg
        split at hg
        · rw [List.mem_singleton.1 hg] at hw
          exact .inr fun p hp => (of_decide_eq_true (List.mem_filter.1 hw).2).1.1 p hp
        · cases hg
    · rw [ha]
      exact List.mem_cons_of_mem _ hw
    · dsimp only
      rw [hqueue]
      have hsorted := h.sorted
      rw [hold] at hsorted
      refine List.pairwise_append.2 ⟨hsorted, List.pairwise_singleton .., fun m hm m' hm' => ?_⟩
      rw [Option.mem_toList.1 hm' |> Option.some.inj |> Eq.symm]
      exact (hs.next ha).1 m (hs.queued m (List.mem_append_left _ hm)).1
    · cases hm
      rfl
  · exact .refl h

theorem feedStep_send (h : s.Ordered c addresses) (hs : s.Sound c addresses) : FeedStep c addresses s s.send := by
  unfold Pipeline.send
  split
  · next l hsend =>
    obtain ⟨hb, -⟩ := hs.queued l (List.mem_append_right _ (by
      rw [hsend]
      exact List.mem_singleton_self l))
    obtain ⟨k, hk⟩ := Option.isSome_iff_exists.1 (hs.mined hb).key
    obtain ⟨hq, hg, -⟩ := EventQueue.send_effect (q := s.queue) hk
    have hsub : ((s.queue.send l).1.queue ++ (none : Option Log).toList).Sublist
        (s.queue.queue ++ s.sending.toList) := by
      rw [hsend, Option.toList_none, List.append_nil]
      rcases hq with hq | ⟨hq, -⟩
      · rw [hq]
        exact List.Sublist.refl _
      · rw [hq]
        exact List.sublist_append_left ..
    refine ⟨rfl, rfl, rfl, rfl, fun w hw => ?_, fun w hw => ?_, fun w hw => hw, h.sorted.sublist hsub,
      fun m hm => ?_⟩
    · obtain ⟨hw, hf⟩ := List.mem_filter.1 hw
      exact .inl (List.mem_filter.2 ⟨hsub.subset hw, hf⟩)
    · unfold inNoted at hw
      dsimp only at hw
      rw [hg] at hw
      exact .inl hw
    · cases hm
  · exact .refl h

/-! ## Bootstrap -/

/-- Nothing held and nothing released, before the first turn of the loop. -/
theorem ordered_of_empty (hsorted : (s.queue.queue ++ s.sending.toList).Pairwise fun a b => a.place < b.place)
    (hsending : ∀ l, s.sending = some l → s.progress.lastForwarded = some l.place) (hheld : ∀ l, ¬ s.Held l)
    (hrel : s.released = []) (hf : s.stage ≠ .filling) (hst : ∀ r, s.stage ≠ .settled r) :
    s.Ordered c addresses where
  sorted := hsorted
  sending := hsending
  boots _ := ⟨hheld, hrel⟩
  queue x hx := absurd hx (hheld x)
  noted _ x hx := absurd hx (hheld x)
  taken h := absurd h hf
  settled r hr := absurd hr (hst r)
  released e he := by
    rw [hrel] at he
    cases he
  inOrder := by
    rw [hrel]
    exact .nil

theorem Ordered.bootDrain (h : s.Ordered c addresses) (latest : Nat) : (s.bootDrain latest).Ordered c addresses := by
  unfold Pipeline.bootDrain
  split
  · next hstage =>
    obtain ⟨hheld, hrel⟩ := h.boots (by rw [hstage]; rfl)
    exact ordered_of_empty (h.sorted.sublist (List.sublist_append_right ..)) h.sending hheld hrel
      (fun hc => Stage.noConfusion hc) (fun r hc => Stage.noConfusion hc)
  · exact h

theorem Ordered.bootTakeGaps (h : s.Ordered c addresses) : s.bootTakeGaps.Ordered c addresses := by
  unfold Pipeline.bootTakeGaps
  split
  · next drained hstage =>
    obtain ⟨hheld, hrel⟩ := h.boots (by rw [hstage]; rfl)
    exact ordered_of_empty h.sorted h.sending hheld hrel (fun hc => Stage.noConfusion hc)
      (fun r hc => Stage.noConfusion hc)
  · exact h

theorem Ordered.bootGap (h : s.Ordered c addresses) (hs : s.Sound c addresses) :
    (s.bootGap c addresses).Ordered c addresses := by
  unfold Pipeline.bootGap
  split
  · next drained events filled g rest hstage ht =>
    obtain ⟨hheld, hrel⟩ := h.boots (by rw [hstage]; rfl)
    split
    · refine ordered_of_empty ?_ h.sending hheld hrel (fun hc => Stage.noConfusion hc)
        (fun r hc => Stage.noConfusion hc)
      dsimp only
      rw [(hs.fetchGap ht).2.1]
      exact h.sorted
    · exact ordered_of_empty h.sorted h.sending hheld hrel (fun hc => Stage.noConfusion hc)
        (fun r hc => Stage.noConfusion hc)
  · exact h

theorem Ordered.bootDone (h : s.Ordered c addresses) : s.bootDone.Ordered c addresses := by
  unfold Pipeline.bootDone
  split
  · next hstage ht =>
    obtain ⟨-, hrel⟩ := h.boots (by rw [hstage]; rfl)
    refine ordered_of_empty h.sorted h.sending (fun l hl => ?_) hrel (fun hc => Stage.noConfusion hc)
      (fun r hc => Stage.noConfusion hc)
    obtain ⟨b, hl⟩ := hl
    dsimp only at hl
    rw [BlockSettler.logsOf_new] at hl
    cases hl
  · exact h

/-! ## The loop -/

/-- What the settler holds after an addition. -/
theorem held_add {st : BlockSettler} {ls : List Log} {now b : Nat} {x : Log} (hx : x ∈ (st.add ls now).logsOf b) :
    x ∈ st.logsOf b ∨ x ∈ ls := by
  rw [BlockSettler.logsOf_add] at hx
  rcases List.mem_append.1 hx with hx | hx
  · exact .inl hx
  · exact .inr (List.mem_filter.1 (List.mem_filter.1 hx).1).1

theorem Ordered.intake (h : s.Ordered c addresses) (hs : s.Sound c addresses) (now : Nat) :
    (s.intake now).Ordered c addresses := by
  unfold Pipeline.intake
  split
  · next hstage =>
    rw [filter_keeps hs.toOnWire]
    generalize hs' : ({ s with source := _, queue := _, stage := Stage.drained, handed := _ } : Pipeline) = s'
    have hq : ∀ w ∈ s'.inQueue, w ∈ s.inQueue ∧ w ∈ s.sending.toList := by
      intro w hw
      rw [← hs'] at hw
      obtain ⟨hw, hf⟩ := List.mem_filter.1 hw
      exact ⟨List.mem_filter.2 ⟨List.mem_append_right _ hw, hf⟩, hw⟩
    have hheld : ∀ x, s'.Held x → s.Held x ∨ x ∈ s.queue.queue ∧ x ∈ s.inQueue := by
      rintro x ⟨b, hx⟩
      rw [← hs'] at hx
      rcases held_add hx with hx | hx
      · exact .inl ⟨b, hx⟩
      · rw [filter_keeps hs.toOnWire] at hx
        obtain ⟨hx, hf⟩ := List.mem_filter.1 hx
        exact .inr ⟨hx, List.mem_filter.2 ⟨List.mem_append_left _ hx, hf⟩⟩
    have hrest : ∀ x, s'.Rest c addresses x → s.Rest c addresses x := by
      rintro x (hx | hx | hx)
      · rcases hheld x hx with hx | hx
        · exact .inl hx
        · exact .inr (.inl hx.2)
      · exact .inr (.inl (hq x hx).1)
      · rw [← hs'] at hx
        exact .inr (.inr hx)
    have hst : s'.stage = .drained := by rw [← hs']
    have hrel : s'.released = s.released := by rw [← hs']
    constructor
    · rw [← hs']
      exact h.sorted.sublist (List.sublist_append_right ..)
    · rw [← hs']
      exact h.sending
    · intro hb
      rw [hst] at hb
      cases hb
    · intro x hx w hw
      obtain ⟨hwq, hws⟩ := hq w hw
      rcases hheld x hx with hx | hx
      · exact h.queue x hx w hwq
      · exact LogPosition.block_le ((List.pairwise_append.1 h.sorted).2.2 x hx.1 w hws).le
    · exact fun hd => absurd hst hd
    · intro hf
      rw [hst] at hf
      cases hf
    · intro r hr
      rw [hst] at hr
      cases hr
    · intro e he y hy x hx
      rw [hrel] at he
      rcases hx with hx | ⟨r, hr, -⟩
      · exact h.released e he y hy x (.inl (hrest x hx))
      · rw [hst] at hr
        cases hr
    · rw [hrel]
      exact h.inOrder
  · exact h

theorem Ordered.takeGaps (h : s.Ordered c addresses) (hs : s.Sound c addresses)
    (ht : s.Timely c addresses .takeGaps) : s.takeGaps.Ordered c addresses := by
  unfold Pipeline.takeGaps
  split
  · next hstage =>
    have htaken : s.taken = [] := hs.taken (by rw [hstage]; rfl)
    have hfill : (if s.source.fillReconnectGaps then s.queue.gaps else []) = s.queue.gaps := if_pos hs.fills
    rw [hfill]
    refine ⟨h.sorted, h.sending, fun hb => (Bool.false_ne_true hb).elim, h.queue,
      fun _ x _ w hw => (List.not_mem_nil hw).elim, fun _ x hx w hw => ?_, fun r hr => Stage.noConfusion hr,
      fun e he y hy x hx => ?_, h.inOrder⟩
    · rcases hw with hw | hw
      · exact ht hstage x hx w hw
      · cases hw
    · rcases hx with (hx | hx | hx | hx | hx) | ⟨r, hr, -⟩
      · exact h.released e he y hy x (.inl (.inl hx))
      · exact h.released e he y hy x (.inl (.inr (.inl hx)))
      · exact h.released e he y hy x (.inl (.inr (.inr (.inr (.inl hx)))))
      · cases hx
      · exact h.released e he y hy x (.inl (.inr (.inr (.inr (.inr hx)))))
      · cases hr
  · exact h

theorem Ordered.fill (h : s.Ordered c addresses) (hs : s.Sound c addresses) (now : Nat) :
    (s.fill c addresses now).Ordered c addresses := by
  unfold Pipeline.fill
  split
  · next g rest hstage ht =>
    obtain ⟨hmissed, hqueue, hgaps, -⟩ := hs.fetchGap ht
    generalize hs' : ({ s with source := _, queue := _, taken := rest, fetched := _, handed := _ } : Pipeline) = s'
    have hgin : ∀ x ∈ s.source.gapLogs c addresses g, x ∈ s.inTaken c addresses := by
      intro x hx
      unfold inTaken
      rw [ht]
      exact List.mem_flatMap.2 ⟨g, List.mem_cons_self, hx⟩
    have hq : s'.inQueue = s.inQueue := by
      rw [← hs']
      change (List.filter _ ((s.source.fetchGap c addresses g s.queue).1.queue ++ _)) = _
      rw [hqueue]
      rfl
    have hn : s'.inNoted c addresses = s.inNoted c addresses := by
      rw [← hs']
      change List.flatMap _ (s.source.fetchGap c addresses g s.queue).1.gaps = _
      rw [hgaps]
      rfl
    have htk : ∀ x ∈ s'.inTaken c addresses, x ∈ s.inTaken c addresses := by
      intro x hx
      rw [← hs'] at hx
      obtain ⟨g', hg', hx⟩ := List.mem_flatMap.1 hx
      unfold inTaken
      rw [ht]
      exact List.mem_flatMap.2 ⟨g', List.mem_cons_of_mem _ hg', hx⟩
    have hheld : ∀ x, s'.Held x → s.Held x ∨ x ∈ s.inTaken c addresses := by
      rintro x ⟨b, hx⟩
      rw [← hs'] at hx
      rcases held_add hx with hx | hx
      · exact .inl ⟨b, hx⟩
      · rw [hmissed] at hx
        exact .inr (hgin x hx)
    have hst : s'.stage = .filling := by
      rw [← hs']
      exact hstage
    have hrel : s'.released = s.released := by rw [← hs']
    have hsent : s'.sending = s.sending ∧ s'.progress = s.progress ∧ s'.ahead = s.ahead := by
      rw [← hs']
      exact ⟨rfl, rfl, rfl⟩
    have hqq : s'.queue.queue = s.queue.queue := by
      rw [← hs']
      exact hqueue
    constructor
    · rw [hqq, hsent.1]
      exact h.sorted
    · rw [hsent.1, hsent.2.1]
      exact h.sending
    · intro hb
      rw [hst] at hb
      cases hb
    · intro x hx w hw
      rw [hq] at hw
      rcases hheld x hx with hx | hx
      · exact h.queue x hx w hw
      · exact h.taken hstage x hx w (.inl hw)
    · intro _ x hx w hw
      rw [hn] at hw
      rcases hheld x hx with hx | hx
      · exact h.noted (fun hc => by rw [hstage] at hc; cases hc) x hx w hw
      · exact h.taken hstage x hx w (.inr hw)
    · intro _ x hx w hw
      rw [hq, hn] at hw
      exact h.taken hstage x (htk x hx) w hw
    · intro r hr
      rw [hst] at hr
      cases hr
    · intro e he y hy x hx
      rw [hrel] at he
      refine h.released e he y hy x (.inl ?_)
      rcases hx with (hx | hx | hx | hx | hx) | ⟨r, hr, -⟩
      · rcases hheld x hx with hx | hx
        · exact .inl hx
        · exact .inr (.inr (.inl hx))
      · rw [hq] at hx
        exact .inr (.inl hx)
      · exact .inr (.inr (.inl (htk x hx)))
      · rw [hn] at hx
        exact .inr (.inr (.inr (.inl hx)))
      · rw [hsent.2.2] at hx
        exact .inr (.inr (.inr (.inr hx)))
      · rw [hst] at hr
        cases hr
    · rw [hrel]
      exact h.inOrder
  · exact h

theorem Ordered.takeReady (h : s.Ordered c addresses) (hs : s.Sound c addresses) (hu : s.Unpriced) (now : Nat) :
    (s.takeReady now).Ordered c addresses := by
  unfold Pipeline.takeReady
  split
  · next hstage ht =>
    have hnd : s.stage ≠ .drained := fun hc => by
      rw [hstage] at hc
      cases hc
    have htaken : ∀ x, x ∉ s.inTaken c addresses := by
      intro x hx
      unfold inTaken at hx
      rw [ht] at hx
      cases hx
    rcases hr : s.source.settler.takeReady now with ⟨st, _ | r⟩
    · rw [BlockSettler.takeReady_none hr]
      refine ⟨h.sorted, h.sending, fun hb => (Bool.false_ne_true hb).elim, h.queue, fun _ => h.noted hnd,
        fun hf => Stage.noConfusion hf, fun r hr => Stage.noConfusion hr, fun e he y hy x hx => ?_, h.inOrder⟩
      rcases hx with hx | ⟨r, hr, -⟩
      · exact h.released e he y hy x (.inl hx)
      · cases hr
    · have hon := BlockSettler.takeReady_some hr
      have hsub : ∀ x, (∃ b, x ∈ st.logsOf b) → s.Held x := by
        rintro x ⟨b, hx⟩
        rw [hon.rest] at hx
        split at hx
        · cases hx
        · exact ⟨b, hx⟩
      have hlogs : ∀ y ∈ r.logs, s.Held y ∧ y.block = r.block := by
        intro y hy
        rw [hon.logs, List.mem_insertionSort] at hy
        exact ⟨⟨r.block, hy⟩, (hu.filed r.block y hy).1⟩
      refine ⟨h.sorted, h.sending, fun hb => (Bool.false_ne_true hb).elim, fun x hx => h.queue x (hsub x hx),
        fun _ x hx => h.noted hnd x (hsub x hx), fun hf => Stage.noConfusion hf, fun r' hr' y hy x hx => ?_,
        fun e he y hy x hx => ?_, h.inOrder⟩
      · have hreq : r = r' := Stage.settled.inj hr'
        subst hreq
        obtain ⟨hy, hyb⟩ := hlogs y hy
        rcases hx with hx | hx | hx | hx | hx
        · obtain ⟨b, hb⟩ := hsub x hx
          rw [hyb, (hu.filed b x hb).1]
          exact hon.oldest b (List.ne_nil_of_mem hb)
        · exact h.queue y hy x hx
        · exact absurd hx (htaken x)
        · exact h.noted hnd y hy x hx
        · refine block_le_of_fresh (mem_passed_of_handed hs (hu.held hy)) fun p hp => hs.last_lt p hp x hx
      · refine h.released e he y hy x (.inl ?_)
        rcases hx with (hx | hx) | ⟨r', hr', hx⟩
        · exact .inl (hsub x hx)
        · exact .inr hx
        · have hreq : r = r' := Stage.settled.inj hr'
          subst hreq
          exact .inl (hlogs x hx).1
  · exact h

theorem Ordered.handOn (h : s.Ordered c addresses) : s.handOn.Ordered c addresses := by
  unfold Pipeline.handOn
  split
  · next r hstage =>
    have hnd : s.stage ≠ .drained := fun hc => by
      rw [hstage] at hc
      cases hc
    refine ⟨h.sorted, h.sending, fun hb => (Bool.false_ne_true hb).elim, h.queue, fun _ => h.noted hnd,
      fun hf => Stage.noConfusion hf, fun r hr => Stage.noConfusion hr, fun e he y hy x hx => ?_, ?_⟩
    · rcases hx with hx | ⟨r, hr, -⟩
      · rcases List.mem_append.1 he with he | he
        · exact h.released e he y hy x (.inl hx)
        · rw [List.mem_singleton.1 he] at hy
          exact h.settled r hstage y hy x hx
      · cases hr
    · refine List.pairwise_append.2 ⟨h.inOrder, List.pairwise_singleton .., fun e he e' he' y hy x hx => ?_⟩
      rw [List.mem_singleton.1 he'] at hx
      exact h.released e he y hy x (.inr ⟨r, hstage, hx⟩)
  · exact h

/-! ## Runs -/

theorem Ordered.step (h : s.Ordered c addresses) (hs : s.Sound c addresses) (hu : s.Unpriced) {a : Action}
    (ht : s.Timely c addresses a) : (s.step c addresses a).Ordered c addresses := by
  cases a with
  | subscribe =>
    refine h.feed hs hu ?_
    unfold Pipeline.step Pipeline.subscribe
    dsimp only
    split
    · exact .refl h
    · exact ⟨rfl, rfl, rfl, rfl, fun _ hw => .inl hw, fun _ hw => .inl hw, fun _ hw => hw, h.sorted, h.sending⟩
  | disconnect =>
    exact h.feed hs hu
      ⟨rfl, rfl, rfl, rfl, fun _ hw => .inl hw, fun _ hw => .inl hw, fun _ hw => hw, h.sorted, h.sending⟩
  | miss =>
    refine h.feed hs hu ?_
    unfold Pipeline.step Pipeline.miss
    dsimp only
    split
    · next ha => exact feedStep_lose h ha rfl
    · exact .refl h
  | overflow =>
    refine h.feed hs hu ?_
    unfold Pipeline.step Pipeline.overflow
    dsimp only
    split
    · next ha => exact feedStep_lose h ha rfl
    · exact .refl h
  | deliver => exact h.feed hs hu (feedStep_deliver h hs)
  | send => exact h.feed hs hu (feedStep_send h hs)
  | bootDrain latest => exact h.bootDrain latest
  | bootTakeGaps => exact h.bootTakeGaps
  | bootGap => exact h.bootGap hs
  | bootDone => exact h.bootDone
  | intake now => exact h.intake hs now
  | takeGaps => exact h.takeGaps hs ht
  | fill now => exact h.fill hs now
  | takeReady now => exact h.takeReady hs hu now
  | handOn => exact h.handOn

theorem ordered_init (c : Chain) (addresses : List Address) (topics : List Topic) (maxEvents maxBlocks settle : Nat) :
    (init c addresses topics maxEvents maxBlocks settle).Ordered c addresses := by
  refine ordered_of_empty .nil (fun l hl => by cases hl) (fun l hl => ?_) rfl (fun hc => Stage.noConfusion hc)
    (fun r hc => Stage.noConfusion hc)
  obtain ⟨b, hl⟩ := hl
  unfold init WebsocketBlockSource.new at hl
  dsimp only at hl
  rw [BlockSettler.logsOf_new] at hl
  cases hl

/-- No gap log goes on after a forwarded log of a later block, and no forwarded log after a gap log of a
later block. -/
def GapOrder (s : Pipeline) : Prop :=
  s.released.Pairwise fun e e' => ∀ y ∈ e.1.logs, ∀ x ∈ e'.1.logs,
    (x ∈ s.fetched → y ∈ s.forwarded → ¬ x.block < y.block) ∧
      (x ∈ s.forwarded → y ∈ s.fetched → ¬ x.block < y.block)

/-- **Gap logs are applied in block order**, in every run in which no log is left in the queue, when gaps
are taken, that is of an earlier block than a log of one of them. -/
theorem gapOrder_run (c : Chain) (addresses : List Address) (topics : List Topic) (maxEvents maxBlocks settle : Nat)
    (actions : List Action)
    (ht : ∀ k a, actions[k]? = some a →
      (runTo (step c addresses) (init c addresses topics maxEvents maxBlocks settle) actions k).Timely c addresses a)
    (k : Nat) : (runTo (step c addresses) (init c addresses topics maxEvents maxBlocks settle) actions k).GapOrder := by
  have hall := runTo_invariant (P := fun s : Pipeline => s.Sound c addresses ∧ s.Unpriced ∧ s.Ordered c addresses)
      ⟨sound_init c addresses topics maxEvents maxBlocks settle,
        unpriced_init c addresses topics maxEvents maxBlocks settle,
        ordered_init c addresses topics maxEvents maxBlocks settle⟩
      (fun k a ha h => ⟨h.1.step a, h.2.1.step h.1 a, h.2.2.step h.1 h.2.1 (ht k a ha)⟩) k
  exact hall.2.2.inOrder.imp fun h y hy x hx =>
    ⟨fun _ _ => not_lt.2 (h y hy x hx), fun _ _ => not_lt.2 (h y hy x hx)⟩

end

/-! ## A gap taken in the window -/

def fiveSyncs : Chain where
  logs := [100, 101, 102, 103, 105].map (syncAt · 0)
  mined l hl := by
    obtain ⟨b, hb, rfl⟩ := List.mem_map.1 hl
    have : 100 ≤ b ∧ b ≤ 105 := by
      revert b
      decide
    exact syncAt_mined (by omega) (by omega)
  sorted := by decide +kernel
  keys := by decide +kernel

/-- An empty queue at bootstrap, and the first log is released. -/
def opening : List Action :=
  [.bootDrain 99, .bootTakeGaps, .bootDone, .subscribe, .deliver, .send, .intake 0, .takeGaps, .fill 0, .takeReady 100,
    .handOn]

/-- Blocks 102 and 103 are lost after 101 was forwarded. -/
def lossAfter101 : List Action := [.deliver, .send, .overflow, .overflow, .deliver]

def closingTurns : List Action := [.fill 101, .takeReady 101, .handOn, .send, .intake 102, .takeGaps, .takeReady 102, .handOn]

/-- In order: 101 is drained with the gap noted, and both go on before 102. -/
theorem gapOrder_run_fiveSyncs :
    (runTo (step fiveSyncs [1]) (init fiveSyncs [1] [.v2Sync] 1000 10 20)
      (opening ++ lossAfter101 ++ [.intake 100, .takeGaps] ++ closingTurns) 26).GapOrder := by
  apply gapOrder_run
  have hall : ∀ k < 26, (opening ++ lossAfter101 ++ [.intake 100, .takeGaps] ++ closingTurns)[k]? = some .takeGaps →
      ∀ x ∈ (runTo (step fiveSyncs [1]) (init fiveSyncs [1] [.v2Sync] 1000 10 20)
          (opening ++ lossAfter101 ++ [.intake 100, .takeGaps] ++ closingTurns) k).inNoted fiveSyncs [1],
        ∀ w ∈ (runTo (step fiveSyncs [1]) (init fiveSyncs [1] [.v2Sync] 1000 10 20)
          (opening ++ lossAfter101 ++ [.intake 100, .takeGaps] ++ closingTurns) k).inQueue, x.block ≤ w.block := by
    decide +kernel
  intro k a ha
  cases a with
  | takeGaps => exact fun _ => hall k (List.getElem?_eq_some_iff.1 ha).1 ha
  | _ => trivial

/-- 101 is sent after the drain, then the loss of 102 and 103 is noted and taken: 102 goes on first, and
101 comes late. -/
theorem gapOrder_run_fails :
    ¬ ∀ (c : Chain) (addresses : List Address) (topics : List Topic) (maxEvents maxBlocks settle : Nat)
      (actions : List Action) (k : Nat),
      (runTo (step c addresses) (init c addresses topics maxEvents maxBlocks settle) actions k).GapOrder := by
  intro h
  have horder := h fiveSyncs [1] [.v2Sync] 1000 10 20
    (opening ++ [.intake 100] ++ lossAfter101 ++ [.takeGaps] ++ closingTurns) 26
  revert horder
  unfold GapOrder
  decide +kernel

end Pipeline

end EvmDexPool
