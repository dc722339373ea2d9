import EvmDexPool.Collector.Session

/-!
# No log twice (websocket mode)

Here any log of the chain arrives at any time, from any listener: besides the feed of the pipeline,
`arrive` sends the queue a log and `noteGap` notes a gap. The cursor's blocks, the catch-up, the buffered
queue, the gap fetches and the live batches all carry the same logs. The floor keeps the catch-up apart
from the rest, and the queue's recent keys keep apart what arrives and what is fetched. Nothing keeps the
queue apart from the blocks the cursor covers, so `Spares` asks for it.
-/

namespace EvmDexPool

open Replay

namespace EventQueue
variable {q : EventQueue}

@[simp] theorem record_queue (l : Log) : (q.record l).1.queue = q.queue := by
  unfold record
  split
  · rfl
  · split
    · rfl
    · split <;> rfl

@[simp] theorem record_gaps (l : Log) : (q.record l).1.gaps = q.gaps := by
  unfold record
  split
  · rfl
  · split
    · rfl
    · split <;> rfl

end EventQueue

namespace Pipeline

/-- A listener sends a log. -/
def arrive (s : Pipeline) (l : Log) : Pipeline := { s with queue := (s.queue.send l).1 }

/-- A listener notes a gap. -/
def noteGap (s : Pipeline) (g : Gap) : Pipeline := { s with queue := s.queue.noteGap g }

section
variable (own : Log → Prop) (s : Pipeline)

/-- The source has had the log, or will from the queue. -/
def Had (l : Log) : Prop := l ∈ s.bootstrapped ∨ l ∈ s.handed ∨ l ∈ s.queue.queue

/-- A log of a pool that the source has had is still among the recent ones. -/
def Recalls (q : EventQueue) (l : Log) : Prop :=
  own l → s.source.fillFloor ≤ l.place → s.Had l → ∃ k ∈ q.recent, l.key? = some k

/-- Each log is recalled when its turn comes to be claimed. -/
def RecallsAll : EventQueue → List Log → Prop
  | _, [] => True
  | q, l :: ls => s.Recalls own q l ∧ RecallsAll (q.claim l).1 ls

/-- The logs of a gap are of blocks past `b`, and recalled. -/
def SparesGap (b : Nat) (c : Chain) (addresses : List Address) (g : Gap) : Prop :=
  (∀ l ∈ s.source.gapLogs c addresses g, own l → b < l.block) ∧
    s.RecallsAll own s.queue (s.source.gapLogs c addresses g)

/-- What a step takes of the pools' logs is of blocks past `b`, and nothing that the source has had and
the queue forgot; and bootstrap does not end before block `b`. -/
def Spares (b : Nat) (c : Chain) (addresses : List Address) : Action → Prop
  | .send => ∀ l, s.sending = some l → s.Recalls own s.queue l
  | .bootDrain _ => s.stage = .created → ∀ l ∈ s.queue.queue, own l → b < l.block
  | .bootGap => ∀ drained events filled g rest, s.stage = .bootFilling drained events filled → s.taken = g :: rest →
      g.before ∈ drained.filterMap Log.position → s.SparesGap own b c addresses g
  | .bootDone => ∀ drained events filled, s.stage = .bootFilling drained events filled → s.taken = [] →
      (∃ l ∈ events, b ≤ l.block) ∨ events = [] ∧ b ≤ s.source.fillFloor.block
  | .intake _ => s.stage = .draining → ∀ l ∈ s.queue.queue, s.source.fillFloor ≤ l.place → own l → b < l.block
  | .fill _ => ∀ g rest, s.stage = .filling → s.taken = g :: rest → s.SparesGap own b c addresses g
  | _ => True

/-- What the source has had is mined, not below the floor, of blocks past `b` as far as it is of the pools,
and of those each log once. -/
structure Single (b : Nat) (c : Chain) : Prop where
  wire : ∀ l, l ∈ s.behind ∨ l ∈ s.ahead ∨ s.sending = some l → l ∈ c.logs
  queued : ∀ l ∈ s.queue.queue, l ∈ c.logs
  gaps : ∀ g, g ∈ s.queue.gaps ∨ g ∈ s.taken → g.before.block < 2 ^ 64
  had : ∀ l, l ∈ s.bootstrapped ∨ l ∈ s.handed → l ∈ c.logs ∧ s.source.fillFloor ≤ l.place ∧ (own l → b < l.block)
  once : ∀ l, own l → s.source.fillFloor ≤ l.place →
    s.bootstrapped.count l + s.handed.count l + s.queue.queue.count l ≤ 1
  filed : ∀ k, ∀ l ∈ s.source.settler.logsOf k, l ∈ c.logs ∧ l.block = k
  settling : s.Settling
  created : s.stage = .created → s.source.fillFloor = .mk 0 0 0 ∧ s.bootstrapped = [] ∧ s.handed = []

end

/-! ## What a gap fetch takes -/

section
variable {own : Log → Prop} {b : Nat} {c : Chain} {addresses : List Address} {s : Pipeline}

theorem claimMissed_eq (src : WebsocketBlockSource) (g : Gap) (q : EventQueue) (taken : List Log) (l : Log) :
    src.claimMissed g (q, taken) l =
      if src.wants g l then ((q.claim l).1, if (q.claim l).2 = .ok true then taken ++ [l] else taken) else (q, taken) := by
  unfold WebsocketBlockSource.claimMissed
  by_cases hw : src.wants g l
  · rw [if_pos hw, if_pos hw]
    dsimp only
    rcases q.claim l with ⟨q', _ | ⟨_ | _⟩⟩ <;> rfl
  · rw [if_neg hw, if_neg hw]

/-- What is claimed is wanted, and not had before. -/
theorem foldl_claimMissed_recalls (src : WebsocketBlockSource) (g : Gap) {ls : List Log} {q : EventQueue} (taken : List Log)
    (h : s.RecallsAll own q (ls.filter (src.wants g))) :
    let out := ls.foldl (src.claimMissed g) (q, taken)
    out.1.queue = q.queue ∧ out.1.gaps = q.gaps ∧ ∃ new, out.2 = taken ++ new ∧ new.Sublist (ls.filter (src.wants g)) ∧
      ∀ l ∈ new, own l → s.source.fillFloor ≤ l.place → ¬s.Had l := by
  induction ls generalizing q taken with
  | nil => exact ⟨rfl, rfl, [], (List.append_nil _).symm, List.Sublist.refl _, by simp⟩
  | cons l ls ih =>
    rw [List.foldl_cons, claimMissed_eq]
    by_cases hw : src.wants g l
    · rw [List.filter_cons_of_pos hw] at h ⊢
      obtain ⟨hl, h⟩ := h
      rw [if_pos hw]
      by_cases hclaim : (q.claim l).2 = .ok true
      · obtain ⟨hq, hg, new, hnew, hsub, hfresh⟩ := ih (taken ++ [l]) h
        rw [if_pos hclaim]
        refine ⟨hq.trans (EventQueue.record_queue l), hg.trans (EventQueue.record_gaps l), l :: new, ?_,
          hsub.cons_cons l, fun x hx ho hf hhad => ?_⟩
        · rw [hnew, List.append_assoc]
          rfl
        · rcases List.mem_cons.1 hx with rfl | hx
          · obtain ⟨k, hk, hkey⟩ := hl ho hf hhad
            rw [EventQueue.claim, EventQueue.record_stale hkey hk] at hclaim
            cases hclaim
          · exact hfresh x hx ho hf hhad
      · obtain ⟨hq, hg, new, hnew, hsub, hfresh⟩ := ih taken h
        rw [if_neg hclaim]
        exact ⟨hq.trans (EventQueue.record_queue l), hg.trans (EventQueue.record_gaps l), new, hnew, hsub.cons l, hfresh⟩
    · rw [List.filter_cons_of_neg hw] at h ⊢
      rw [if_neg hw]
      exact ih taken h

theorem fetchGap_recalls {g : Gap} (hb : g.before.block < 2 ^ 64)
    (h : s.RecallsAll own s.queue (s.source.gapLogs c addresses g)) :
    let out := s.source.fetchGap c addresses g s.queue
    out.1.queue = s.queue.queue ∧ out.1.gaps = s.queue.gaps ∧ out.2.Sublist (s.source.gapLogs c addresses g) ∧
      ∀ l ∈ out.2, own l → s.source.fillFloor ≤ l.place → ¬s.Had l := by
  unfold WebsocketBlockSource.fetchGap
  by_cases hskip : g.before ≤ s.source.fillFloor ∨ g.after.any (g.before ≤ ·)
  · rw [if_pos hskip]
    exact ⟨rfl, rfl, List.nil_sublist _, by simp⟩
  · rw [if_neg hskip]
    dsimp only
    rw [← WebsocketBlockSource.filter_wants_getBatches s.source c addresses hb] at h ⊢
    obtain ⟨hq, hg, new, hnew, hsub, hfresh⟩ := foldl_claimMissed_recalls s.source g [] h
    rw [List.nil_append] at hnew
    rw [hnew]
    exact ⟨hq, hg, hsub, hfresh⟩

theorem recallsAll_none (s : Pipeline) (q : EventQueue) (ls : List Log) : s.RecallsAll (fun _ => False) q ls := by
  induction ls generalizing q with
  | nil => trivial
  | cons l ls ih => exact ⟨fun ho => ho.elim, ih _⟩

theorem fetchGap_mem {g : Gap} (hb : g.before.block < 2 ^ 64) {l : Log}
    (hl : l ∈ (s.source.fetchGap c addresses g s.queue).2) : l ∈ s.source.gapLogs c addresses g := by
  obtain ⟨-, -, hsub, -⟩ := fetchGap_recalls hb (s.recallsAll_none s.queue (s.source.gapLogs c addresses g))
  exact hsub.subset hl

theorem mem_gapLogs {g : Gap} {l : Log} (hl : l ∈ s.source.gapLogs c addresses g) :
    l ∈ c.logs ∧ s.source.fillFloor ≤ l.place := by
  obtain ⟨hrel, hin⟩ := List.mem_filter.1 hl
  exact ⟨(List.mem_filter.1 hrel).1, (of_decide_eq_true hin).2⟩

/-- A gap that forwarding a mined log closes ends at it. -/
theorem forwarding_before {f : FeedProgress} {l : Log} {g : Gap} (hl : l.Mined) (h : (f.forwarding l).2 = some g) :
    g.before.block < 2 ^ 64 := by
  unfold FeedProgress.forwarding at h
  rw [hl.kept, hl.position] at h
  dsimp only at h
  rw [if_neg Bool.false_ne_true] at h
  split at h
  · cases h
    exact Nat.lt_of_succ_lt hl.bounded
  · cases h

/-! ## The steps -/

/-- A step that moves no log to or from the source, or only hands logs on. -/
theorem Single.quiet (h : s.Single own b c) {s' : Pipeline} (hset : s'.Settling) (hboot : s'.bootstrapped = s.bootstrapped)
    (hhanded : s'.handed = s.handed) (hqueue : s'.queue.queue = s.queue.queue)
    (hfloor : s'.source.fillFloor = s.source.fillFloor)
    (hfiled : ∀ k, ∀ l ∈ s'.source.settler.logsOf k, l ∈ s.source.settler.logsOf k)
    (hwire : ∀ l, l ∈ s'.behind ∨ l ∈ s'.ahead ∨ s'.sending = some l → l ∈ s.behind ∨ l ∈ s.ahead ∨ s.sending = some l)
    (hgaps : ∀ g, g ∈ s'.queue.gaps ∨ g ∈ s'.taken → g.before.block < 2 ^ 64)
    (hcreated : s'.stage = .created → s.stage = .created) : s'.Single own b c := by
  refine ⟨fun l hl => h.wire l (hwire l hl), ?_, hgaps, ?_, ?_, fun k l hl => h.filed k l (hfiled k l hl), hset, ?_⟩
  · rw [hqueue]
    exact h.queued
  · rw [hboot, hhanded, hfloor]
    exact h.had
  · rw [hboot, hhanded, hfloor, hqueue]
    exact h.once
  · rw [hboot, hhanded, hfloor]
    exact fun hst => h.created (hcreated hst)

/-- A log arrives. -/
theorem Single.arrive (h : s.Single own b c) {l : Log} (hl : l ∈ c.logs) (hr : s.Recalls own s.queue l) :
    (s.arrive l).Single own b c := by
  obtain ⟨k, hk⟩ := Option.isSome_iff_exists.1 (c.mined l hl).key
  have hset : (s.arrive l).Settling := h.settling.frame rfl rfl rfl rfl rfl
  by_cases hrec : k ∈ s.queue.recent
  · have hsame : s.arrive l = s := by
      unfold Pipeline.arrive EventQueue.send
      rw [EventQueue.record_stale hk hrec]
    rw [hsame]
    exact h
  · obtain ⟨kept, -, hfresh⟩ := EventQueue.record_fresh hk hrec
    have hqueue : (s.arrive l).queue.queue = s.queue.queue ++ [l] := by
      unfold Pipeline.arrive EventQueue.send
      rw [hfresh]
    have hgaps : (s.arrive l).queue.gaps = s.queue.gaps := by
      unfold Pipeline.arrive EventQueue.send
      rw [hfresh]
    refine ⟨h.wire, ?_, ?_, h.had, fun m ho hf => ?_, h.filed, hset, h.created⟩
    · rw [hqueue]
      exact fun m hm => (List.mem_append.1 hm).elim (h.queued m) fun hm => List.mem_singleton.1 hm ▸ hl
    · rw [hgaps]
      exact h.gaps
    · rw [hqueue, List.count_append]
      have honce := h.once m ho hf
      change s.bootstrapped.count m + s.handed.count m + _ ≤ 1
      by_cases hm : m = l
      · -- it has not been had before
        subst hm
        have hnot : ¬s.Had m := fun hhad => by
          obtain ⟨k', hk', hkey⟩ := hr ho hf hhad
          rw [hk] at hkey
          cases hkey
          exact hrec hk'
        unfold Had at hnot
        rw [not_or, not_or] at hnot
        obtain ⟨h1, h2, h3⟩ := hnot
        rw [List.count_eq_zero_of_not_mem h1, List.count_eq_zero_of_not_mem h2, List.count_eq_zero_of_not_mem h3,
          List.count_singleton_self]
      · have hnone : List.count m [l] = 0 := List.count_eq_zero_of_not_mem fun he => hm (List.mem_singleton.1 he)
        omega

/-- Logs are taken out of the queue, or fetched: each of the pools' logs is still there once. -/
theorem Single.take (h : s.Single own b c) {s' : Pipeline} (boots hands : List Log) (hset : s'.Settling)
    (hboot : s'.bootstrapped = s.bootstrapped ++ boots) (hhanded : s'.handed = s.handed ++ hands)
    (hraised : ∀ l, l ∈ s.bootstrapped ∨ l ∈ s.handed → s'.source.fillFloor ≤ l.place)
    (hmem : ∀ l, l ∈ boots ∨ l ∈ hands → l ∈ c.logs ∧ s'.source.fillFloor ≤ l.place ∧ (own l → b < l.block))
    (honce : ∀ l, own l → s'.source.fillFloor ≤ l.place →
      s.bootstrapped.count l + s.handed.count l + (boots.count l + hands.count l + s'.queue.queue.count l) ≤ 1)
    (hqueued : ∀ l ∈ s'.queue.queue, l ∈ c.logs)
    (hfiled : ∀ k, ∀ l ∈ s'.source.settler.logsOf k, l ∈ c.logs ∧ l.block = k)
    (hwire : ∀ l, l ∈ s'.behind ∨ l ∈ s'.ahead ∨ s'.sending = some l → l ∈ s.behind ∨ l ∈ s.ahead ∨ s.sending = some l)
    (hgaps : ∀ g, g ∈ s'.queue.gaps ∨ g ∈ s'.taken → g.before.block < 2 ^ 64)
    (hcreated : s'.stage ≠ .created) : s'.Single own b c := by
  refine ⟨fun l hl => h.wire l (hwire l hl), hqueued, hgaps, fun l hl => ?_, fun l ho hf => ?_, hfiled, hset,
    fun hst => absurd hst hcreated⟩
  · rw [hboot, hhanded, List.mem_append, List.mem_append] at hl
    rcases hl with (hl | hl) | (hl | hl)
    · exact ⟨(h.had l (.inl hl)).1, hraised l (.inl hl), (h.had l (.inl hl)).2.2⟩
    · exact hmem l (.inl hl)
    · exact ⟨(h.had l (.inr hl)).1, hraised l (.inr hl), (h.had l (.inr hl)).2.2⟩
    · exact hmem l (.inr hl)
  · have hcount := honce l ho hf
    rw [hboot, hhanded, List.count_append, List.count_append]
    omega

theorem Single.fetched (h : s.Single own b c) {g : Gap} (hb : g.before.block < 2 ^ 64)
    (hsp : s.SparesGap own b c addresses g) :
    let out := s.source.fetchGap c addresses g s.queue
    out.1.queue = s.queue.queue ∧ out.1.gaps = s.queue.gaps ∧
      (∀ l ∈ out.2, l ∈ c.logs ∧ s.source.fillFloor ≤ l.place ∧ (own l → b < l.block)) ∧
      ∀ l, own l → s.source.fillFloor ≤ l.place →
        s.bootstrapped.count l + s.handed.count l + (out.2.count l + s.queue.queue.count l) ≤ 1 := by
  obtain ⟨hq, hg, hsub, hfresh⟩ := fetchGap_recalls hb hsp.2
  refine ⟨hq, hg, fun l hl => ?_, fun l ho hf => ?_⟩
  · obtain ⟨hmem, hf⟩ := mem_gapLogs (hsub.subset hl)
    exact ⟨hmem, hf, hsp.1 l (hsub.subset hl)⟩
  · have honce := h.once l ho hf
    by_cases hl : l ∈ (s.source.fetchGap c addresses g s.queue).2
    · have hnot := hfresh l hl ho hf
      unfold Had at hnot
      rw [not_or, not_or] at hnot
      obtain ⟨h1, h2, h3⟩ := hnot
      have hnodup : (s.source.gapLogs c addresses g).Nodup := (c.relevant_nodup ..).sublist List.filter_sublist
      have hone := List.nodup_iff_count_le_one.1 (hnodup.sublist hsub) l
      rw [List.count_eq_zero_of_not_mem h1, List.count_eq_zero_of_not_mem h2, List.count_eq_zero_of_not_mem h3]
      omega
    · rw [List.count_eq_zero_of_not_mem hl]
      omega

/-- Logs that go to the settler are filed under their blocks. -/
theorem filed_add_mined {st : BlockSettler} {ls : List Log} {now : Nat} (hm : ∀ l ∈ ls, l ∈ c.logs)
    (h : ∀ k, ∀ l ∈ st.logsOf k, l ∈ c.logs ∧ l.block = k) (k : Nat) {l : Log} (hl : l ∈ (st.add ls now).logsOf k) :
    l ∈ c.logs ∧ l.block = k := by
  rw [BlockSettler.logsOf_add] at hl
  rcases List.mem_append.1 hl with hl | hl
  · exact h k l hl
  · obtain ⟨hl, hblock⟩ := List.mem_filter.1 hl
    have hin := hm l (List.mem_filter.1 hl).1
    have hblock := of_decide_eq_true hblock
    rw [(c.mined l hin).blockNumber] at hblock
    exact ⟨hin, hblock⟩

theorem Single.bootDrain (h : s.Single own b c) (latest : Nat) (hsp : s.Spares own b c addresses (.bootDrain latest))
    (hset : (s.bootDrain latest).Settling) : (s.bootDrain latest).Single own b c := by
  revert hset
  unfold Pipeline.bootDrain
  split
  · next hstage =>
    intro hset
    obtain ⟨hfloor, hboot, hhanded⟩ := h.created hstage
    refine h.take s.queue.queue [] hset ?_ (List.append_nil _).symm (fun l hl => ?_) (fun l hl => ?_)
      (fun l ho hf => ?_) (fun _ hl => (List.not_mem_nil hl).elim) h.filed (fun l hl => hl) h.gaps nofun
    · rw [hboot]
      rfl
    · rw [hboot, hhanded] at hl
      rcases hl with hl | hl <;> cases hl
    · rcases hl with hl | hl
      · have hm := h.queued l hl
        exact ⟨hm, WebsocketBlockSource.firstQueuedPosition_le hl (c.mined l hm).position, hsp hstage l hl⟩
      · cases hl
    · have honce := h.once l ho (hfloor ▸ LogPosition.start_le (Nat.zero_le _))
      change s.bootstrapped.count l + s.handed.count l + (s.queue.queue.count l + 0 + 0) ≤ 1
      omega
  · exact fun _ => h

theorem Single.bootGap (h : s.Single own b c) (hsp : s.Spares own b c addresses .bootGap)
    (hset : (s.bootGap c addresses).Settling) : (s.bootGap c addresses).Single own b c := by
  revert hset
  unfold Pipeline.bootGap
  split
  · next drained events filled g rest hstage ht =>
    have hgap : g.before.block < 2 ^ 64 := h.gaps g (.inr (ht ▸ List.mem_cons_self))
    have hrest : ∀ x, x ∈ s.queue.gaps ∨ x ∈ rest → x.before.block < 2 ^ 64 := fun x hx =>
      h.gaps x (hx.imp_right fun hx => ht ▸ List.mem_cons_of_mem _ hx)
    split
    · next hclosed =>
      intro hset
      obtain ⟨hq, hg, hmem, honce⟩ := h.fetched hgap (hsp _ _ _ _ _ hstage ht hclosed)
      refine h.take (s.source.fetchGap c addresses g s.queue).2 [] hset rfl (List.append_nil _).symm
        (fun l hl => (h.had l hl).2.1) (fun l hl => hl.elim (hmem l) nofun) (fun l ho hf => ?_) ?_ h.filed (fun l hl => hl)
        ?_ nofun
      · dsimp only
        rw [hq]
        exact honce l ho hf
      · dsimp only
        rw [hq]
        exact h.queued
      · dsimp only
        rw [hg]
        exact hrest
    · intro hset
      refine h.quiet hset rfl rfl rfl rfl (fun k l hl => hl) (fun l hl => hl) (fun x hx => ?_) nofun
      rcases hx with hx | hx
      · rcases List.mem_append.1 hx with hx | hx
        · exact hrest x (.inl hx)
        · exact List.mem_singleton.1 hx ▸ hgap
      · exact hrest x (.inr hx)
  · exact fun _ => h

theorem Single.intake (h : s.Single own b c) (now : Nat) (hsp : s.Spares own b c addresses (.intake now))
    (hset : (s.intake now).Settling) : (s.intake now).Single own b c := by
  revert hset
  unfold Pipeline.intake
  split
  · next hstage =>
    intro hset
    have hkeeps : ∀ l ∈ s.queue.queue, s.source.keeps l = true ↔ s.source.fillFloor ≤ l.place := fun l hl => by
      unfold WebsocketBlockSource.keeps
      rw [(c.mined l (h.queued l hl)).position]
      simp
    refine h.take [] (s.queue.queue.filter s.source.keeps) hset (List.append_nil _).symm rfl
      (fun l hl => (h.had l hl).2.1) (fun l hl => ?_) (fun l ho hf => ?_) (fun _ hl => (List.not_mem_nil hl).elim)
      (fun k l hl => ?_) (fun l hl => hl) h.gaps nofun
    · rcases hl with hl | hl
      · cases hl
      · obtain ⟨hl, hk⟩ := List.mem_filter.1 hl
        have hf := (hkeeps l hl).1 hk
        exact ⟨h.queued l hl, hf, hsp hstage l hl hf⟩
    · have honce := h.once l ho hf
      have hle : (s.queue.queue.filter s.source.keeps).count l ≤ s.queue.queue.count l :=
        List.filter_sublist.count_le l
      change s.bootstrapped.count l + s.handed.count l + (0 + (s.queue.queue.filter s.source.keeps).count l + 0) ≤ 1
      omega
    · exact filed_add_mined (fun l hl => h.queued l (List.mem_filter.1 hl).1) h.filed k hl
  · exact fun _ => h

theorem Single.fill (h : s.Single own b c) (now : Nat) (hsp : s.Spares own b c addresses (.fill now))
    (hset : (s.fill c addresses now).Settling) : (s.fill c addresses now).Single own b c := by
  revert hset
  unfold Pipeline.fill
  split
  · next g rest hstage ht =>
    intro hset
    have hgap : g.before.block < 2 ^ 64 := h.gaps g (.inr (ht ▸ List.mem_cons_self))
    obtain ⟨hq, hg, hmem, honce⟩ := h.fetched hgap (hsp _ _ hstage ht)
    refine h.take [] (s.source.fetchGap c addresses g s.queue).2 hset (List.append_nil _).symm rfl
      (fun l hl => (h.had l hl).2.1) (fun l hl => hl.elim nofun (hmem l)) (fun l ho hf => ?_) ?_ (fun k l hl => ?_)
      (fun l hl => hl) ?_ (fun hst => ?_)
    · have hone := honce l ho hf
      unfold WebsocketBlockSource.fillGap
      dsimp only
      rw [hq, List.count_nil]
      omega
    · unfold WebsocketBlockSource.fillGap
      dsimp only
      rw [hq]
      exact h.queued
    · exact filed_add_mined (fun l hl => (hmem l hl).1) h.filed k hl
    · unfold WebsocketBlockSource.fillGap
      dsimp only
      rw [hg]
      exact fun x hx => h.gaps x (hx.imp_right fun hx => ht ▸ List.mem_cons_of_mem _ hx)
    · dsimp only at hst
      rw [hstage] at hst
      cases hst
  · exact fun _ => h

theorem Single.settles (h : s.Single own b c) (a : Action) : (s.step c addresses a).Settling := by
  refine h.settling.step_mined (fun l hl => c.mined l (h.queued l hl)) (fun g rest ht l hl => ?_)
    (fun k l hl => (h.filed k l hl).2) a
  exact c.mined l (mem_gapLogs (fetchGap_mem (h.gaps g (.inr (ht ▸ List.mem_cons_self))) hl)).1

theorem Single.noteGap (h : s.Single own b c) {g : Gap} (hg : g.before.block < 2 ^ 64) : (s.noteGap g).Single own b c := by
  refine h.quiet (h.settling.frame rfl rfl rfl rfl rfl) rfl rfl rfl rfl (fun k l hl => hl) (fun l hl => hl)
    (fun x hx => ?_) id
  rcases hx with hx | hx
  · rcases List.mem_append.1 hx with hx | hx
    · exact h.gaps x (.inl hx)
    · exact List.mem_singleton.1 hx ▸ hg
  · exact h.gaps x (.inr hx)

theorem Single.send (h : s.Single own b c) (hsp : s.Spares own b c addresses .send) (hset : s.send.Settling) :
    s.send.Single own b c := by
  revert hset
  unfold Pipeline.send
  split
  · next l hl =>
    intro hset
    have harrive := h.arrive (h.wire l (.inr (.inr hl))) (hsp l hl)
    exact harrive.quiet hset rfl rfl rfl rfl (fun k l hl => hl)
      (fun m hm => hm.imp_right fun hm => hm.imp_right fun hm => nomatch hm) harrive.gaps id
  · exact fun _ => h

/-- The feed's own steps. -/
theorem Single.feed (h : s.Single own b c) {s' : Pipeline} (hset : s'.Settling) (hboot : s'.bootstrapped = s.bootstrapped)
    (hhanded : s'.handed = s.handed) (hsource : s'.source = s.source) (hqueue : s'.queue.queue = s.queue.queue)
    (hstage : s'.stage = s.stage)
    (hwire : ∀ l, l ∈ s'.behind ∨ l ∈ s'.ahead ∨ s'.sending = some l → l ∈ s.behind ∨ l ∈ s.ahead ∨ s.sending = some l)
    (hgaps : ∀ g, g ∈ s'.queue.gaps ∨ g ∈ s'.taken → g.before.block < 2 ^ 64) : s'.Single own b c :=
  h.quiet hset hboot hhanded hqueue (hsource ▸ rfl) (fun _ _ hl => hsource ▸ hl) hwire hgaps fun hst => hstage ▸ hst

/-- **A step that spares keeps each of the pools' logs to one.** -/
theorem Single.step (h : s.Single own b c) (a : Action) (hsp : s.Spares own b c addresses a) :
    (s.step c addresses a).Single own b c := by
  have hset : (s.step c addresses a).Settling := h.settles a
  revert hset
  unfold Pipeline.step
  cases a with
  | subscribe =>
    unfold Pipeline.subscribe
    dsimp only
    split
    · exact fun _ => h
    · exact fun hset => h.feed hset rfl rfl rfl rfl rfl (fun l hl => hl) h.gaps
  | disconnect => exact fun hset => h.feed hset rfl rfl rfl rfl rfl (fun l hl => hl) h.gaps
  | miss =>
    unfold Pipeline.miss
    dsimp only
    split
    · next l rest _ hl =>
      refine fun hset => h.feed hset rfl rfl rfl rfl rfl (fun m hm => ?_) h.gaps
      rw [hl]
      simp only [List.mem_append, List.mem_cons] at hm ⊢
      tauto
    · exact fun _ => h
  | overflow =>
    unfold Pipeline.overflow
    dsimp only
    split
    · next l rest _ hl =>
      refine fun hset => h.feed hset rfl rfl rfl rfl rfl (fun m hm => ?_) h.gaps
      rw [hl]
      simp only [List.mem_append, List.mem_cons] at hm ⊢
      tauto
    · exact fun _ => h
  | deliver =>
    unfold Pipeline.deliver
    dsimp only
    split
    · next l rest _ _ hl =>
      have hmined := c.mined l (h.wire l (.inr (.inl (hl ▸ List.mem_cons_self))))
      refine fun hset => h.feed hset rfl rfl rfl ?_ rfl (fun m hm => ?_) (fun g hg => ?_)
      · cases (s.progress.forwarding l).2 <;> rfl
      · rw [hl]
        simp only [List.mem_append, List.mem_cons, Option.some.injEq] at hm ⊢
        tauto
      · rcases hg with hg | hg
        · cases hgap : (s.progress.forwarding l).2 with
          | none =>
            rw [hgap] at hg
            exact h.gaps g (.inl hg)
          | some g' =>
            rw [hgap] at hg
            rcases List.mem_append.1 hg with hg | hg
            · exact h.gaps g (.inl hg)
            · exact List.mem_singleton.1 hg ▸ forwarding_before hmined hgap
        · exact h.gaps g (.inr hg)
    · exact fun _ => h
  | send => exact h.send hsp
  | bootDrain latest => exact h.bootDrain latest hsp
  | bootTakeGaps =>
    unfold Pipeline.bootTakeGaps
    dsimp only
    split
    · refine fun hset => h.quiet hset rfl rfl rfl rfl (fun k l hl => hl) (fun l hl => hl) (fun g hg => ?_) nofun
      rcases hg with hg | hg
      · cases hg
      · split at hg
        · exact h.gaps g (.inl hg)
        · cases hg
    · exact fun _ => h
  | bootGap => exact h.bootGap hsp
  | bootDone =>
    unfold Pipeline.bootDone
    dsimp only
    split
    · refine fun hset => h.quiet hset rfl rfl rfl rfl (fun k l hl => ?_) (fun l hl => hl) h.gaps nofun
      rw [BlockSettler.logsOf_new] at hl
      cases hl
    · exact fun _ => h
  | intake now => exact h.intake now hsp
  | takeGaps =>
    unfold Pipeline.takeGaps
    dsimp only
    split
    · refine fun hset => h.quiet hset rfl rfl rfl rfl (fun k l hl => hl) (fun l hl => hl) (fun g hg => ?_) nofun
      rcases hg with hg | hg
      · cases hg
      · split at hg
        · exact h.gaps g (.inl hg)
        · cases hg
    · exact fun _ => h
  | fill now => exact h.fill now hsp
  | takeReady now =>
    unfold Pipeline.takeReady
    dsimp only
    split
    · refine fun hset => h.quiet hset rfl rfl rfl rfl (fun k l hl => ?_) (fun l hl => hl) h.gaps (fun hst => ?_)
      · rcases hr : s.source.settler.takeReady now with ⟨st, _ | r⟩
        · rw [hr, BlockSettler.takeReady_none hr] at hl
          exact hl
        · rw [hr] at hl
          dsimp only at hl
          rw [(BlockSettler.takeReady_some hr).rest] at hl
          split at hl
          · cases hl
          · exact hl
      · dsimp only at hst
        cases hr : (s.source.settler.takeReady now).2 with
        | none =>
          rw [hr] at hst
          cases hst
        | some r =>
          rw [hr] at hst
          cases hst
    · exact fun _ => h
  | handOn =>
    unfold Pipeline.handOn
    dsimp only
    split
    · exact fun hset => h.quiet hset rfl rfl rfl rfl (fun k l hl => hl) (fun l hl => hl) h.gaps nofun
    · exact fun _ => h

theorem single_init (own : Log → Prop) (b : Nat) (c : Chain) (addresses : List Address) (topics : List Topic)
    (maxEvents maxBlocks settle : Nat) (fill : Bool) {wire : List Log} (hwire : ∀ l ∈ wire, l ∈ c.logs) :
    Single own
      { init c addresses topics maxEvents maxBlocks settle with
        ahead := wire
        source := .new topics maxBlocks settle fill } b c := by
  refine ⟨fun l hl => ?_, fun _ hl => (List.not_mem_nil hl).elim, fun g hg => ?_, fun l hl => ?_, fun l _ _ => Nat.zero_le _, fun k l hl => ?_, ?_,
    fun _ => ⟨rfl, rfl, rfl⟩⟩
  · rcases hl with hl | hl | hl
    · cases hl
    · exact hwire l hl
    · cases hl
  · rcases hg with hg | hg <;> cases hg
  · rcases hl with hl | hl <;> cases hl
  · change l ∈ (BlockSettler.new settle 0).logsOf k at hl
    rw [BlockSettler.logsOf_new] at hl
    cases hl
  · refine ⟨fun l => ?_, fun _ => ⟨rfl, rfl⟩, nofun, nofun, nofun⟩
    change 0 = 0 + 0 + ((BlockSettler.new settle 0).logsOf l.block).count l
    rw [BlockSettler.logsOf_new]
    rfl

end

end Pipeline

end EvmDexPool
