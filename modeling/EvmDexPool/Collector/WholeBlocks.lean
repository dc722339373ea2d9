import Mathlib.Data.Finset.Card
import Mathlib.Data.List.Chain
import EvmDexPool.Collector.BlockSettler

/-!
# Blocks settle whole (`BlockSettler`, `collector/block_source.rs`)

A feed brings the logs of one block, each less than `settle` after the one before, and then those of the
next; the settler is looked at any number of times in between. Every block goes out once, whole and in
its turn (`blocks_settle_whole`).
-/

namespace EvmDexPool

open Std

/-- Logs that arrive together, or a look for a settled block. -/
inductive FeedEvent
  | arrive (logs : List Log)
  | poll
deriving DecidableEq, Repr

/-- What is kept of a feed, each log with the time it came: a retraction is not. -/
def arrivals (feed : List (Nat × FeedEvent)) : List (Nat × Log) :=
  feed.flatMap fun event =>
    match event.2 with
    | .arrive logs => (logs.filter fun l => !l.removed).map fun l => (event.1, l)
    | .poll => []

/-- How often the settler was looked at. -/
def polls (feed : List (Nat × FeedEvent)) : Nat := feed.countP fun event => event.2 = .poll

/-- What came of one block. -/
def ofBlock (arrived : List (Nat × Log)) (b : Nat) : List (Nat × Log) := arrived.filter fun e => e.2.block = b

/-- Logs of blocks after `r`, block by block, with less than `settle` between two of one block. -/
structure OrderedLogs (settle r : Nat) (arrived : List (Nat × Log)) : Prop where
  mined : ∀ e ∈ arrived, ∃ b, r < b ∧ e.2.blockNumber = some b
  blocks : arrived.Pairwise fun d e => d.2.block ≤ e.2.block
  gaps : arrived.IsChain fun d e => d.2.block = e.2.block → e.1 < d.1 + settle

/-- An ordered feed, the times of one clock. -/
structure OrderedFeed (settle r : Nat) (feed : List (Nat × FeedEvent)) : Prop where
  clock : feed.Pairwise fun d e => d.1 ≤ e.1
  logs : OrderedLogs settle r (arrivals feed)

/-- A settler beside what it has handed on. -/
structure FeedRun where
  settler : BlockSettler
  released : List Settled

namespace FeedRun
variable (s : FeedRun)

def new (settle r : Nat) : FeedRun := ⟨.new settle r, []⟩

def step (event : Nat × FeedEvent) : FeedRun :=
  match event.2 with
  | .arrive logs => { s with settler := s.settler.add logs event.1 }
  | .poll =>
    match s.settler.takeReady event.1 with
    | (settler, none) => { s with settler }
    | (settler, some x) => ⟨settler, s.released ++ [x]⟩

def run (feed : List (Nat × FeedEvent)) : FeedRun := feed.foldl FeedRun.step s

/-- The blocks handed on. -/
def done : List Nat := s.released.map Settled.block

/-- The blocks up to `b` that have come and have not been handed on. -/
def waiting (arrived : List (Nat × Log)) (b : Nat) : Finset Nat :=
  (arrived.map fun e => e.2.block).toFinset.filter fun c => c ≤ b ∧ c ∉ s.done

end FeedRun

/-! ## A look at the settler -/

namespace BlockSettler
variable {s s' : BlockSettler}

theorem size_of_two {b c : Nat} {v w : List Log × Nat} (hb : s.pending[b]? = some v) (hc : s.pending[c]? = some w)
    (hne : b ≠ c) : 2 ≤ s.pending.size := by
  rw [← ExtTreeMap.length_toList]
  have hb := ExtTreeMap.mem_toList_iff_getElem?_eq_some.2 hb
  have hc := ExtTreeMap.mem_toList_iff_getElem?_eq_some.2 hc
  match s.pending.toList, hb, hc with
  | [_], hb, hc =>
    have heq := (List.mem_singleton.1 hb).trans (List.mem_singleton.1 hc).symm
    exact absurd (congrArg Prod.fst heq) hne
  | _ :: _ :: _, _, _ => simp

theorem other_of_size {b : Nat} (h : 2 ≤ s.pending.size) : ∃ c v, c ≠ b ∧ s.pending[c]? = some v := by
  have hsorted := Ranges.range_sorted s.pending fun _ => true
  unfold Ranges.range at hsorted
  rw [List.filter_true] at hsorted
  rw [← ExtTreeMap.length_toList] at h
  have hmem : ∀ e ∈ s.pending.toList, s.pending[e.1]? = some e.2 := fun e he =>
    ExtTreeMap.mem_toList_iff_getElem?_eq_some.1 he
  match htl : s.pending.toList, h with
  | d :: e :: _, _ =>
    rw [htl] at hsorted hmem
    have hlt : d.1 < e.1 := (List.pairwise_cons.1 hsorted).1 e List.mem_cons_self
    by_cases hd : d.1 = b
    · exact ⟨e.1, e.2, by omega, hmem e (by simp)⟩
    · exact ⟨d.1, d.2, hd, hmem d (by simp)⟩

/-- A block that goes out has been quiet for `settle`, unless another is held. -/
theorem takeReady_ready {now : Nat} {x : Settled} (h : s.takeReady now = (s', some x)) :
    s'.pending = s.pending.erase x.block ∧ s'.settle = s.settle ∧
      ∃ logs last, s.pending[x.block]? = some (logs, last) ∧ (s.pending.size ≤ 1 → s.settle ≤ now - last) := by
  unfold takeReady at h
  split at h
  · cases h
  · next block e lastArrival hhead =>
    have hheld : s.pending[block]? = some (e, lastArrival) := by
      have hrange : (Ranges.range s.pending fun _ => true).head? = some (block, e, lastArrival) := by
        unfold Ranges.range
        rwa [List.filter_true]
      exact (Ranges.range_head hrange).1
    split at h
    · cases h
    · next hnot =>
      split at h
      · cases h
      · cases h
        refine ⟨rfl, rfl, e, lastArrival, hheld, fun hsize => ?_⟩
        by_contra hlt
        exact hnot ⟨hsize, by omega⟩

/-- While two blocks are held, a look takes one. -/
theorem takeReady_due {b c : Nat} {v w : List Log × Nat} (hb : s.pending[b]? = some v) (hc : s.pending[c]? = some w)
    (hne : b ≠ c) (now : Nat) : ∃ s' x, s.takeReady now = (s', some x) := by
  have hsize := size_of_two hb hc hne
  unfold takeReady
  split
  · next hnil =>
    rw [← ExtTreeMap.length_toList, List.head?_eq_none_iff.1 hnil] at hsize
    simp at hsize
  · next block e lastArrival hhead =>
    have hhead' : (Ranges.range s.pending fun _ => true).head? = some (block, e, lastArrival) := by
      unfold Ranges.range
      rwa [List.filter_true]
    rw [if_neg (by omega), (Ranges.range_head hhead').1]
    exact ⟨_, _, rfl⟩

end BlockSettler

/-! ## One event -/

theorem ofBlock_append (arrived more : List (Nat × Log)) (b : Nat) :
    ofBlock (arrived ++ more) b = ofBlock arrived b ++ ofBlock more b := List.filter_append ..

/-- What a block's entry is, of what came of it. -/
def heldOf (arrived : List (Nat × Log)) (b : Nat) : Option (List Log × Nat) :=
  (ofBlock arrived b).getLast?.map fun e => ((ofBlock arrived b).map Prod.snd, e.1)

theorem heldOf_append (arrived : List (Nat × Log)) (now : Nat) (l : Log) (b : Nat) :
    heldOf (arrived ++ [(now, l)]) b =
      if l.block = b then some ((ofBlock arrived b).map Prod.snd ++ [l], now) else heldOf arrived b := by
  unfold heldOf
  rw [ofBlock_append]
  by_cases hb : l.block = b <;> simp [ofBlock, hb]

theorem heldOf_isSome {arrived : List (Nat × Log)} {e : Nat × Log} (he : e ∈ arrived) :
    ∃ v, heldOf arrived e.2.block = some v := by
  have hmem : e ∈ ofBlock arrived e.2.block := List.mem_filter.2 ⟨he, decide_eq_true rfl⟩
  rw [← Option.isSome_iff_exists, heldOf, Option.isSome_map, List.getLast?_isSome]
  exact List.ne_nil_of_mem hmem

theorem heldOf_some {arrived : List (Nat × Log)} {b last : Nat} {logs : List Log}
    (h : heldOf arrived b = some (logs, last)) :
    logs = (ofBlock arrived b).map Prod.snd ∧
      ∃ e ∈ arrived, e.2.block = b ∧ e.1 = last ∧ (ofBlock arrived b).getLast? = some e := by
  obtain ⟨e, he, heq⟩ := Option.map_eq_some_iff.1 h
  obtain ⟨hlogs, hlast⟩ := Prod.mk.inj heq
  have hmem := List.mem_filter.1 (List.mem_of_getLast? he)
  exact ⟨hlogs.symm, e, hmem.1, of_decide_eq_true hmem.2, hlast, he⟩

/-- What a settler holds and has handed on, after what `arrived` until `now`. -/
structure Whole (settle r : Nat) (arrived : List (Nat × Log)) (now : Nat) (s : FeedRun) : Prop where
  kept : s.settler.settle = settle
  held : ∀ b, s.settler.pending[b]? = if b ∈ s.done then none else heldOf arrived b
  complete : ∀ x ∈ s.released, x.late = false ∧ (∃ e ∈ arrived, e.2.block = x.block) ∧
    x.logs = ((ofBlock arrived x.block).map Prod.snd).insertionSort fun a b => a.placeInBlock ≤ b.placeInBlock
  ascending : s.done.Pairwise (· < ·)
  ahead : ∀ b ∈ s.done, ∀ e ∈ arrived, e.2.block ∉ s.done → b < e.2.block
  through : s.settler.releasedThrough = r ∨ s.settler.releasedThrough ∈ s.done
  past : ∀ e ∈ arrived, e.1 ≤ now
  quiet : ∀ e ∈ arrived.getLast?, e.2.block ∈ s.done → e.1 + settle ≤ now

section Event
variable {settle r now : Nat} {arrived more : List (Nat × Log)} {s : FeedRun}

theorem OrderedLogs.of_append (h : OrderedLogs settle r (arrived ++ more)) : OrderedLogs settle r arrived :=
  ⟨fun e he => h.mined e (List.mem_append_left _ he), (List.pairwise_append.1 h.blocks).1,
    (List.isChain_append.1 h.gaps).1⟩

theorem OrderedLogs.above (h : OrderedLogs settle r arrived) {e : Nat × Log} (he : e ∈ arrived) : r < e.2.block := by
  obtain ⟨b, hb, hmined⟩ := h.mined e he
  unfold Log.block
  rw [hmined]
  exact hb

/-- None has come of a block after the one of the latest log. -/
theorem OrderedLogs.le_last (h : OrderedLogs settle r arrived) {e x : Nat × Log} (hx : arrived.getLast? = some x)
    (he : e ∈ arrived) : e.2.block ≤ x.2.block := by
  obtain ⟨front, rfl⟩ := List.getLast?_eq_some_iff.1 hx
  rcases List.mem_append.1 he with he | he
  · exact (List.pairwise_append.1 h.blocks).2.2 e he x (List.mem_singleton_self x)
  · rw [List.mem_singleton.1 he]

theorem Whole.done_arrived (h : Whole settle r arrived now s) {b : Nat} (hb : b ∈ s.done) :
    ∃ e ∈ arrived, e.2.block = b := by
  obtain ⟨x, hx, rfl⟩ := List.mem_map.1 hb
  exact (h.complete x hx).2.1

/-- A log that comes is of a block not handed on. -/
theorem Whole.not_done (h : Whole settle r arrived now s) {t : Nat} {l : Log}
    (hlogs : OrderedLogs settle r (arrived ++ [(t, l)])) (ht : now ≤ t) : l.block ∉ s.done := by
  intro hdone
  obtain ⟨e, he, heq⟩ := h.done_arrived hdone
  have hne : arrived ≠ [] := List.ne_nil_of_mem he
  obtain ⟨x, hx⟩ := Option.isSome_iff_exists.1 (List.getLast?_isSome.2 hne)
  have hxmem := List.mem_of_getLast? hx
  have hle : x.2.block ≤ l.block :=
    (List.pairwise_append.1 hlogs.blocks).2.2 x hxmem (t, l) (List.mem_singleton_self _)
  have hge := hlogs.of_append.le_last hx he
  have hsame : x.2.block = l.block := by omega
  have hgap := (List.isChain_append.1 hlogs.gaps).2.2 x hx (t, l) rfl hsame
  have hquiet := h.quiet x hx (hsame ▸ hdone)
  dsimp only at hgap
  omega

/-- The settler stands below every block that has not been handed on. -/
theorem Whole.through_lt (h : Whole settle r arrived now s) (hlogs : OrderedLogs settle r arrived) {e : Nat × Log}
    (he : e ∈ arrived) (hnot : e.2.block ∉ s.done) : s.settler.releasedThrough < e.2.block := by
  rcases h.through with hr | hdone
  · rw [hr]
    exact hlogs.above he
  · exact h.ahead _ hdone e he hnot

theorem Whole.addLog (h : Whole settle r arrived now s) {t : Nat} {l : Log}
    (hlogs : OrderedLogs settle r (arrived ++ [(t, l)])) (ht : now ≤ t) :
    Whole settle r (arrived ++ [(t, l)]) t { s with settler := s.settler.addLog t l } := by
  have hnot := h.not_done hlogs ht
  obtain ⟨b, -, hmined⟩ := hlogs.mined (t, l) (by simp)
  have hb : l.block = b := by
    unfold Log.block
    rw [hmined]
    rfl
  have hheld : s.settler.logsOf b = (ofBlock arrived b).map Prod.snd := by
    unfold BlockSettler.logsOf
    rw [h.held b, if_neg (hb ▸ hnot), heldOf]
    cases hlast : (ofBlock arrived b).getLast? with
    | none =>
      rw [List.getLast?_eq_none_iff.1 hlast]
      rfl
    | some e => rfl
  refine ⟨h.kept, fun c => ?_, fun x hx => ?_, h.ascending, fun c hc e he hnot' => ?_, h.through, fun e he => ?_,
    fun e he hdone => ?_⟩
  · change (s.settler.addLog t l).pending[c]? = if c ∈ s.done then none else _
    unfold BlockSettler.addLog
    dsimp only at hmined ⊢
    rw [hmined, Option.getD_some, Ranges.lookup_insert, hheld, h.held, heldOf_append, hb]
    by_cases hc : c = b
    · subst hc
      rw [if_pos rfl, if_neg (hb ▸ hnot), if_pos rfl]
    · rw [if_neg hc, if_neg (Ne.symm hc)]
  · obtain ⟨hlate, ⟨e, he, hex⟩, hall⟩ := h.complete x hx
    have hne : l.block ≠ x.block := fun heq => hnot (heq ▸ List.mem_map_of_mem hx)
    refine ⟨hlate, ⟨e, List.mem_append_left _ he, hex⟩, ?_⟩
    rw [ofBlock_append, show ofBlock [(t, l)] x.block = [] by simp [ofBlock, hne], List.append_nil]
    exact hall
  · rcases List.mem_append.1 he with he | he
    · exact h.ahead c hc e he hnot'
    · rw [List.mem_singleton.1 he]
      obtain ⟨d, hd, hdc⟩ := h.done_arrived hc
      have hle := (List.pairwise_append.1 hlogs.blocks).2.2 d hd (t, l) (List.mem_singleton_self _)
      have hne : c ≠ l.block := fun heq => hnot (heq ▸ hc)
      dsimp only at hle ⊢
      omega
  · rcases List.mem_append.1 he with he | he
    · exact (h.past e he).trans ht
    · rw [List.mem_singleton.1 he]
  · rw [List.getLast?_append_of_ne_nil _ (List.cons_ne_nil _ _)] at he
    obtain rfl : (t, l) = e := by simpa using he
    exact absurd hdone hnot

/-- Between events only the clock goes on. -/
theorem Whole.wait (h : Whole settle r arrived now s) {t : Nat} (ht : now ≤ t) : Whole settle r arrived t s :=
  { h with
    past := fun e he => (h.past e he).trans ht
    quiet := fun e he hdone => (h.quiet e he hdone).trans ht }

/-- What the block that goes out is. -/
theorem Whole.handsOn (h : Whole settle r arrived now s) (hlogs : OrderedLogs settle r arrived) {t : Nat}
    (ht : now ≤ t) {settler : BlockSettler} {x : Settled} (hready : s.settler.takeReady t = (settler, some x)) :
    x.block ∉ s.done ∧ (∃ e ∈ arrived, e.2.block = x.block) ∧
      (∀ e ∈ arrived, e.2.block ∉ s.done → x.block ≤ e.2.block) ∧
      ∀ e ∈ arrived.getLast?, e.2.block = x.block → e.1 + settle ≤ t := by
  obtain ⟨-, -, logs, last, hheld, hsize⟩ := BlockSettler.takeReady_ready hready
  have hon := BlockSettler.takeReady_some hready
  rw [h.held] at hheld
  split at hheld
  · cases hheld
  · next hnot =>
    obtain ⟨-, d, hd, hdb, hdlast, hdmem⟩ := heldOf_some hheld
    have hleast : ∀ e ∈ arrived, e.2.block ∉ s.done → x.block ≤ e.2.block := by
      intro e he hne
      obtain ⟨v, hv⟩ := heldOf_isSome he
      refine hon.oldest e.2.block ?_
      unfold BlockSettler.logsOf
      rw [h.held, if_neg hne, hv]
      obtain ⟨hv1, e', he', -, -, hlast⟩ := heldOf_some hv
      rw [Option.elim_some, hv1]
      intro hnil
      rw [List.map_eq_nil_iff.1 hnil] at hlast
      cases hlast
    refine ⟨hnot, ⟨d, hd, hdb⟩, hleast, fun e he heq => ?_⟩
    -- the latest log is of this block, so no other is held
    have halone : s.settler.pending.size ≤ 1 := by
      by_contra htwo
      have htwo : 2 ≤ s.settler.pending.size := by omega
      obtain ⟨c, v, hne, hv⟩ := BlockSettler.other_of_size (b := x.block) htwo
      rw [h.held] at hv
      split at hv
      · cases hv
      · next hc =>
        obtain ⟨-, e', he', hec, -⟩ := heldOf_some hv
        have hge := hleast e' he' (hec ▸ hc)
        have hle := hlogs.le_last he he'
        omega
    have hquiet := hsize halone
    have hpast := h.past d hd
    have hlast : (ofBlock arrived x.block).getLast? = some e := by
      obtain ⟨front, rfl⟩ := List.getLast?_eq_some_iff.1 he
      rw [ofBlock_append, show ofBlock [e] x.block = [e] by simp [ofBlock, heq]]
      simp
    rw [hlast, Option.some.injEq] at hdmem
    rw [h.kept] at hquiet
    subst hdmem
    omega

theorem Whole.poll (h : Whole settle r arrived now s) (hlogs : OrderedLogs settle r arrived) {t : Nat}
    (ht : now ≤ t) : Whole settle r arrived t (s.step (t, .poll)) := by
  unfold FeedRun.step
  dsimp only
  split
  · next settler hready =>
    rw [BlockSettler.takeReady_none hready]
    exact h.wait ht
  · next settler x hready =>
    obtain ⟨hnot, harrived, hleast, hquiet⟩ := h.handsOn hlogs ht hready
    obtain ⟨hpending, hkept, -⟩ := BlockSettler.takeReady_ready hready
    have hon := BlockSettler.takeReady_some hready
    obtain ⟨d, hd, hdx⟩ := harrived
    have hlt := h.through_lt hlogs hd (hdx ▸ hnot)
    have hdone : (⟨settler, s.released ++ [x]⟩ : FeedRun).done = s.done ++ [x.block] := by
      simp [FeedRun.done]
    have hheld : s.settler.logsOf x.block = (ofBlock arrived x.block).map Prod.snd := by
      obtain ⟨v, hv⟩ := heldOf_isSome hd
      rw [hdx] at hv
      unfold BlockSettler.logsOf
      rw [h.held, if_neg hnot, hv]
      exact (heldOf_some hv).1
    refine ⟨hkept.trans h.kept, fun b => ?_, fun y hy => ?_, ?_, fun b hb e he hne => ?_, ?_,
      (h.wait ht).past, fun e he hmem => ?_⟩
    · rw [hdone, hpending, Ranges.lookup_erase, h.held]
      by_cases hb : b = x.block <;> simp [hb]
    · rcases List.mem_append.1 hy with hy | hy
      · exact h.complete y hy
      · rw [List.mem_singleton.1 hy]
        refine ⟨?_, ⟨d, hd, hdx⟩, by rw [hon.logs, hheld]⟩
        rw [BlockSettler.takeReady_late hready, decide_eq_false_iff_not]
        omega
    · rw [hdone]
      refine List.pairwise_append.2 ⟨h.ascending, List.pairwise_singleton _ _, fun b hb c hc => ?_⟩
      rw [List.mem_singleton.1 hc, ← hdx]
      exact h.ahead b hb d hd (hdx ▸ hnot)
    · rw [hdone, List.mem_append, List.mem_singleton] at hb hne
      rw [not_or] at hne
      rcases hb with hb | rfl
      · exact h.ahead b hb e he hne.1
      · have hle := hleast e he hne.1
        omega
    · right
      rw [hdone, hon.released, max_eq_right (by omega)]
      simp
    · rw [hdone, List.mem_append, List.mem_singleton] at hmem
      rcases hmem with hmem | heq
      · exact (h.quiet e he hmem).trans ht
      · exact hquiet e he heq

theorem Whole.arrive (h : Whole settle r arrived now s) {t : Nat} {logs : List Log}
    (hlogs : OrderedLogs settle r (arrived ++ logs.map fun l => (t, l))) (ht : now ≤ t) :
    Whole settle r (arrived ++ logs.map fun l => (t, l)) t
      { s with settler := logs.foldl (fun s l => s.addLog t l) s.settler } := by
  induction logs generalizing arrived now s with
  | nil =>
    rw [List.map_nil, List.append_nil]
    exact h.wait ht
  | cons l rest ih =>
    rw [List.map_cons, List.append_cons] at hlogs ⊢
    exact ih (h.addLog hlogs.of_append ht) hlogs le_rfl

theorem Whole.step (h : Whole settle r arrived now s) {event : Nat × FeedEvent}
    (hlogs : OrderedLogs settle r (arrived ++ arrivals [event])) (ht : now ≤ event.1) :
    Whole settle r (arrived ++ arrivals [event]) event.1 (s.step event) := by
  obtain ⟨t, event⟩ := event
  unfold arrivals at hlogs ⊢
  rw [List.flatMap_singleton] at hlogs ⊢
  cases event with
  | arrive logs => exact h.arrive hlogs ht
  | poll =>
    rw [List.append_nil] at hlogs ⊢
    exact h.poll hlogs ht

end Event

/-! ## Whole feeds -/

section Feed
variable {settle r now : Nat} {arrived : List (Nat × Log)} {s : FeedRun} {feed : List (Nat × FeedEvent)}

theorem arrivals_append (feed more : List (Nat × FeedEvent)) :
    arrivals (feed ++ more) = arrivals feed ++ arrivals more := List.flatMap_append ..

theorem arrivals_cons (event : Nat × FeedEvent) (feed : List (Nat × FeedEvent)) :
    arrivals (event :: feed) = arrivals [event] ++ arrivals feed := arrivals_append [event] feed

theorem Whole.run (h : Whole settle r arrived now s) (hclock : feed.Pairwise fun d e => d.1 ≤ e.1)
    (hnow : ∀ e ∈ feed, now ≤ e.1) (hlogs : OrderedLogs settle r (arrived ++ arrivals feed)) :
    ∃ later, (∀ t, now ≤ t → (∀ e ∈ feed, e.1 ≤ t) → later ≤ t) ∧
      Whole settle r (arrived ++ arrivals feed) later (s.run feed) := by
  induction feed generalizing arrived now s with
  | nil => exact ⟨now, fun t ht _ => ht, by rwa [arrivals, List.flatMap_nil, List.append_nil]⟩
  | cons event rest ih =>
    rw [arrivals_cons, ← List.append_assoc] at hlogs ⊢
    obtain ⟨hle, hclock⟩ := List.pairwise_cons.1 hclock
    have hstep := h.step hlogs.of_append (hnow event List.mem_cons_self)
    obtain ⟨later, hlater, hwhole⟩ := ih hstep hclock hle hlogs
    refine ⟨later, fun t _ hall => hlater t (hall event List.mem_cons_self) fun e he => ?_, hwhole⟩
    exact hall e (List.mem_cons_of_mem _ he)

theorem Whole.start (settle r : Nat) : Whole settle r [] 0 (.new settle r) where
  kept := rfl
  held b := by simp [FeedRun.new, FeedRun.done, BlockSettler.new, heldOf, ofBlock]
  complete x hx := nomatch hx
  ascending := List.Pairwise.nil
  ahead b hb := nomatch hb
  through := .inl rfl
  past e he := nomatch he
  quiet e he := nomatch he

/-! ## Blocks that a later one has come after -/

/-- A look takes one of the blocks that wait, if there is one. -/
theorem Whole.waiting_poll (h : Whole settle r arrived now s) (hlogs : OrderedLogs settle r arrived) {t b : Nat}
    (ht : now ≤ t) (hlater : ∃ e ∈ arrived, b < e.2.block) :
    ((s.step (t, .poll)).waiting arrived b).card ≤ (s.waiting arrived b).card - 1 := by
  obtain ⟨late, hlate, hlt⟩ := hlater
  have hsub : (s.step (t, .poll)).waiting arrived b ⊆ s.waiting arrived b := by
    intro c hc
    obtain ⟨hc, hcb, hnot⟩ := Finset.mem_filter.1 hc
    refine Finset.mem_filter.2 ⟨hc, hcb, fun hdone => hnot ?_⟩
    unfold FeedRun.step
    dsimp only
    split
    · exact hdone
    · simp only [FeedRun.done, List.map_append, List.mem_append]
      exact .inl hdone
  rcases (s.waiting arrived b).eq_empty_or_nonempty with hnone | ⟨c, hc⟩
  · rw [hnone] at hsub ⊢
    rw [Finset.subset_empty.1 hsub]
    simp
  · obtain ⟨hmem, hcb, hnot⟩ := Finset.mem_filter.1 hc
    obtain ⟨d, hd, rfl⟩ := List.mem_map.1 (List.mem_toFinset.1 hmem)
    have hlatenot : late.2.block ∉ s.done := fun hdone => by
      have hahead := h.ahead _ hdone d hd hnot
      omega
    obtain ⟨v, hv⟩ := heldOf_isSome hd
    obtain ⟨w, hw⟩ := heldOf_isSome hlate
    have hheld := h.held d.2.block
    have hheldlate := h.held late.2.block
    rw [if_neg hnot, hv] at hheld
    rw [if_neg hlatenot, hw] at hheldlate
    obtain ⟨settler, x, hready⟩ := BlockSettler.takeReady_due hheld hheldlate (by omega) t
    obtain ⟨hxnot, ⟨e, he, hex⟩, hleast, -⟩ := h.handsOn hlogs ht hready
    have hxle := hleast d hd hnot
    have hxin : x.block ∈ s.waiting arrived b :=
      Finset.mem_filter.2 ⟨List.mem_toFinset.2 (List.mem_map.2 ⟨e, he, hex⟩), by omega, hxnot⟩
    have hxout : x.block ∉ (s.step (t, .poll)).waiting arrived b := by
      intro hx
      refine (Finset.mem_filter.1 hx).2.2 ?_
      unfold FeedRun.step
      dsimp only
      rw [hready]
      simp [FeedRun.done]
    exact Nat.le_sub_one_of_lt (Finset.card_lt_card ⟨hsub, fun hsup => hxout (hsup hxin)⟩)

/-- Logs that come are of blocks after those that wait. -/
theorem waiting_append {more : List (Nat × Log)} {b : Nat} (hlogs : OrderedLogs settle r (arrived ++ more))
    (hlater : ∃ e ∈ arrived, b < e.2.block) : s.waiting (arrived ++ more) b = s.waiting arrived b := by
  obtain ⟨late, hlate, hlt⟩ := hlater
  ext c
  simp only [FeedRun.waiting, Finset.mem_filter, List.mem_toFinset, List.map_append, List.mem_append]
  constructor
  · rintro ⟨hc | hc, hcb, hnot⟩
    · exact ⟨hc, hcb, hnot⟩
    · obtain ⟨e, he, rfl⟩ := List.mem_map.1 hc
      have hle := (List.pairwise_append.1 hlogs.blocks).2.2 late hlate e he
      omega
  · rintro ⟨hc, hrest⟩
    exact ⟨.inl hc, hrest⟩

/-- As many looks as blocks wait take them all. -/
theorem Whole.waiting_run (h : Whole settle r arrived now s) (hclock : feed.Pairwise fun d e => d.1 ≤ e.1)
    (hnow : ∀ e ∈ feed, now ≤ e.1) (hlogs : OrderedLogs settle r (arrived ++ arrivals feed)) {b : Nat}
    (hlater : ∃ e ∈ arrived, b < e.2.block) (hpolls : (s.waiting arrived b).card ≤ polls feed) :
    ∀ e ∈ arrived, e.2.block ≤ b → e.2.block ∈ (s.run feed).done := by
  induction feed generalizing arrived now s with
  | nil =>
    intro e he hle
    by_contra hnot
    have hmem : e.2.block ∈ s.waiting arrived b :=
      Finset.mem_filter.2 ⟨List.mem_toFinset.2 (List.mem_map.2 ⟨e, he, rfl⟩), hle, hnot⟩
    rw [Finset.card_eq_zero.1 (Nat.le_zero.1 hpolls)] at hmem
    cases hmem
  | cons event rest ih =>
    rw [arrivals_cons, ← List.append_assoc] at hlogs
    obtain ⟨hle, hclock⟩ := List.pairwise_cons.1 hclock
    have hstep := h.step hlogs.of_append (hnow event List.mem_cons_self)
    have hlater' : ∃ e ∈ arrived ++ arrivals [event], b < e.2.block := by
      obtain ⟨e, he, hlt⟩ := hlater
      exact ⟨e, List.mem_append_left _ he, hlt⟩
    have hcard : ((s.step event).waiting (arrived ++ arrivals [event]) b).card ≤ polls rest := by
      rw [waiting_append hlogs.of_append hlater]
      obtain ⟨t, event⟩ := event
      cases event with
      | arrive logs => exact hpolls.trans (by simp [polls])
      | poll =>
        have hone : ((s.step (t, .poll)).waiting arrived b).card ≤ (s.waiting arrived b).card - 1 :=
          h.waiting_poll hlogs.of_append.of_append (hnow _ List.mem_cons_self) hlater
        have hcount : polls ((t, .poll) :: rest) = polls rest + 1 := by simp [polls]
        omega
    intro e he hle'
    exact ih hstep hclock hle hlogs hlater' hcard e (List.mem_append_left _ he) hle'

/-- **Blocks settle whole.** Whatever looks there are between the logs of an ordered feed, every block goes
out at most once, with all of its logs in chain order, after the blocks before it and not as late; and once
a later block has come, it has gone out after as many looks as there were blocks waiting up to it. -/
theorem blocks_settle_whole (settle r : Nat) (feed : List (Nat × FeedEvent)) (h : OrderedFeed settle r feed) :
    ((FeedRun.new settle r).run feed).released.Pairwise (fun x y => x.block < y.block) ∧
      (∀ x ∈ ((FeedRun.new settle r).run feed).released, x.late = false ∧
        x.logs = ((ofBlock (arrivals feed) x.block).map Prod.snd).insertionSort
          fun a b => a.placeInBlock ≤ b.placeInBlock) ∧
      ∀ before after, feed = before ++ after → ∀ e ∈ arrivals before, ∀ later ∈ arrivals before,
        e.2.block < later.2.block →
        (((FeedRun.new settle r).run before).waiting (arrivals before) e.2.block).card ≤ polls after →
        ∃ x ∈ ((FeedRun.new settle r).run feed).released, x.block = e.2.block := by
  have hstart := Whole.start settle r
  obtain ⟨now, -, hwhole⟩ := hstart.run h.clock (fun _ _ => Nat.zero_le _) h.logs
  refine ⟨List.pairwise_map.1 hwhole.ascending, fun x hx => ?_, ?_⟩
  · obtain ⟨hlate, -, hall⟩ := hwhole.complete x hx
    exact ⟨hlate, hall⟩
  · rintro before after rfl e he late hlate hlt hpolls
    obtain ⟨hbefore, hafter, hbetween⟩ := List.pairwise_append.1 h.clock
    have hlogs := h.logs
    rw [arrivals_append] at hlogs
    obtain ⟨mid, hmid, hhalf⟩ := hstart.run hbefore (fun _ _ => Nat.zero_le _) hlogs.of_append
    rw [List.nil_append] at hhalf
    have hnow : ∀ d ∈ after, mid ≤ d.1 := fun d hd => hmid d.1 (Nat.zero_le _) fun e he => hbetween e he d hd
    have hdone := hhalf.waiting_run hafter hnow hlogs ⟨late, hlate, hlt⟩ hpolls e he le_rfl
    unfold FeedRun.run at hdone ⊢
    rw [List.foldl_append]
    exact List.mem_map.1 hdone

end Feed

/-- Block 100 in two parts, a look in between, and block 101 before block 100 is quiet. -/
def twoBlocks : List (Nat × FeedEvent) :=
  [(0, .arrive [syncAt 100 1]), (50, .poll), (50, .arrive [syncAt 100 0]), (60, .arrive [syncAt 101 0]),
    (60, .poll), (100, .poll), (135, .poll)]

/-- Block 100 goes out whole at the first look after block 101 has come. -/
theorem blocks_settle_whole_two :
    ((FeedRun.new 75 99).run twoBlocks).released.Pairwise (fun x y => x.block < y.block) ∧
      ((FeedRun.new 75 99).run (twoBlocks.take 5)).done = [100] ∧
      ((FeedRun.new 75 99).run twoBlocks).done = [100, 101] := by
  have h : OrderedFeed 75 99 twoBlocks := by
    refine ⟨by decide, ⟨?_, by decide, by decide⟩⟩
    intro e he
    rcases e with ⟨t, l⟩
    obtain h | h : l.block = 100 ∧ l.blockNumber = some 100 ∨ l.block = 101 ∧ l.blockNumber = some 101 := by
      revert he
      simp [arrivals, twoBlocks, syncAt, Log.block]
      rintro (⟨-, rfl⟩ | ⟨-, rfl⟩ | ⟨-, rfl⟩) <;> simp
    · exact ⟨100, by decide, h.2⟩
    · exact ⟨101, by decide, h.2⟩
  exact ⟨(blocks_settle_whole 75 99 twoBlocks h).1, by decide +kernel, by decide +kernel⟩

end EvmDexPool
