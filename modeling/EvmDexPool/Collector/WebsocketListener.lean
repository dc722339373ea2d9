import EvmDexPool.Collector.EventQueue

/-!
# What a feed has delivered (`collector/websocket_listener.rs`)
-/

namespace EvmDexPool

/-- `FeedProgress` (websocket_listener.rs:54). -/
structure FeedProgress where
  subscribedBefore : Bool
  lastForwarded : Option LogPosition
  gapOpen : Bool
deriving DecidableEq

namespace FeedProgress
variable (f : FeedProgress)

/-- `FeedProgress::default`. -/
def start : FeedProgress := ⟨false, none, false⟩

/-- `subscribed` (websocket_listener.rs:67). -/
def subscribed : FeedProgress × Bool :=
  ({ f with subscribedBefore := true, gapOpen := true }, f.subscribedBefore)

/-- `lagged` (websocket_listener.rs:75). -/
def lagged : FeedProgress := { f with gapOpen := true }

/-- `forwarding` (websocket_listener.rs:80). -/
def forwarding (l : Log) : FeedProgress × Option Gap :=
  if l.removed then (f, none)
  else
    match l.position with
    | none => (f, none)
    | some position =>
      ({ f with
          gapOpen := false
          lastForwarded := some (f.lastForwarded.elim position (max · position)) },
        if f.gapOpen then some ⟨f.lastForwarded, position⟩ else none)

variable {f}

/-- A mined log that comes after the last one forwarded. -/
theorem forwarding_mined {l : Log} (hl : l.Mined) (h : ∀ p, f.lastForwarded = some p → p < l.place) :
    f.forwarding l = ({ f with gapOpen := false, lastForwarded := some l.place },
      if f.gapOpen then some ⟨f.lastForwarded, l.place⟩ else none) := by
  unfold forwarding
  rw [hl.kept, hl.position]
  dsimp only
  rw [if_neg Bool.false_ne_true]
  cases hf : f.lastForwarded with
  | none => rfl
  | some p => simp [max_eq_right (h p hf).le]

end FeedProgress

end EvmDexPool
