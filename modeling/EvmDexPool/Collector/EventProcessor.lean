import EvmDexPool.Collector.Registry

/-!
# Applying events (`collector/event_processor.rs`, `collector/handle.rs`)

`clock l` is the wall clock read while `l` is applied. An `apply_log` that returns `Err` is logged and
passed over; a panic ends the call with what it has written. `HashMap` iteration is an order of the
addresses, given as an argument.
-/

namespace EvmDexPool

open Std Replay

variable {π : Type} [PoolInterface π]

/-- The parts of `EventProcessor` (event_processor.rs:32) that decide what it does: whether a
swap-event receiver is configured, and the topics sent to it. -/
structure EventProcessor where
  swapEventTx : Bool
  profitableTopics : List Topic

/-! ## One log on one pool -/

/-- `pool.apply_log(event)` at its wall clock. -/
def applyLogAt (clock : Log → Nat) (l : Log) (p : π) : π × Except Fault Unit :=
  PoolInterface.applyLog (clock l) l p

/-- The catch-up loops log an error without looking into the log. -/
def applyOrWarn (clock : Log → Nat) (l : Log) (p : π) : π × Except Fault Unit :=
  match applyLogAt clock l p with
  | (p, .error (.error _)) => (p, .ok ())
  | out => out

/-- The event processor's error message unwraps the transaction hash. -/
def applyOrReport (clock : Log → Nat) (l : Log) (p : π) : π × Except Fault Unit :=
  match applyLogAt clock l p with
  | (p, .error (.error _)) => (p, if l.transactionHash.isSome then .ok () else .error .panic)
  | out => out

/-- Some step on the pool at an address, if there is one. -/
def onPool (f : π → π × Except Fault Unit) (a : Address) (r : PoolRegistry π) : PoolRegistry π × Except Fault Unit :=
  match r.getPool a with
  | some p => ({ r with byAddress := r.byAddress.insert a (f p).1 }, (f p).2)
  | none => (r, .ok ())

/-! ## The paths -/

/-- The application loop of `catchup_registry_to_block` (handle.rs:752), as `bootstrap`'s. -/
def catchupEvents (clock : Log → Nat) : List Log → PoolRegistry π → PoolRegistry π × Except Fault Unit :=
  loop fun l => onPool (applyOrWarn clock l) l.address

/-- A pool's events, in the order they came. -/
def eventsOf (events : List Log) (a : Address) : List Log := events.filter fun l => l.address = a

/-- `apply_events_to_registry` (event_processor.rs:61). -/
def applyEventsToRegistry (clock : Log → Nat) (order : List Address) (events : List Log) :
    PoolRegistry π → PoolRegistry π × Except Fault Unit :=
  loop (fun a => onPool (loop (applyOrReport clock) (eventsOf events a)) a) order

namespace EventProcessor
variable (proc : EventProcessor)

/-- Whether an event goes to the receiver: the topic is unwrapped. -/
def isProfitable (l : Log) : Except Fault Bool :=
  match l.topic0 with
  | some t => .ok (t ∈ proc.profitableTopics)
  | none => .error .panic

/-- `send_swap_event` (event_processor.rs:227): the metrics take the hash and the log index. -/
def sendSwapEvent (l : Log) (sent : List Log) : List Log × Except Fault Unit :=
  if l.transactionHash.isSome ∧ l.logIndex.isSome then (sent ++ [l], .ok ()) else (sent, .error .panic)

/-- One event of a pool in `process_confirmed_events`: the pool, and the events to send so far. -/
def confirmEvent (clock : Log → Nat) (l : Log) (s : π × List Log) : (π × List Log) × Except Fault Unit :=
  match applyOrReport clock l s.1 with
  | (p, .error e) => ((p, s.2), .error e)
  | (p, .ok ()) =>
    if proc.swapEventTx then
      match proc.isProfitable l with
      | .error e => ((p, s.2), .error e)
      | .ok profitable => ((p, if profitable then s.2 ++ [l] else s.2), .ok ())
    else ((p, s.2), .ok ())

/-- One pool of `process_confirmed_events`. -/
def confirmPool (clock : Log → Nat) (events : List Log) (a : Address) (s : PoolRegistry π × List Log) :
    (PoolRegistry π × List Log) × Except Fault Unit :=
  match s.1.getPool a with
  | none => (s, .ok ())
  | some p =>
    let out := loop (proc.confirmEvent clock) (eventsOf events a) (p, s.2)
    (({ s.1 with byAddress := s.1.byAddress.insert a out.1.1 }, out.1.2), out.2)

/-- `process_confirmed_events` (event_processor.rs:106): pools in the order of their first event, then
the swap events are sent. -/
def processConfirmedEvents (clock : Log → Nat) (events : List Log) (r : PoolRegistry π) :
    (PoolRegistry π × List Log) × Except Fault Unit :=
  match loop (proc.confirmPool clock events) (events.map (·.address)).eraseDups (r, []) with
  | (s, .error e) => ((s.1, []), .error e)
  | (s, .ok ()) =>
    if proc.swapEventTx then
      let out := loop sendSwapEvent s.2 []
      ((s.1, out.1), out.2)
    else ((s.1, []), .ok ())

/-- What `process_pending_events` builds: the clones, and the events sent. -/
structure Speculation (π : Type) where
  modifiedPools : ExtTreeMap Address π
  sent : List Log

/-- One event of `process_pending_events`: the pool's clone is made on its first event. -/
def speculate (clock : Log → Nat) (r : PoolRegistry π) (l : Log) (s : Speculation π) :
    Speculation π × Except Fault Unit :=
  match (s.modifiedPools[l.address]?).or (r.getPool l.address) with
  | none => (s, .ok ())
  | some p =>
    let s := { s with modifiedPools := s.modifiedPools.insert l.address (applyOrWarn clock l p).1 }
    match (applyOrWarn clock l p).2 with
    | .error e => (s, .error e)
    | .ok () => match proc.isProfitable l with
      | .error e => (s, .error e)
      | .ok profitable =>
        if profitable then
          let out := sendSwapEvent l s.sent
          ({ s with sent := out.1 }, out.2)
        else (s, .ok ())

/-- `process_pending_events` (event_processor.rs:179). It only reads the registry. -/
def processPendingEvents (clock : Log → Nat) (events : List Log) (r : PoolRegistry π) :
    Speculation π × Except Fault Unit :=
  if proc.swapEventTx then loop (proc.speculate clock r) events ⟨∅, []⟩ else (⟨∅, []⟩, .ok ())

end EventProcessor

end EvmDexPool
