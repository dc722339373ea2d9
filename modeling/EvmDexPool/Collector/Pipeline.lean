import EvmDexPool.Collector.BlockSource
import EvmDexPool.Collector.WebsocketListener

/-!
# One feed, the queue, and the websocket source

A feed carries the chain's relevant logs in order: `behind` are those it has delivered or lost, `ahead`
those to come. What happens on the wire (a subscription dropping, logs passing while it is down, the
subscription's buffer overflowing) is up to the run, and so is when the listener and the source take
their steps: each step runs from one `await` to the next. `bootstrap` and `next_batch` are cut at the
drain of the queue, at `take_gaps`, at each gap's fetch and at the block taken from the settler.

`forwarded`, `fetched`, `bootstrapped` and `handed` keep account: the logs the listener forwarded, those
fetched for gaps, those bootstrap took, and those added to the settler.
-/

namespace EvmDexPool

/-- Where the source is: in `bootstrap`, or in the loop of `next_batch`. -/
inductive Stage
  | created
  | catchingUp (drained : List Log)
  | bootFilling (drained events : List Log) (filled : Bool)
  | draining
  | drained
  | filling
  | settled (r : Settled)

/-- Before the loop of `next_batch`. -/
def Stage.boots : Stage → Bool
  | .created => true
  | .catchingUp _ => true
  | .bootFilling .. => true
  | _ => false

structure Pipeline where
  behind : List Log
  ahead : List Log
  connected : Bool
  progress : FeedProgress
  sending : Option Log
  queue : EventQueue
  source : WebsocketBlockSource
  stage : Stage
  taken : List Gap
  forwarded : List Log
  fetched : List Log
  bootstrapped : List Log
  handed : List Log
  released : List (Settled × ProcessingMode)

namespace Pipeline

inductive Action
  | subscribe
  | disconnect
  | miss
  | overflow
  | deliver
  | send
  | bootDrain (latest : Nat)
  | bootTakeGaps
  | bootGap
  | bootDone
  | intake (now : Nat)
  | takeGaps
  | fill (now : Nat)
  | takeReady (now : Nat)
  | handOn
deriving DecidableEq, Repr

variable (c : Chain) (addresses : List Address) (s : Pipeline)

/-- A feed that is not connected yet, an empty queue and a new source of the one websocket URL. -/
def init (topics : List Topic) (maxEvents maxBlocksPerBatch blockSettle : Nat) : Pipeline where
  behind := []
  ahead := c.relevant addresses topics
  connected := false
  progress := .start
  sending := none
  queue := .new maxEvents
  source := .new topics maxBlocksPerBatch blockSettle true
  stage := .created
  taken := []
  forwarded := []
  fetched := []
  bootstrapped := []
  handed := []
  released := []

/-! ## The feed and the listener -/

/-- A subscription is up (websocket_listener.rs:230). -/
def subscribe : Pipeline :=
  if s.connected then s else { s with connected := true, progress := s.progress.subscribed.1 }

def disconnect : Pipeline := { s with connected := false }

/-- A log passes while the feed is down. -/
def miss : Pipeline :=
  match s.connected, s.ahead with
  | false, l :: rest => { s with behind := s.behind ++ [l], ahead := rest }
  | _, _ => s

/-- The subscription's buffer drops a log (websocket_listener.rs:363). -/
def overflow : Pipeline :=
  match s.connected, s.ahead with
  | true, l :: rest =>
    { s with
      behind := s.behind ++ [l]
      ahead := rest
      progress := s.progress.lagged }
  | _, _ => s

/-- A log arrives and the gap it closes is noted (websocket_listener.rs:380-386). -/
def deliver : Pipeline :=
  match s.connected, s.sending, s.ahead with
  | true, none, l :: rest =>
    { s with
      behind := s.behind ++ [l]
      ahead := rest
      progress := (s.progress.forwarding l).1
      queue := (s.progress.forwarding l).2.elim s.queue s.queue.noteGap
      sending := some l
      forwarded := s.forwarded ++ [l] }
  | _, _, _ => s

/-- It is sent (websocket_listener.rs:388). -/
def send : Pipeline :=
  match s.sending with
  | some l => { s with sending := none, queue := (s.queue.send l).1 }
  | none => s

/-! ## Bootstrap -/

/-- The drain that fixes the floor (block_source.rs:715-740). -/
def bootDrain (latest : Nat) : Pipeline :=
  match s.stage with
  | .created =>
    { s with
      queue := s.queue.getAllAvailableEvents.1
      source := { s.source with
        fillFloor := WebsocketBlockSource.firstQueuedPosition latest s.queue.queue }
      stage := .catchingUp s.queue.queue
      bootstrapped := s.queue.queue }
  | _ => s

/-- `take_gaps` after the catch-up (block_source.rs:872). -/
def bootTakeGaps : Pipeline :=
  match s.stage with
  | .catchingUp drained =>
    { s with
      queue := s.queue.takeGaps.1
      taken := if s.source.fillReconnectGaps then s.queue.gaps else []
      stage := .bootFilling drained drained false }
  | _ => s

/-- One gap: fetched if its closing log was drained, else noted again (block_source.rs:876-884). -/
def bootGap : Pipeline :=
  match s.stage, s.taken with
  | .bootFilling drained events filled, g :: rest =>
    if g.before ∈ drained.filterMap Log.position then
      let missed := s.source.fetchGap c addresses g s.queue
      { s with
        queue := missed.1
        taken := rest
        stage := .bootFilling drained (events ++ missed.2) true
        fetched := s.fetched ++ missed.2
        bootstrapped := s.bootstrapped ++ missed.2 }
    else
      { s with
        queue := s.queue.noteGap g
        taken := rest
        stage := .bootFilling drained events filled }
  | _, _ => s

/-- The events are applied, in order if a gap was filled, and the settler starts after the last block
among them (block_source.rs:885-920). -/
def bootDone : Pipeline :=
  match s.stage, s.taken with
  | .bootFilling _ events _, [] =>
    { s with
      source := { s.source with
        settler := .new s.source.blockSettle (s.source.bootstrapBlock events) }
      stage := .draining }
  | _, _ => s

/-! ## The loop of `next_batch` -/

def intake (now : Nat) : Pipeline :=
  match s.stage with
  | .draining =>
    { s with
      source := (s.source.intake now s.queue).1
      queue := (s.source.intake now s.queue).2
      stage := .drained
      handed := s.handed ++ s.queue.queue.filter s.source.keeps }
  | _ => s

/-- `take_gaps` (block_source.rs:944). -/
def takeGaps : Pipeline :=
  match s.stage with
  | .drained =>
    { s with
      queue := s.queue.takeGaps.1
      taken := if s.source.fillReconnectGaps then s.queue.gaps else []
      stage := .filling }
  | _ => s

/-- One gap is filled. -/
def fill (now : Nat) : Pipeline :=
  match s.stage, s.taken with
  | .filling, g :: rest =>
    { s with
      source := (s.source.fillGap c addresses g now s.queue).1
      queue := (s.source.fillGap c addresses g now s.queue).2
      taken := rest
      fetched := s.fetched ++ (s.source.fetchGap c addresses g s.queue).2
      handed := s.handed ++ (s.source.fetchGap c addresses g s.queue).2 }
  | _, _ => s

/-- The oldest block is taken if it is ready; else the loop sleeps (block_source.rs:953, 1011). -/
def takeReady (now : Nat) : Pipeline :=
  match s.stage, s.taken with
  | .filling, [] =>
    { s with
      source := { s.source with
        settler := (s.source.settler.takeReady now).1 }
      stage := (s.source.settler.takeReady now).2.elim .draining .settled }
  | _, _ => s

/-- `next_batch` returns the block (block_source.rs:995). -/
def handOn : Pipeline :=
  match s.stage with
  | .settled r => { s with stage := .draining, released := s.released ++ [(r, s.source.modeOf r)] }
  | _ => s

/-- The settler holds the log. -/
def Held (l : Log) : Prop := ∃ b, l ∈ s.source.settler.logsOf b

def step (s : Pipeline) : Action → Pipeline
  | .subscribe => s.subscribe
  | .disconnect => s.disconnect
  | .miss => s.miss
  | .overflow => s.overflow
  | .deliver => s.deliver
  | .send => s.send
  | .bootDrain latest => s.bootDrain latest
  | .bootTakeGaps => s.bootTakeGaps
  | .bootGap => s.bootGap c addresses
  | .bootDone => s.bootDone
  | .intake now => s.intake now
  | .takeGaps => s.takeGaps
  | .fill now => s.fill c addresses now
  | .takeReady now => s.takeReady now
  | .handOn => s.handOn

end Pipeline

end EvmDexPool
