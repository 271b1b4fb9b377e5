import Brokkr.Raft.Cluster

/-!
# The driver of a Raft node

`RaftDriver` (`driver.rs`) is the event loop around a node: it serves one input
at a time, and after each of them does its bookkeeping (`post_event`): it applies
what the node has committed to a state machine, compacts the log, and answers the
callers that are waiting.

* `RaftDriver.catchUp`, `RaftDriver.autoCompact`, `RaftDriver.settleReads`,
  `RaftDriver.postEvent` — the bookkeeping.
* `RaftDriver.receive`, `RaftDriver.serve` — ticks, packets and client calls.
* `DriverCluster` — the drivers of a cluster, the cluster of their nodes, and the
  calls made on them so far.
* `DriverRun` — an execution.

Every call on a node starts a new list of transactions (`RaftNode.begin`), so the
node of a driver is the very node of the cluster.  What a node sends, and what it
answers a peer, the cluster puts into the network.
-/

namespace Brokkr.Raft

/-! ## One driver -/

/-- A replicated state machine. -/
structure StateMachine (S : Type) where
  init : S
  apply : S → LogEntry → S
  snapshot : S → Bytes
  restore : S → Bytes → S

/-- A client call is known by the number of the turn it arrives in. -/
abbrev Caller := ℕ

/-- What a caller is told when all went well. -/
inductive Answer where
  | done
  | index (i : ℕ)
  | snapshot (info : SnapshotMeta)
  deriving DecidableEq

/-- A caller waiting for the state machine to apply up to `index`. -/
structure AppliedWaiter where
  index : ℕ
  expectedTerm : Option ℕ
  sender : Caller
  deriving DecidableEq

/-- The driver of a node. -/
structure RaftDriver (S : Type) where
  node : RaftNode
  machine : S
  lastApplied : ℕ := 0
  awaitingApply : List AppliedWaiter := []
  readsAwaitingConfirm : OrdMap ℕ Caller := ∅
  answers : List (Caller × Except RaftError Answer) := []

/-- What a client can ask of a driver. -/
inductive ClientCall where
  | propose (command : Bytes)
  | proposeCommitted (command : Bytes)
  | readIndex
  | proposeConfChange (newVoters : OrdSet NodeId)
  | proposeAddLearner (id : NodeId)
  | compact (data : Bytes)
  deriving DecidableEq

/-- The call on the node a client call leads to. -/
def ClientCall.op (now : Instant) : ClientCall → Op
  | .propose command => .propose command now
  | .proposeCommitted command => .propose command now
  | .readIndex => .startRead now
  | .proposeConfChange newVoters => .proposeConfChange newVoters now
  | .proposeAddLearner id => .proposeAddLearner id now
  | .compact data => .compact data

namespace RaftDriver

variable {S : Type}

/-- Answer a caller. -/
def send (d : RaftDriver S) (caller : Caller) (result : Except RaftError Answer) :
    RaftDriver S :=
  { d with answers := d.answers ++ [(caller, result)] }

/-- Answer and drop the waiters that have a verdict (`retain_mut`). -/
def resolveWaiters (d : RaftDriver S) (verdict : AppliedWaiter → Option (Except RaftError Answer)) :
    RaftDriver S :=
  { d with
    awaitingApply := d.awaitingApply.filter (fun w => (verdict w).isNone)
    answers := d.answers ++
      d.awaitingApply.filterMap (fun w => (verdict w).map (fun result => (w.sender, result))) }

/-- A proposal that a snapshot jumped over fails: its outcome is unknown. -/
def jumpVerdict (jumpedTo : ℕ) (w : AppliedWaiter) : Option (Except RaftError Answer) :=
  if w.index ≤ jumpedTo ∧ w.expectedTerm.isSome then
    some (.error (.transport "proposal outcome unknown: state jumped via snapshot"))
  else none

/-- Whoever waits for the index just applied is answered: a proposal fails if the
entry is of another term. -/
def applyVerdict (next : ℕ) (entry : LogEntry) (w : AppliedWaiter) :
    Option (Except RaftError Answer) :=
  if w.index ≠ next then none
  else
    match w.expectedTerm with
    | some expected =>
      if entry.term ≠ expected then some (.error (.notLeader none))
      else some (.ok (.index next))
    | none => some (.ok (.index next))

section

variable (M : StateMachine S)

variable (d : RaftDriver S)

/-- Restore the machine from a snapshot beyond what it has applied. -/
def restoreInstalled : RaftDriver S :=
  if d.lastApplied < d.node.snapshotIndex then
    match d.node.log.db.snapshot with
    | some (info, blob) =>
      ({ d with
        machine := M.restore d.machine blob
        lastApplied := info.lastIncludedIndex } : RaftDriver S).resolveWaiters
          (jumpVerdict info.lastIncludedIndex)
    | none => d
  else d

/-- Apply one entry. -/
def applyEntry (next : ℕ) (entry : LogEntry) : RaftDriver S :=
  ({ d with
    machine := M.apply d.machine entry
    lastApplied := next } : RaftDriver S).resolveWaiters (applyVerdict next entry)

/-- Apply the committed tail in order, in at most `turns` turns of the loop. -/
def applyCommitted : ℕ → RaftDriver S → RaftDriver S × Except RaftError Unit
  | 0, d => (d, .ok ())
  | turns + 1, d =>
    if d.lastApplied < d.node.commitIndex then
      let next := LogIndex.next d.lastApplied
      match d.node.log.db.get next with
      | none => (d, .error (.storage s!"committed entry {next} missing from the log"))
      | some entry => applyCommitted turns (d.applyEntry M next entry)
    else (d, .ok ())

/-- Bring the machine up to the commit index. -/
def catchUp : RaftDriver S × Except RaftError Unit :=
  let d := d.restoreInstalled M
  applyCommitted M (d.node.commitIndex - d.lastApplied) d

/-- Snapshot the machine once the committed log has outgrown the threshold. -/
def autoCompact : RaftDriver S × Except RaftError Unit :=
  if d.node.needsSnapshot then
    match d.node.begin.compact (M.snapshot d.machine) with
    | (n, .ok _) => ({ d with node := n }, .ok ())
    | (n, .error e) => ({ d with node := n }, .error e)
  else (d, .ok ())

/-- Settle one read: answer it, or let it wait for its index to be applied. -/
def settleRead (read : ℕ × Except RaftError ℕ) : RaftDriver S :=
  match d.readsAwaitingConfirm.get? read.1 with
  | none => d
  | some sender =>
    let d := { d with readsAwaitingConfirm := d.readsAwaitingConfirm.erase read.1 }
    match read.2 with
    | .ok index =>
      if index ≤ d.lastApplied then d.send sender (.ok (.index index))
      else { d with awaitingApply := d.awaitingApply ++ [⟨index, none, sender⟩] }
    | .error e => d.send sender (.error e)

/-- Settle the reads the node has resolved. -/
def settleReads : RaftDriver S :=
  let r := d.node.begin.drainReadResults
  r.2.foldl settleRead { d with node := r.1 }

/-- The bookkeeping after every input. -/
def postEvent : RaftDriver S × Except RaftError Unit :=
  match d.catchUp M with
  | (d, .error e) => (d, .error e)
  | (d, .ok ()) =>
    match d.autoCompact M with
    | (d, .error e) => (d, .error e)
    | (d, .ok ()) => (d.settleReads, .ok ())

/-- The calls on the node that the bookkeeping makes. -/
def postCalls : List Op :=
  match d.catchUp M with
  | (_, .error _) => []
  | (d, .ok ()) =>
    (if d.node.needsSnapshot then [.compact (M.snapshot d.machine)] else []) ++
      match (d.autoCompact M).2 with
      | .error _ => []
      | .ok () => [.drainReadResults]

/-- Start a driver: the machine resumes from the snapshot, if there is one. -/
def start (n : RaftNode) (answers : List (Caller × Except RaftError Answer)) :
    RaftDriver S × Except RaftError Unit :=
  let d : RaftDriver S := { node := n, machine := M.init, answers := answers }
  let d := match n.log.db.snapshot with
    | some (info, blob) =>
      { d with machine := M.restore d.machine blob, lastApplied := info.lastIncludedIndex }
    | none => d
  d.postEvent M

end

variable (d : RaftDriver S)

/-- A tick, an inbound request or a peer's reply.  An error ends the event loop,
but for the refusal of a malformed `InstallSnapshot`. -/
def receive (call : Call) : RaftDriver S × Except RaftError Unit :=
  let effect := d.node.begin.run call
  let d := { d with node := effect.node }
  match effect.error, call with
  | none, _ => (d, .ok ())
  | some (.snapshot _), .installSnapshot .. => (d, .ok ())
  | some e, _ => (d, .error e)

/-- Tell the caller how its call went. -/
def reply (caller : Caller) (r : Outcome) : RaftDriver S :=
  match r with
  | (n, .ok _) => ({ d with node := n } : RaftDriver S).send caller (.ok .done)
  | (n, .error e) => ({ d with node := n } : RaftDriver S).send caller (.error e)

/-- Serve a client call. -/
def serve (caller : Caller) (now : Instant) : ClientCall → RaftDriver S
  | .propose command => d.reply caller (d.node.begin.propose command now)
  | .proposeConfChange newVoters => d.reply caller (d.node.begin.proposeConfChange newVoters now)
  | .proposeAddLearner id => d.reply caller (d.node.begin.proposeAddLearner id now)
  | .compact data =>
    match d.node.begin.compact data with
    | (n, .ok info) => ({ d with node := n } : RaftDriver S).send caller (.ok (.snapshot info))
    | (n, .error e) => ({ d with node := n } : RaftDriver S).send caller (.error e)
  | .readIndex =>
    match d.node.begin.startRead now with
    | (n, .ok (ticket, _)) =>
      { d with
        node := n
        readsAwaitingConfirm := d.readsAwaitingConfirm.insert ticket caller }
    | (n, .error e) => ({ d with node := n } : RaftDriver S).send caller (.error e)
  | .proposeCommitted command =>
    match d.node.begin.propose command now with
    | (n, .ok _) =>
      -- the entry just appended is the last one, of the current term
      { d with
        node := n
        awaitingApply := d.awaitingApply ++ [⟨n.lastLogIndex, some n.hard.currentTerm, caller⟩] }
    | (n, .error e) => ({ d with node := n } : RaftDriver S).send caller (.error e)

end RaftDriver

/-! ## The drivers of a cluster -/

/-- What a driver is given to do. -/
inductive DriverAction where
  | tick (id : NodeId) (now : Instant)
  | client (id : NodeId) (request : ClientCall) (now : Instant)
  | deliver (k : ℕ) (now : Instant)
  deriving DecidableEq

/-- The first call on the node it leads to. -/
def DriverAction.action : DriverAction → Action
  | .tick id now => .op id (.tick now)
  | .client id request now => .op id (request.op now)
  | .deliver k now => .deliver k now

/-- Where a driver is when it crashes. -/
inductive CrashPoint where
  | inCall (transactions : ℕ)
  | inPostEvent (compacted : Bool)
  deriving DecidableEq

/-- A step of the drivers. -/
inductive DriverEvent where
  | turn (action : DriverAction)
  | crash (action : DriverAction) (point : CrashPoint) (rng : Rng) (config : Config)
      (now : Instant)
  deriving DecidableEq

/-- What the driver was doing. -/
def DriverEvent.action : DriverEvent → DriverAction
  | .turn action => action
  | .crash action .. => action

namespace RaftDriver

variable {S : Type} (M : StateMachine S)

variable (d : RaftDriver S)

/-- Serve an input. -/
def handle (caller : Caller) (action : DriverAction) (call : Call) :
    RaftDriver S × Except RaftError Unit :=
  match action with
  | .client _ request now => (d.serve caller now request, .ok ())
  | _ => d.receive call

/-- One turn of the event loop. -/
def turn (d : RaftDriver S) (caller : Caller) (action : DriverAction) (call : Call) :
    RaftDriver S × Except RaftError Unit :=
  match d.handle caller action call with
  | (d, .error e) => (d, .error e)
  | (d, .ok ()) => d.postEvent M

/-- The calls on node `id` that one turn makes. -/
def turnEvents (id : NodeId) (caller : Caller) (action : DriverAction)
    (call : Call) : List Event :=
  .run action.action :: match d.handle caller action call with
    | (_, .error _) => []
    | (d, .ok ()) => (d.postCalls M).map (fun op => .run (.op id op))

/-- The calls on node `id` that a turn makes which is cut short. -/
def crashEvents (id : NodeId) (caller : Caller) (action : DriverAction)
    (call : Call) (point : CrashPoint) (rng : Rng) (config : Config) (now : Instant) :
    List Event :=
  match point with
  | .inCall transactions => [.crash action.action transactions rng config now]
  | .inPostEvent compacted =>
    let interrupted := ((d.handle caller action call).1.postCalls M).headD .drainReadResults
    [.run action.action, .crash (.op id interrupted) (if compacted then 1 else 0) rng config now]

/-- The answers given so far when a turn is cut short. -/
def crashAnswers (caller : Caller) (action : DriverAction) (call : Call)
    (point : CrashPoint) : List (Caller × Except RaftError Answer) :=
  match point with
  | .inCall _ => d.answers
  | .inPostEvent _ => ((d.handle caller action call).1.catchUp M).1.answers

end RaftDriver

/-- The drivers of a cluster. -/
structure DriverCluster (S : Type) where
  nodes : Cluster
  drivers : OrdMap NodeId (RaftDriver S)
  history : List Event := []
  clock : ℕ := 0

namespace DriverCluster

variable {S : Type} (M : StateMachine S)

/-- A driver goes on, or its event loop ends with an error. -/
def host (drivers : OrdMap NodeId (RaftDriver S)) (id : NodeId)
    (r : RaftDriver S × Except RaftError Unit) : OrdMap NodeId (RaftDriver S) :=
  match r with
  | (d, .ok ()) => drivers.insert id d
  | (_, .error _) => drivers.erase id

/-- Freshly started drivers. -/
def init (voters : OrdSet NodeId) (starts : List Start) : DriverCluster S where
  nodes := Cluster.init voters starts
  drivers := starts.foldl (fun drivers s =>
    host drivers s.id (RaftDriver.start M
      (RaftNode.withBootstrap s.id (bootstrapOf voters s.id) {} s.rng s.config s.now) [])) ∅

variable (D : DriverCluster S)

/-- Nothing happens. -/
def idle : DriverCluster S := { D with clock := D.clock + 1 }

/-- Make calls on the nodes; the driver of `id` has moved on. -/
def after (id : NodeId) (events : List Event)
    (r : RaftDriver S × Except RaftError Unit) : DriverCluster S where
  nodes := D.nodes.exec events
  drivers := host D.drivers id r
  history := D.history ++ events
  clock := D.clock + 1

/-- Make calls on the nodes, the last of which ends in a restart of `id`. -/
def restart (id : NodeId) (events : List Event)
    (answers : List (Caller × Except RaftError Answer)) : DriverCluster S where
  nodes := D.nodes.exec events
  drivers :=
    match (D.nodes.exec events).members.get? id with
    | some m => host D.drivers id (RaftDriver.start M m.node answers)
    | none => D.drivers.erase id
  history := D.history ++ events
  clock := D.clock + 1

/-- Who serves an input, and with which call on its node. -/
def serving (action : DriverAction) :
    Option (NodeId × Call × RaftDriver S) :=
  match D.nodes.resolve action.action with
  | some (id, call, _) => (D.drivers.get? id).map (fun d => (id, call, d))
  | none => none

/-- One step.  An input for a driver that is not there does nothing. -/
def step (D : DriverCluster S) : DriverEvent → DriverCluster S
  | .turn action =>
    match D.serving action with
    | none => D.idle
    | some (id, call, d) =>
      D.after id (d.turnEvents M id D.clock action call) (d.turn M D.clock action call)
  | .crash action point rng config now =>
    match D.serving action with
    | none => D.idle
    | some (id, call, d) =>
      D.restart M id (d.crashEvents M id D.clock action call point rng config now)
        (d.crashAnswers M D.clock action call point)

/-- The calls on nodes that one step makes. -/
def stepEvents (e : DriverEvent) : List Event :=
  match D.serving e.action with
  | none => []
  | some (id, call, d) =>
    match e with
    | .turn action => d.turnEvents M id D.clock action call
    | .crash action point rng config now =>
      d.crashEvents M id D.clock action call point rng config now

/-- A sequence of steps. -/
def exec (events : List DriverEvent) : DriverCluster S :=
  events.foldl (step M) D

end DriverCluster

/-- An execution of drivers of the machine `M`, with every term and index of the
nodes below `u64::MAX` throughout. -/
structure DriverRun {S : Type} (M : StateMachine S) where
  voters : OrdSet NodeId
  starts : List Start
  events : List DriverEvent
  within : ∀ k ≤ ((DriverCluster.init M voters starts).exec M events).history.length,
    ((Cluster.init voters starts).exec
      (((DriverCluster.init M voters starts).exec M events).history.take k)).Within

namespace DriverRun

variable {S : Type} {M : StateMachine S}

/-- The drivers after the first `k` events. -/
def state (r : DriverRun M) (k : ℕ) : DriverCluster S :=
  (DriverCluster.init M r.voters r.starts).exec M (r.events.take k)

/-- After the first `k` events the driver of node `id` is `d`. -/
def Has (r : DriverRun M) (k : ℕ) (id : NodeId) (d : RaftDriver S) : Prop :=
  (r.state k).drivers.get? id = some d

end DriverRun

end Brokkr.Raft
