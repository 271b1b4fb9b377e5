import Brokkr.Raft.Driver.Turn

/-!
# Runs of drivers are runs of their nodes

The calls drivers make on their nodes form a run of the cluster, so everything
known about such runs holds of the nodes of drivers.

* `DriverRun.nodeRun`, `DriverRun.nodeRun_state` — the run of the nodes.
* `Served` — the drivers run on the nodes of the cluster, none has stopped, and
  all that is committed is applied.
* `DriverRun.Became`, `DriverRun.became` — what an event makes of a driver.
* `DriverRun.served` — `Served` holds throughout.
-/

namespace Brokkr.Raft

open RaftDriver

open Option

open OrdMap

open DriverCluster

open Consensus List

variable {call : Call} {origin : Option Packet}

variable {S : Type} {M : StateMachine S}

/-! ## Calls on one node -/

namespace Cluster

@[simp] theorem exec_nil (c : Cluster) : c.exec [] = c := rfl

@[simp] theorem exec_cons (c : Cluster) (e : Event) (es : List Event) :
    c.exec (e :: es) = (c.step e).exec es := rfl

theorem exec_append (c : Cluster) (es es' : List Event) :
    c.exec (es ++ es') = (c.exec es).exec es' := foldl_append

variable {c : Cluster} {id id' : NodeId} {m : Member}

theorem step_run {action : Action} (hr : c.resolve action = some (id, call, origin))
    (hm : c.members.get? id = some m) :
    c.step (.run action) = c.runOn id m call origin := by
  simp only [step, hr, hm]

theorem step_crash {action : Action} (hr : c.resolve action = some (id, call, origin))
    (hm : c.members.get? id = some m) (transactions : ℕ) (rng : Rng) (config : Config)
    (now : Instant) :
    c.step (.crash action transactions rng config now) =
      c.crashOn id m call origin transactions rng config now := by
  simp only [step, hr, hm]

theorem get?_step_of_ne {e : Event}
    (h : ∀ call origin, c.resolve e.action ≠ some (id, call, origin)) :
    (c.step e).members.get? id = c.members.get? id := by
  have hs := c.stepped e
  generalize c.step e = c' at hs
  cases hs with
  | idle => rfl
  | ran hr => exact get?_insert_of_ne _ _ fun hid => h _ _ (hid ▸ hr)
  | crashed hr => exact get?_insert_of_ne _ _ fun hid => h _ _ (hid ▸ hr)

theorem step_crash_fresh {action : Action} (hr : c.resolve action = some (id, call, origin))
    (hm : c.members.get? id = some m) (transactions : ℕ) (rng : Rng) (config : Config)
    (now : Instant) :
    ∃ m', (c.step (.crash action transactions rng config now)).members.get? id = some m' ∧
      Fresh m'.node := by
  rw [step_crash hr hm]
  exact ⟨_, get?_insert_self _ _ _, fresh_withBootstrap _ _ _ _ _ _⟩

theorem exec_ops (hm : c.members.get? id = some m) (ops : List Op) :
    (∃ m', (c.exec (ops.map fun op => .run (.op id op))).members.get? id = some m' ∧
      m'.node = m.node.runAll ops) ∧
    ∀ id', id' ≠ id → (c.exec (ops.map fun op => .run (.op id op))).members.get? id' =
      c.members.get? id' := by
  induction ops generalizing c m with
  | nil => exact ⟨⟨m, hm, rfl⟩, fun _ _ => rfl⟩
  | cons op ops ih =>
    have hop : c.resolve (.op id op) = some (id, .op op, none) := rfl
    obtain ⟨hself, hother⟩ := ih (c := c.step (.run (.op id op)))
      (by rw [step_run hop hm]; exact get?_insert_self _ _ _)
    refine ⟨hself, fun id' hne => (hother id' hne).trans (get?_step_of_ne ?_)⟩
    rintro call origin heq
    exact hne (congrArg Prod.fst (some.inj heq)).symm

end Cluster

/-! ## The run of the nodes -/

namespace DriverCluster

variable {D : DriverCluster S} {e : DriverEvent}

theorem step_nodes (D : DriverCluster S) (e : DriverEvent) :
    (D.step M e).nodes = D.nodes.exec (D.stepEvents M e) ∧
      (D.step M e).history = D.history ++ D.stepEvents M e := by
  unfold step stepEvents
  cases e with
  | turn =>
    simp only [DriverEvent.action]
    split
    · exact ⟨rfl, (append_nil _).symm⟩
    · exact ⟨rfl, rfl⟩
  | crash =>
    simp only [DriverEvent.action]
    split
    · exact ⟨rfl, (append_nil _).symm⟩
    · exact ⟨rfl, rfl⟩

end DriverCluster

namespace DriverRun

variable {r : DriverRun M} {k : ℕ} {e : DriverEvent}

theorem state_succ (r : DriverRun M) (he : r.events[k]? = some e) :
    r.state (k + 1) = (r.state k).step M e := by
  rw [state, state, take_add_one, he, exec, exec, foldl_append]
  rfl

theorem state_of_none (r : DriverRun M) (he : r.events[k]? = none) :
    r.state (k + 1) = r.state k := by
  have hk := List.getElem?_eq_none_iff.1 he
  rw [state, state, take_of_length_le hk, take_of_length_le (by omega)]

/-- The run of the nodes. -/
def nodeRun (r : DriverRun M) : Run where
  voters := r.voters
  starts := r.starts
  events := ((init M r.voters r.starts).exec M r.events).history
  within := r.within

/-- How many calls on nodes the first `k` events have made. -/
def moment (r : DriverRun M) (k : ℕ) : ℕ := (r.state k).history.length

/-- The calls on nodes that the event after moment `k` makes. -/
def callsAt (r : DriverRun M) (k : ℕ) : List Event :=
  match r.events[k]? with
  | some e => (r.state k).stepEvents M e
  | none => []

theorem state_succ_nodes (r : DriverRun M) (k : ℕ) :
    (r.state (k + 1)).nodes = (r.state k).nodes.exec (r.callsAt k) ∧
      (r.state (k + 1)).history = (r.state k).history ++ r.callsAt k := by
  unfold callsAt
  cases he : r.events[k]? with
  | none =>
    rw [r.state_of_none he]
    exact ⟨rfl, (append_nil _).symm⟩
  | some e =>
    rw [r.state_succ he]
    exact DriverCluster.step_nodes _ e

theorem moment_succ (r : DriverRun M) (k : ℕ) :
    r.moment (k + 1) = r.moment k + (r.callsAt k).length := by
  rw [moment, (r.state_succ_nodes k).2, length_append, moment]

theorem history_isPrefix (r : DriverRun M) {k k' : ℕ} (h : k ≤ k') :
    (r.state k).history <+: (r.state k').history := by
  induction k', h using Nat.le_induction with
  | base => exact List.prefix_rfl
  | succ k' _ ih =>
    rw [(r.state_succ_nodes k').2]
    exact ih.trans (List.prefix_append _ _)

theorem moment_mono (r : DriverRun M) {k k' : ℕ} (h : k ≤ k') : r.moment k ≤ r.moment k' :=
  (r.history_isPrefix h).length_le

theorem history_isPrefix_events (r : DriverRun M) (k : ℕ) :
    (r.state k).history <+: r.nodeRun.events := by
  have hfinal : r.nodeRun.events = (r.state r.events.length).history := by
    rw [state, take_length]
    rfl
  rw [hfinal]
  rcases Nat.le_total k r.events.length with hk | hk
  · exact r.history_isPrefix hk
  have hstate : r.state k = r.state r.events.length := by
    rw [state, state, take_length, take_of_length_le hk]
  rw [hstate]

theorem state_exec (r : DriverRun M) (k : ℕ) :
    (r.state k).nodes = (Cluster.init r.voters r.starts).exec (r.state k).history := by
  induction k with
  | zero => rfl
  | succ k ih =>
    obtain ⟨hnodes, hhist⟩ := r.state_succ_nodes k
    rw [hnodes, hhist, Cluster.exec_append, ← ih]

/-- **In the middle of an event** the nodes are in a state of their run. -/
theorem nodeRun_state_add (r : DriverRun M) {j : ℕ} (hj : j ≤ (r.callsAt k).length) :
    r.nodeRun.state (r.moment k + j) = (r.state k).nodes.exec ((r.callsAt k).take j) := by
  obtain ⟨rest, hrest⟩ := r.history_isPrefix_events (k + 1)
  rw [(r.state_succ_nodes k).2, append_assoc] at hrest
  rw [Run.state, ← hrest, moment, take_length_add_append, take_append_of_le_length hj,
    Cluster.exec_append, r.state_exec k]
  rfl

/-- **The nodes of the drivers** are in a state of their run. -/
theorem nodeRun_state (r : DriverRun M) (k : ℕ) :
    r.nodeRun.state (r.moment k) = (r.state k).nodes := by
  simpa using r.nodeRun_state_add (k := k) (Nat.zero_le _)

theorem nodeRun_events (r : DriverRun M) {j : ℕ} (hj : j < (r.callsAt k).length) :
    r.nodeRun.events[r.moment k + j]? = (r.callsAt k)[j]? := by
  obtain ⟨rest, hrest⟩ := r.history_isPrefix_events (k + 1)
  rw [(r.state_succ_nodes k).2, append_assoc] at hrest
  rw [← hrest, moment, getElem?_append_right (by omega), Nat.add_sub_cancel_left,
    getElem?_append_left hj]

end DriverRun

/-! ## Drivers on the nodes of the cluster -/

/-- The drivers run on the nodes of the cluster, every node has one, and they have
applied what is committed. -/
structure Served (D : DriverCluster S) : Prop where
  node : ∀ {id d}, D.drivers.get? id = some d →
    ∃ m, D.nodes.members.get? id = some m ∧ m.node = d.node
  running : ∀ {id m}, D.nodes.members.get? id = some m → ∃ d, D.drivers.get? id = some d
  applied : ∀ {id d}, D.drivers.get? id = some d → d.lastApplied = d.node.commitIndex

namespace RaftDriver

theorem handle_machine (d : RaftDriver S) (caller : Caller) (action : DriverAction) (call : Call) :
    (d.handle caller action call).1.machine = d.machine ∧
      (d.handle caller action call).1.lastApplied = d.lastApplied := by
  unfold handle
  split
  · rename_i request now
    cases request with
    | proposeCommitted => simp only [serve]; split <;> exact ⟨rfl, rfl⟩
    | readIndex => simp only [serve]; split <;> exact ⟨rfl, rfl⟩
    | compact => simp only [serve]; split <;> exact ⟨rfl, rfl⟩
    | _ => simp only [serve, reply]; split <;> exact ⟨rfl, rfl⟩
  · simp only [receive]
    split <;> exact ⟨rfl, rfl⟩

theorem handle_node {c : Cluster} {action : DriverAction} {id : NodeId}
    (hr : c.resolve action.action = some (id, call, origin)) (d : RaftDriver S) (caller : Caller) :
    (d.handle caller action call).1.node = (d.node.begin.run call).node := by
  unfold handle
  split
  · rename_i id' request now
    obtain ⟨-, rfl, -⟩ : id' = id ∧ Call.op (request.op now) = call ∧ none = origin := by
      simpa [DriverAction.action, Cluster.resolve] using hr
    exact d.serve_node caller now request
  · simp only [receive]
    split <;> rfl

theorem handle_ok {c : Cluster} {action : DriverAction} {id : NodeId}
    (hr : c.resolve action.action = some (id, call, origin)) (d : RaftDriver S) (caller : Caller)
    (h : ∀ e, (d.node.begin.run call).error = some e → Tolerable call e) :
    (d.handle caller action call).2 = .ok () := by
  cases action with
  | client => rfl
  | tick id' now =>
    obtain ⟨-, rfl, -⟩ : id' = id ∧ Call.op (.tick now) = call ∧ none = origin := by
      simpa [DriverAction.action, Cluster.resolve] using hr
    have hreceive := receive_of_tolerable d (by rintro op ⟨⟩; exact ⟨now, rfl⟩) h
    simp only [handle, hreceive]
  | deliver k now =>
    obtain ⟨p, -, hp⟩ := map_eq_some_iff.1 hr
    obtain ⟨-, rfl, -⟩ : (p.call now).1 = id ∧ (p.call now).2 = call ∧ some p = origin := by
      simpa using hp
    have hnot : ∀ op, (p.call now).2 = .op op → ∃ now, op = .tick now := by
      intro op hop
      cases p with
      | request src out => cases out <;> cases hop
      | _ => cases hop
    have hreceive := receive_of_tolerable d hnot h
    simp only [handle, hreceive]

end RaftDriver

namespace DriverRun

variable {r : DriverRun M} {chain : ℕ → AState} {k : ℕ} {id : NodeId} {action : DriverAction}
  {d d₁ d' : RaftDriver S} {m₁ : Member}

/-- A driver has served an input, and its bookkeeping is next. -/
structure Began (r : DriverRun M) (k : ℕ) (id : NodeId) (action : DriverAction) (call : Call)
    (origin : Option Packet) (d d₁ : RaftDriver S) (m₁ : Member) : Prop where
  resolved : (r.state k).nodes.resolve action.action = some (id, call, origin)
  before : r.Has k id d
  handled : d.handle (r.state k).clock action call = (d₁, .ok ())
  event : r.nodeRun.events[r.moment k]? = some (.run action.action)
  called : r.nodeRun.Has (r.moment k + 1) id m₁
  node : m₁.node = d₁.node

theorem began (hc : r.nodeRun.Refines chain) (hs : Served (r.state k))
    (hr : (r.state k).nodes.resolve action.action = some (id, call, origin)) (hd : r.Has k id d)
    {es : List Event} (hcalls : r.callsAt k = .run action.action :: es) :
    ∃ d₁ m₁, r.Began k id action call origin d d₁ m₁ := by
  obtain ⟨m, hm, hnode⟩ := hs.node hd
  have hpos : 0 < (r.callsAt k).length := by simp [hcalls]
  have hstate : r.nodeRun.state (r.moment k + 1) = (r.state k).nodes.runOn id m call origin := by
    rw [r.nodeRun_state_add hpos, hcalls, ← Cluster.step_run hr hm]
    rfl
  have hevent := r.nodeRun_events hpos
  have hrel := hc.rel (r.moment k)
  rw [r.nodeRun_state k] at hrel
  have hwithin := r.nodeRun.within_state (r.moment k)
  rw [r.nodeRun_state k] at hwithin
  obtain ⟨a', hran, -⟩ := hrel.call hwithin hm hr
  have hok := RaftDriver.handle_ok hr d (r.state k).clock (by
    rw [← hnode]
    exact hran.error)
  obtain ⟨m₁, hcalled, hnode₁⟩ : ∃ m₁, r.nodeRun.Has (r.moment k + 1) id m₁ ∧
      m₁.node = (m.node.begin.run call).node :=
    ⟨_, by rw [Run.Has, hstate]; exact get?_insert_self _ _ _, rfl⟩
  refine ⟨_, m₁, hr, hd, Prod.ext rfl hok, ?_, hcalled, ?_⟩
  · simpa [hcalls] using hevent
  · rw [RaftDriver.handle_node hr, ← hnode, hnode₁]

theorem Began.nodeLog (hc : r.nodeRun.Refines chain) (hs : Served (r.state k))
    (h : r.Began k id action call origin d d₁ m₁) :
    NodeLog ((chain (r.moment k + 1)).log id) d₁.node ∧ d₁.lastApplied ≤ d₁.node.commitIndex := by
  obtain ⟨m, hm, hnode⟩ := hs.node h.before
  have hlast := (r.nodeRun.within_state (r.moment k + 1)
    (id, m₁) (get?_eq_some.1 h.called)).2
  have hhas : r.nodeRun.Has (r.moment k) id m := by rw [Run.Has, r.nodeRun_state, hm]
  have hrel₁ := hc.member h.called
  have hle : (chain (r.moment k)).commit id ≤ (chain (r.moment k + 1)).commit id := by
    refine hc.commit_le (Nat.le_add_right (r.moment k) 1) fun j h1 h2 => ?_
    obtain rfl : j = r.moment k := by omega
    rw [Run.RestartsAt, h.event]
    simp [Cluster.restarts]
  rw [← (hc.member hhas).node.commit, ← hrel₁.node.commit, hnode, h.node] at hle
  refine ⟨h.node ▸ hrel₁.nodeLog (hc.inv _) hlast, ?_⟩
  have happlied := (d.handle_machine (r.state k).clock action call).2
  rw [h.handled] at happlied
  exact (happlied.trans (hs.applied h.before)).le.trans hle

/-- What an event makes of the driver of node `id`. -/
inductive Became (r : DriverRun M) (k : ℕ) (id : NodeId) : RaftDriver S → Prop
  | turned {action : DriverAction} {call : Call} {origin : Option Packet}
      {d d₁ d₂ : RaftDriver S} {m₁ : Member} {n : RaftNode}
      (event : r.events[k]? = some (.turn action))
      (began : r.Began k id action call origin d d₁ m₁)
      (caughtUp : d₁.catchUp M = (d₂, .ok ()))
      (calls : r.callsAt k =
        .run action.action :: (d₂.closingCalls M).map (fun op => .run (.op id op)))
      (commit : n.commitIndex = d₂.node.commitIndex) :
      Became r k id (d₂.node.readResults.foldl settleRead { d₂ with node := n })
  | crashed {action : DriverAction} {transactions : ℕ} {rng : Rng} {config : Config}
      {now : Instant} {call : Call} {origin : Option Packet} {d : RaftDriver S} {m : Member}
      (event : r.events[k]? = some (.crash action (.inCall transactions) rng config now))
      (resolved : (r.state k).nodes.resolve action.action = some (id, call, origin))
      (before : r.Has k id d)
      (calls : r.callsAt k = [.crash action.action transactions rng config now])
      (member : r.nodeRun.Has (r.moment (k + 1)) id m) (fresh : Fresh m.node) :
      Became r k id (resumed M m.node d.answers)
  | crashedLater {action : DriverAction} {compacted : Bool} {rng : Rng} {config : Config}
      {now : Instant} {call : Call} {origin : Option Packet} {d d₁ : RaftDriver S}
      {m₁ m : Member} {op : Op} {transactions : ℕ}
      (event : r.events[k]? = some (.crash action (.inPostEvent compacted) rng config now))
      (began : r.Began k id action call origin d d₁ m₁)
      (calls : r.callsAt k = [.run action.action, .crash (.op id op) transactions rng config now])
      (interrupted : op = (d₁.postCalls M).headD .drainReadResults)
      (member : r.nodeRun.Has (r.moment (k + 1)) id m) (fresh : Fresh m.node) :
      Became r k id (resumed M m.node (d₁.catchUp M).1.answers)

/-- An event changes nothing, or one driver and its node. -/
inductive Advanced (r : DriverRun M) (k : ℕ) : Prop
  | idle (drivers : (r.state (k + 1)).drivers = (r.state k).drivers)
      (nodes : (r.state (k + 1)).nodes = (r.state k).nodes)
  | moved (id : NodeId) (d : RaftDriver S) (m : Member) (became : r.Became k id d)
      (drivers : (r.state (k + 1)).drivers = (r.state k).drivers.insert id d)
      (member : (r.state (k + 1)).nodes.members.get? id = some m) (node : m.node = d.node)
      (applied : d.lastApplied = d.node.commitIndex)
      (others : ∀ id', id' ≠ id → (r.state (k + 1)).nodes.members.get? id' =
        (r.state k).nodes.members.get? id')

theorem Began.others (h : r.Began k id action call origin d d₁ m₁) {id' : NodeId}
    (hne : id' ≠ id) : ((r.state k).nodes.step (.run action.action)).members.get? id' =
      (r.state k).nodes.members.get? id' := by
  refine Cluster.get?_step_of_ne fun call' origin' heq => hne ?_
  exact (congrArg Prod.fst (some.inj (h.resolved.symm.trans heq))).symm

theorem serving_eq (hr : (r.state k).nodes.resolve action.action = some (id, call, origin))
    (hd : r.Has k id d) : (r.state k).serving action = some (id, call, d) := by
  simp only [serving, hr]
  exact congrArg (Option.map _) hd

theorem of_serving (h : (r.state k).serving action = some (id, call, d)) :
    ∃ origin, (r.state k).nodes.resolve action.action = some (id, call, origin) ∧ r.Has k id d := by
  unfold serving at h
  split at h
  · rename_i id' call' origin hr
    obtain ⟨d', hd', heq⟩ := map_eq_some_iff.1 h
    cases heq
    exact ⟨origin, hr, hd'⟩
  · cases h

/-- **A turn.** -/
theorem advanced_turn (hc : r.nodeRun.Refines chain) (hs : Served (r.state k))
    (he : r.events[k]? = some (.turn action))
    (hr : (r.state k).nodes.resolve action.action = some (id, call, origin))
    (hd : r.Has k id d) : r.Advanced k := by
  have hserving := serving_eq hr hd
  have hcalls : r.callsAt k = d.turnEvents M id (r.state k).clock action call := by
    simp only [callsAt, he, stepEvents, DriverEvent.action, hserving]
  obtain ⟨d₁, m₁, hb⟩ := began hc hs hr hd hcalls
  obtain ⟨hlog, hle⟩ := hb.nodeLog hc hs
  obtain ⟨d₂, hup, hnode₂, happlied⟩ := exists_catchUp (M := M) hlog hle
  rw [← hnode₂] at hlog
  obtain ⟨n, hn, hcommit, hpost, hevent⟩ := postEvent_spec hlog hup
  have hcalls' : r.callsAt k =
      .run action.action :: (d₂.closingCalls M).map (fun op => .run (.op id op)) := by
    simp only [hcalls, turnEvents, hb.handled, hpost]
  have hc₁ : r.nodeRun.state (r.moment k + 1) = (r.state k).nodes.step (.run action.action) := by
    rw [r.nodeRun_state_add (by simp [hcalls']), hcalls']
    rfl
  have hcalled := hb.called
  rw [Run.Has, hc₁] at hcalled
  obtain ⟨⟨m', hm', hnode'⟩, hothers⟩ := Cluster.exec_ops hcalled (d₂.closingCalls M)
  obtain ⟨hset₁, -, hset₃⟩ := settled_eq { d₂ with node := n } d₂.node.readResults
  have hnodes : (r.state (k + 1)).nodes = ((r.state k).nodes.step (.run action.action)).exec
      ((d₂.closingCalls M).map (fun op => .run (.op id op))) := by
    rw [(r.state_succ_nodes k).1, hcalls', Cluster.exec_cons]
  refine .moved id _ m' (.turned he hb hup hcalls' hcommit) ?_ (by rw [hnodes, hm']) ?_ ?_ ?_
  · rw [r.state_succ he]
    simp only [step, hserving, DriverCluster.after, turn, hb.handled, hevent, host]
  · rw [hset₁, hnode', hb.node, hn, hnode₂]
  · rw [hset₁, hset₃]
    exact happlied.trans ((congrArg RaftNode.commitIndex hnode₂).symm.trans hcommit.symm)
  · intro id' hne
    rw [hnodes, hothers id' hne, hb.others hne]

theorem restart_drivers {D : DriverCluster S} {events : List Event} {m : Member}
    (hm : (D.nodes.exec events).members.get? id = some m) (hf : Fresh m.node)
    (answers : List (Caller × Except RaftError Answer)) : (D.restart M id events answers).drivers =
      D.drivers.insert id (resumed M m.node answers) := by
  simp only [restart, hm, start_eq hf, host]

/-- **A crash in a call.** -/
theorem advanced_crash (hs : Served (r.state k)) {transactions : ℕ} {rng : Rng} {config : Config}
    {now : Instant} (he : r.events[k]? = some (.crash action (.inCall transactions) rng config now))
    (hr : (r.state k).nodes.resolve action.action = some (id, call, origin)) (hd : r.Has k id d) :
    r.Advanced k := by
  have hserving := serving_eq hr hd
  have hcalls : r.callsAt k = [.crash action.action transactions rng config now] := by
    simp only [callsAt, he, stepEvents, DriverEvent.action, hserving, crashEvents]
  have hnodes : (r.state (k + 1)).nodes =
      (r.state k).nodes.step (.crash action.action transactions rng config now) := by
    rw [(r.state_succ_nodes k).1, hcalls]
    rfl
  obtain ⟨m, hm, -⟩ := hs.node hd
  obtain ⟨m', hm', hf⟩ := Cluster.step_crash_fresh hr hm transactions rng config now
  rw [← hnodes] at hm'
  refine .moved id _ m' (.crashed he hr hd hcalls (by rw [Run.Has, r.nodeRun_state, hm']) hf) ?_
    hm' rfl hf.commitIndex.symm ?_
  · rw [r.state_succ he]
    simp only [step, hserving, crashAnswers, crashEvents]
    apply restart_drivers _ hf
    rw [← hm', hnodes]
    rfl
  · intro id' hne
    rw [hnodes]
    refine Cluster.get?_step_of_ne fun call' origin' heq => hne ?_
    exact (congrArg Prod.fst (some.inj (hr.symm.trans heq))).symm

/-- **A crash in the bookkeeping.** -/
theorem advanced_crash_later (hc : r.nodeRun.Refines chain) (hs : Served (r.state k))
    {compacted : Bool} {rng : Rng} {config : Config} {now : Instant}
    (he : r.events[k]? = some (.crash action (.inPostEvent compacted) rng config now))
    (hr : (r.state k).nodes.resolve action.action = some (id, call, origin))
    (hd : r.Has k id d) : r.Advanced k := by
  have hserving := serving_eq hr hd
  obtain ⟨op, transactions, hcalls, hop⟩ : ∃ op transactions,
      r.callsAt k = [.run action.action, .crash (.op id op) transactions rng config now] ∧
      op = ((d.handle (r.state k).clock action call).1.postCalls M).headD .drainReadResults := by
    refine ⟨_, if compacted then 1 else 0, ?_, rfl⟩
    simp only [callsAt, he, stepEvents, DriverEvent.action, hserving, crashEvents]
  obtain ⟨d₁, m₁, hb⟩ := began hc hs hr hd hcalls
  have hc₁ : r.nodeRun.state (r.moment k + 1) = (r.state k).nodes.step (.run action.action) := by
    rw [r.nodeRun_state_add (by simp [hcalls]), hcalls]
    rfl
  have hcalled := hb.called
  rw [Run.Has, hc₁] at hcalled
  have hnodes : (r.state (k + 1)).nodes = ((r.state k).nodes.step (.run action.action)).step
      (.crash (.op id op) transactions rng config now) := by
    rw [(r.state_succ_nodes k).1, hcalls]
    rfl
  have hresolve : ∀ c : Cluster, c.resolve (.op id op) = some (id, .op op, none) := fun _ => rfl
  obtain ⟨m', hm', hf⟩ := Cluster.step_crash_fresh (hresolve _) hcalled transactions rng config now
  rw [← hnodes] at hm'
  rw [hb.handled] at hop
  refine .moved id _ m' (.crashedLater he hb hcalls hop
    (by rw [Run.Has, r.nodeRun_state, hm']) hf) ?_ hm' rfl hf.commitIndex.symm ?_
  · have hevents : (r.state k).stepEvents M
        (.crash action (.inPostEvent compacted) rng config now) = r.callsAt k := by
      simp only [callsAt, he]
    simp only [stepEvents, DriverEvent.action, hserving] at hevents
    rw [r.state_succ he]
    simp only [step, hserving, crashAnswers, hb.handled, hevents]
    apply restart_drivers _ hf
    rw [← (r.state_succ_nodes k).1, hm']
  · intro id' hne
    rw [hnodes, Cluster.get?_step_of_ne, hb.others hne]
    intro call' origin' heq
    exact hne (congrArg Prod.fst (some.inj heq)).symm

/-- **What an event does.** -/
theorem advanced (hc : r.nodeRun.Refines chain) (hs : Served (r.state k)) : r.Advanced k := by
  cases he : r.events[k]? with
  | none =>
    have hstate := r.state_of_none he
    exact .idle (by rw [hstate]) (by rw [hstate])
  | some e =>
    cases hserving : (r.state k).serving e.action with
    | none =>
      have hstate : r.state (k + 1) = (r.state k).idle := by
        rw [r.state_succ he]
        cases e <;> simp only [step, DriverEvent.action] at hserving ⊢ <;>
          simp only [hserving]
      exact .idle (by rw [hstate]; rfl) (by rw [hstate]; rfl)
    | some served =>
      obtain ⟨origin, hr, hd⟩ := of_serving hserving
      match e, he, hr with
      | .turn action, he, hr => exact advanced_turn hc hs he hr hd
      | .crash action (.inCall transactions) rng config now, he, hr =>
        exact advanced_crash hs he hr hd
      | .crash action (.inPostEvent compacted) rng config now, he, hr =>
        exact advanced_crash_later hc hs he hr hd

/-! ## Drivers never stop -/

theorem Advanced.served (h : r.Advanced k) (hs : Served (r.state k)) :
    Served (r.state (k + 1)) := by
  cases h with
  | idle drivers nodes =>
    constructor
    · rw [drivers, nodes]; exact hs.node
    · rw [drivers, nodes]; exact hs.running
    · rw [drivers]; exact hs.applied
  | moved id d m became drivers member node applied others =>
    constructor
    · intro id' d' hd'
      rw [drivers] at hd'
      by_cases hid : id' = id
      · subst hid
        rw [get?_insert_self] at hd'
        obtain rfl := some.inj hd'
        exact ⟨m, member, node⟩
      · rw [get?_insert_of_ne _ _ hid] at hd'
        rw [others id' hid]
        exact hs.node hd'
    · intro id' m' hm'
      rw [drivers]
      by_cases hid : id' = id
      · subst hid
        exact ⟨d, get?_insert_self _ _ _⟩
      rw [get?_insert_of_ne _ _ hid]
      rw [others id' hid] at hm'
      exact hs.running hm'
    · intro id' d' hd'
      rw [drivers] at hd'
      by_cases hid : id' = id
      · subst hid
        rw [get?_insert_self] at hd'
        obtain rfl := some.inj hd'
        exact applied
      · rw [get?_insert_of_ne _ _ hid] at hd'
        exact hs.applied hd'

theorem get?_init (voters : OrdSet NodeId) (starts : List Start) (id : NodeId) :
    (init M voters starts).drivers.get? id = ((Cluster.init voters starts).members.get? id).map
        fun m => resumed M m.node [] := by
  rw [init, Cluster.init]
  induction starts using reverseRecOn with
  | nil => rfl
  | append_singleton starts s ih =>
    simp only [foldl_append, foldl_cons, foldl_nil,
      start_eq (fresh_withBootstrap _ _ _ _ _ _), host,
      get?_insert]
    split
    · rfl
    · exact ih

theorem served_init (voters : OrdSet NodeId) (starts : List Start) :
    Served (init M voters starts) := by
  have hstarted : ∀ {id d}, (init M voters starts).drivers.get? id = some d →
      ∃ m, (Cluster.init voters starts).members.get? id = some m ∧ resumed M m.node [] = d := by
    intro id d hd
    rw [get?_init] at hd
    exact map_eq_some_iff.1 hd
  constructor
  · intro id d hd
    obtain ⟨m, hm, rfl⟩ := hstarted hd
    exact ⟨m, hm, rfl⟩
  · intro id m hm
    exact ⟨_, (get?_init voters starts id).trans (congrArg _ hm)⟩
  intro id d hd
  obtain ⟨m, hm, rfl⟩ := hstarted hd
  obtain ⟨s, -, rfl, rfl⟩ := Cluster.get?_init hm
  exact (fresh_withBootstrap s.id (bootstrapOf voters s.id) {} s.rng s.config
    s.now).commitIndex.symm

/-- **No driver stops**, and whenever a driver waits for the next input it has
applied all that its node knows to be committed. -/
theorem served (hc : r.nodeRun.Refines chain) (k : ℕ) : Served (r.state k) := by
  induction k with
  | zero => exact served_init r.voters r.starts
  | succ k ih => exact (advanced hc ih).served ih

/-- **A driver after an event**: the driver before it, or what the event made of it. -/
theorem became (hc : r.nodeRun.Refines chain) (hd : r.Has (k + 1) id d) :
    r.Has k id d ∨ r.Became k id d := by
  cases advanced hc (served hc k) with
  | idle drivers => exact .inl (by rw [Has, ← drivers]; exact hd)
  | moved id' d' m became drivers =>
    rw [Has, drivers] at hd
    rcases of_get?_insert hd with ⟨hid, rfl⟩ | ⟨-, hd⟩
    · exact .inr (hid ▸ became)
    · exact .inl hd

end DriverRun

/-! ## A run to look at -/

namespace Sample

/-- The machine that concatenates the commands. -/
def machine : StateMachine Bytes where
  init := []
  apply s e :=
    match e.payload with
    | .command bytes => s ++ bytes
    | _ => s
  snapshot s := s
  restore _ blob := blob

/-- The timer of a driver fires, at a moment in milliseconds. -/
def timer (id : NodeId) (now : ℕ) : DriverEvent := .turn (.tick id (Duration.fromMillis now))

/-- Packet number `k` arrives at its driver. -/
def receive (k now : ℕ) : DriverEvent := .turn (.deliver k (Duration.fromMillis now))

/-- A client calls a driver. -/
def ask (id : NodeId) (request : ClientCall) (now : ℕ) : DriverEvent :=
  .turn (.client id request (Duration.fromMillis now))

/-- `a` is elected and asked to commit a command; `b` helps, and applies it, too. -/
def driverRun : DriverRun machine where
  voters := voters
  starts := starts
  events := [timer a 1000, receive 0 1001, receive 2 1002, ask a (.proposeCommitted [7]) 1003,
    receive 5 1004, receive 7 1005, timer a 1060, receive 8 1061]
  within := by decide +kernel

end Sample

theorem DriverRun.exists_has (r : DriverRun M) (k : ℕ) (id : NodeId) (P : RaftDriver S → Bool)
    (h : ((r.state k).drivers.get? id).any P = true) : ∃ d, r.Has k id d ∧ P d = true :=
  (any_eq_true _ _).1 h

end Brokkr.Raft
