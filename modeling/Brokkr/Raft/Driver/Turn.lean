import Brokkr.Raft.Driver
import Brokkr.Raft.Safety

/-!
# What the driver of a node does in a turn

One specification for each part of a turn.  The bookkeeping never fails on a node
that holds its log (`NodeLog`), and whatever its steps preserve it preserves
(`RaftDriver.catchUp_rule`).

* `RaftDriver.handle_node` — serving an input makes one call on the node.
* `RaftDriver.catchUp_rule` — the loop that applies committed entries.
* `RaftDriver.postEvent_spec` — the bookkeeping as a whole.
* `RaftDriver.start_eq` — a restarted driver resumes from the snapshot.
-/

namespace Brokkr.Raft

open RaftNode

open Consensus

variable {l : List LogEntry} {n : RaftNode}

variable {S : Type} {M : StateMachine S} {d d' : RaftDriver S}

/-! ## Serving an input -/

namespace RaftDriver

@[simp] theorem reply_node (d : RaftDriver S) (caller : Caller) (r : Outcome) :
    (d.reply caller r).node = (Effect.ofOutcome r).node := by
  obtain ⟨n, _ | _⟩ := r <;> rfl

theorem serve_node (d : RaftDriver S) (caller : Caller) (now : Instant) (request : ClientCall) :
    (d.serve caller now request).node = (d.node.begin.run (.op (request.op now))).node := by
  cases request with
  | proposeCommitted command =>
    simp only [serve, run, runOp, ClientCall.op]
    obtain ⟨n, _ | _⟩ := d.node.begin.propose command now <;> rfl
  | readIndex =>
    simp only [serve, run, runOp, ClientCall.op]
    obtain ⟨n, _ | _⟩ := d.node.begin.startRead now <;> rfl
  | compact data =>
    simp only [serve, run, runOp, ClientCall.op]
    obtain ⟨n, _ | _⟩ := d.node.begin.compact data <;> rfl
  | _ => exact d.reply_node caller _

theorem receive_of_tolerable {call : Call} (d : RaftDriver S)
    (hcall : ∀ op, call = .op op → ∃ now, op = .tick now)
    (h : ∀ e, (d.node.begin.run call).error = some e → Tolerable call e) :
    d.receive call = ({ d with node := (d.node.begin.run call).node }, .ok ()) := by
  cases he : (d.node.begin.run call).error with
  | none => simp only [receive, he]
  | some e =>
    have ht := h e he
    cases call with
    | op op =>
      obtain ⟨now, rfl⟩ := hcall op rfl
      exact ht.elim
    | installSnapshot =>
      cases e with
      | snapshot => simp only [receive, he]
      | _ => exact ht.elim
    | _ => exact ht.elim

/-- What serving an input adds to the books of a driver. -/
inductive Handled (d : RaftDriver S) (caller : Caller) (action : DriverAction) :
    RaftDriver S → Prop
  | plain {d' : RaftDriver S} (waiters : d'.awaitingApply = d.awaitingApply)
      (reads : d'.readsAwaitingConfirm = d.readsAwaitingConfirm)
      (answers : d'.answers = d.answers ∨ ∃ result, (∀ i, result ≠ .ok (.index i)) ∧
        d'.answers = d.answers ++ [(caller, result)]) : Handled d caller action d'
  | reading {d' : RaftDriver S} {id : NodeId} {now : Instant} {ticket : ℕ}
      (asked : action = .client id .readIndex now)
      (waiters : d'.awaitingApply = d.awaitingApply)
      (reads : d'.readsAwaitingConfirm = d.readsAwaitingConfirm.insert ticket caller)
      (answers : d'.answers = d.answers) : Handled d caller action d'
  | proposing {d' : RaftDriver S} {id : NodeId} {command : Bytes} {now : Instant}
      {outs : List Outbound} (asked : action = .client id (.proposeCommitted command) now)
      (proposed : d.node.begin.propose command now = (d'.node, .ok outs))
      (waiters : d'.awaitingApply = d.awaitingApply ++
        [⟨d'.node.lastLogIndex, some d'.node.hard.currentTerm, caller⟩])
      (reads : d'.readsAwaitingConfirm = d.readsAwaitingConfirm)
      (answers : d'.answers = d.answers) : Handled d caller action d'

theorem Handled.reply (d : RaftDriver S) (caller : Caller) (action : DriverAction) (r : Outcome) :
    Handled d caller action (d.reply caller r) := by
  obtain ⟨n, e | outs⟩ := r
  · exact .plain rfl rfl (Or.inr ⟨.error e, by simp, rfl⟩)
  · exact .plain rfl rfl (Or.inr ⟨.ok .done, by simp, rfl⟩)

/-- **What serving an input adds.** -/
theorem handled (d : RaftDriver S) (caller : Caller) (action : DriverAction) (call : Call) :
    Handled d caller action (d.handle caller action call).1 := by
  have hreceive : Handled d caller action (d.receive call).1 := by
    simp only [receive]
    split <;> exact .plain rfl rfl (Or.inl rfl)
  cases action with
  | tick => exact hreceive
  | deliver => exact hreceive
  | client id request =>
    cases request with
    | compact =>
      simp only [handle, serve]
      split
      · exact .plain rfl rfl (Or.inr ⟨.ok (.snapshot _), by simp, rfl⟩)
      · exact .plain rfl rfl (Or.inr ⟨.error _, by simp, rfl⟩)
    | readIndex =>
      simp only [handle, serve]
      split
      · exact .reading rfl rfl rfl rfl
      · exact .plain rfl rfl (Or.inr ⟨.error _, by simp, rfl⟩)
    | proposeCommitted =>
      simp only [handle, serve]
      split
      · rename_i heq
        exact .proposing rfl heq rfl rfl rfl
      · exact .plain rfl rfl (Or.inr ⟨.error _, by simp, rfl⟩)
    | _ => exact .reply d caller _ _

/-! ## Waiters -/

@[simp] theorem resolveWaiters_node (d : RaftDriver S) (v) : (d.resolveWaiters v).node = d.node :=
  rfl

@[simp] theorem resolveWaiters_lastApplied (d : RaftDriver S) (v) :
    (d.resolveWaiters v).lastApplied = d.lastApplied := rfl

theorem mem_awaitingApply_resolveWaiters {v : AppliedWaiter → Option (Except RaftError Answer)}
    {w : AppliedWaiter} :
    w ∈ (d.resolveWaiters v).awaitingApply ↔ w ∈ d.awaitingApply ∧ v w = none := by
  simp [resolveWaiters]

theorem mem_answers_resolveWaiters {v : AppliedWaiter → Option (Except RaftError Answer)}
    {x : Caller × Except RaftError Answer} :
    x ∈ (d.resolveWaiters v).answers ↔
      x ∈ d.answers ∨ ∃ w ∈ d.awaitingApply, v w = some x.2 ∧ w.sender = x.1 := by
  obtain ⟨caller, result⟩ := x
  simp [resolveWaiters]

end RaftDriver

/-! ## The loop -/

/-- A node holds the log `l` above its snapshot, as far as it is committed. -/
structure NodeLog (l : List LogEntry) (n : RaftNode) : Prop where
  entries : ∀ {i}, n.log.db.snapshotIndex < i → n.log.db.get i = l[i - 1]?
  commit_le : n.commitIndex ≤ l.length
  bounded : n.commitIndex ≤ u64Max
  snapshot_le : n.log.db.snapshotIndex ≤ n.commitIndex
  cached : n.snapshotIndex = n.log.db.snapshotIndex

theorem MemberRel.nodeLog {voters : OrdSet NodeId} {a : AState} {id : NodeId} {m : Member}
    (h : MemberRel voters a id m) (hi : Inv (rules voters) a)
    (hw : m.node.lastLogIndex < u64Max) : NodeLog (a.log id) m.node where
  entries := h.node.get_eq
  commit_le := by
    rw [h.node.commit]
    exact hi.commit_le id
  bounded := by
    have := hi.commit_le id
    rw [h.node.lastLogIndex hi] at hw
    rw [h.node.commit]
    omega
  snapshot_le := by
    rw [h.node.commit]
    exact h.node.dur.snapshot_le
  cached := h.node.snapshotIndex_eq

namespace RaftDriver

theorem applyCommitted_rule (hn : NodeLog l n) (P : RaftDriver S → Prop)
    (hstep : ∀ d e, d.node = n → n.log.db.snapshotIndex ≤ d.lastApplied →
      d.lastApplied < n.commitIndex → l[d.lastApplied]? = some e → P d →
      P (d.applyEntry M (d.lastApplied + 1) e)) (turns : ℕ) (d : RaftDriver S) (hd : d.node = n)
    (hs : n.log.db.snapshotIndex ≤ d.lastApplied) (hle : d.lastApplied + turns = n.commitIndex)
    (hp : P d) :
    ∃ d', applyCommitted M turns d = (d', .ok ()) ∧ d'.node = n ∧
      d'.lastApplied = n.commitIndex ∧ P d' := by
  induction turns generalizing d with
  | zero => exact ⟨d, rfl, hd, by omega, hp⟩
  | succ turns ih =>
    have hlt : d.lastApplied < n.commitIndex := by omega
    have hnext : LogIndex.next d.lastApplied = d.lastApplied + 1 :=
      saturatingSucc_of_lt (hlt.trans_le hn.bounded)
    obtain ⟨e, hget⟩ : ∃ e, l[d.lastApplied]? = some e :=
      ⟨_, List.getElem?_eq_getElem (hlt.trans_le hn.commit_le)⟩
    have hentry : d.node.log.db.get (d.lastApplied + 1) = l[d.lastApplied]? := by
      rw [hd, hn.entries (by omega), Nat.add_sub_cancel]
    rw [applyCommitted, if_pos (by rw [hd]; exact hlt)]
    simp only [hnext, hentry, hget]
    exact ih _ hd (by simp [applyEntry]; omega) (by simp [applyEntry]; omega)
      (hstep d e hd hs hlt hget hp)

/-- **Catching up** never fails and leaves everything applied that is committed.
What the jump to an installed snapshot and the application of one entry preserve
holds at the end. -/
theorem catchUp_rule (hn : NodeLog l d.node) (hle : d.lastApplied ≤ d.node.commitIndex)
    (P : RaftDriver S → Prop) (hjump : d.lastApplied < d.node.log.db.snapshotIndex → ∀ info blob,
      d.node.log.db.snapshot = some (info, blob) →
      info.lastIncludedIndex = d.node.log.db.snapshotIndex →
      P (({ d with
      machine := M.restore d.machine blob
      lastApplied := info.lastIncludedIndex } : RaftDriver S).resolveWaiters
      (jumpVerdict info.lastIncludedIndex)))
    (hstay : d.node.log.db.snapshotIndex ≤ d.lastApplied → P d)
    (hstep : ∀ d' e, d'.node = d.node → d.node.log.db.snapshotIndex ≤ d'.lastApplied →
      d'.lastApplied < d.node.commitIndex → l[d'.lastApplied]? = some e → P d' →
      P (d'.applyEntry M (d'.lastApplied + 1) e)) :
    ∃ d', d.catchUp M = (d', .ok ()) ∧ d'.node = d.node ∧
      d'.lastApplied = d.node.commitIndex ∧ P d' := by
  have hs := hn.snapshot_le
  unfold catchUp restoreInstalled
  rw [hn.cached]
  split
  · rename_i hlt
    cases hsnap : d.node.log.db.snapshot with
    | none =>
      -- nothing was installed
      have : d.node.log.db.snapshotIndex = 0 := by rw [Db.snapshotIndex, hsnap]
      omega
    | some p =>
      obtain ⟨info, blob⟩ := p
      have hinfo : info.lastIncludedIndex = d.node.log.db.snapshotIndex := by
        rw [Db.snapshotIndex, hsnap]
      refine applyCommitted_rule hn P hstep _ _ rfl ?_ ?_ (hjump hlt info blob hsnap hinfo)
      · simp [hinfo]
      · simp only [resolveWaiters_node, resolveWaiters_lastApplied]
        omega
  · exact applyCommitted_rule hn P hstep _ d rfl (by omega) (by omega) (hstay (by omega))

theorem catchUp_induct (hn : NodeLog l d.node) (hle : d.lastApplied ≤ d.node.commitIndex)
    (hup : d.catchUp M = (d', .ok ())) (P : RaftDriver S → Prop)
    (hjump : d.lastApplied < d.node.log.db.snapshotIndex → ∀ info blob,
      d.node.log.db.snapshot = some (info, blob) →
      info.lastIncludedIndex = d.node.log.db.snapshotIndex →
      P (({ d with
      machine := M.restore d.machine blob
      lastApplied := info.lastIncludedIndex } : RaftDriver S).resolveWaiters
      (jumpVerdict info.lastIncludedIndex)))
    (hstay : d.node.log.db.snapshotIndex ≤ d.lastApplied → P d)
    (hstep : ∀ d' e, d'.node = d.node → d.node.log.db.snapshotIndex ≤ d'.lastApplied →
      d'.lastApplied < d.node.commitIndex → l[d'.lastApplied]? = some e → P d' →
      P (d'.applyEntry M (d'.lastApplied + 1) e)) : P d' := by
  obtain ⟨d'', heq, -, -, hp⟩ := catchUp_rule hn hle P hjump hstay hstep
  obtain rfl : d'' = d' := congrArg Prod.fst (heq.symm.trans hup)
  exact hp

theorem exists_catchUp (hn : NodeLog l d.node) (hle : d.lastApplied ≤ d.node.commitIndex) :
    ∃ d', d.catchUp M = (d', .ok ()) ∧ d'.node = d.node ∧ d'.lastApplied = d.node.commitIndex := by
  obtain ⟨d', hup, hnode, happlied, -⟩ := catchUp_rule (M := M) hn hle (fun _ => True)
    (fun _ _ _ _ _ => trivial) (fun _ => trivial) fun _ _ _ _ _ _ _ => trivial
  exact ⟨d', hup, hnode, happlied⟩

/-! ## The rest of the bookkeeping -/

end RaftDriver

/-- Call after call. -/
def RaftNode.runAll (n : RaftNode) (ops : List Op) : RaftNode :=
  ops.foldl (fun n op => (n.begin.run (.op op)).node) n

theorem RaftNode.runAll_append (n : RaftNode) (ops ops' : List Op) :
    n.runAll (ops ++ ops') = (n.runAll ops).runAll ops' := List.foldl_append

theorem NodeLog.termAt_commitIndex (hn : NodeLog l n) (h : n.log.db.snapshotIndex < n.commitIndex) :
    n.termAt n.commitIndex ≠ none := by
  have hle := hn.commit_le
  obtain ⟨e, he⟩ : ∃ e, l[n.commitIndex - 1]? = some e := ⟨_, List.getElem?_eq_getElem (by omega)⟩
  rw [termAt, hn.entries h, he]
  simp

namespace RaftDriver

/-- The calls on the node after catching up. -/
def closingCalls (M : StateMachine S) (d : RaftDriver S) : List Op :=
  (if d.node.needsSnapshot then [.compact (M.snapshot d.machine)] else []) ++ [.drainReadResults]

theorem autoCompact_spec (hn : NodeLog l d.node) :
    ∃ n, d.autoCompact M = ({ d with node := n }, .ok ()) ∧ n = d.node.runAll
        (if d.node.needsSnapshot then [.compact (M.snapshot d.machine)] else []) ∧
      n.commitIndex = d.node.commitIndex ∧ n.readResults = d.node.readResults := by
  unfold autoCompact
  split
  · rename_i hneeds
    have hlt : d.node.snapshotIndex < d.node.commitIndex := by
      simp only [needsSnapshot, decide_eq_true_eq] at hneeds
      omega
    simp only [RaftNode.runAll, List.foldl_cons, List.foldl_nil, run, runOp]
    rcases d.node.begin.compact_cases (M.snapshot d.machine) with ⟨hold, -⟩ | ⟨info, -, -, -, hc⟩
    · -- there is something to compact
      rcases hold with hold | hold
      · exact absurd hlt (Nat.not_lt.2 hold)
      · exact absurd hold (hn.termAt_commitIndex (hn.cached ▸ hlt))
    · rw [hc]
      exact ⟨_, rfl, rfl, rfl, rfl⟩
  · exact ⟨d.node, rfl, rfl, rfl, rfl⟩

/-- **The bookkeeping** never fails on a node that holds its log. -/
theorem postEvent_spec (hn : NodeLog l d'.node) (hup : d.catchUp M = (d', .ok ())) :
    ∃ n, n = d'.node.runAll (d'.closingCalls M) ∧ n.commitIndex = d'.node.commitIndex ∧
      d.postCalls M = d'.closingCalls M ∧
      d.postEvent M = (d'.node.readResults.foldl settleRead { d' with node := n }, .ok ()) := by
  obtain ⟨n, hc, hrun, hcommit, hreads⟩ := autoCompact_spec (M := M) hn
  refine ⟨(n.begin.drainReadResults).1, ?_, hcommit, ?_, ?_⟩
  · rw [closingCalls, RaftNode.runAll_append, ← hrun]
    rfl
  · simp only [postCalls, hup, hc, closingCalls]
  · simp only [postEvent, hup, hc, settleReads, ← hreads]
    rfl

/-! ## Settling reads -/

theorem settleRead_cases (d : RaftDriver S) (read : ℕ × Except RaftError ℕ) :
    d.settleRead read = d ∨ ∃ sender, d.readsAwaitingConfirm.get? read.1 = some sender ∧
      (d.settleRead read = { d with
          readsAwaitingConfirm := d.readsAwaitingConfirm.erase read.1 }.send sender
        (read.2.map Answer.index) ∨
      ∃ index, d.lastApplied < index ∧ d.settleRead read = { d with
        readsAwaitingConfirm := d.readsAwaitingConfirm.erase read.1
        awaitingApply := d.awaitingApply ++ [⟨index, none, sender⟩] }) := by
  obtain ⟨ticket, result⟩ := read
  unfold settleRead
  cases d.readsAwaitingConfirm.get? ticket with
  | none => exact .inl rfl
  | some sender =>
    refine .inr ⟨sender, rfl, ?_⟩
    cases result with
    | error => exact .inl rfl
    | ok index =>
      simp only
      split
      · exact .inl rfl
      · rename_i hlt
        exact .inr ⟨index, Nat.not_le.1 hlt, rfl⟩

theorem settled_rule (P : RaftDriver S → Prop)
    (hstep : ∀ d read, P d → P (d.settleRead read)) (reads : List (ℕ × Except RaftError ℕ))
    (d : RaftDriver S) (h : P d) : P (reads.foldl settleRead d) := by
  induction reads generalizing d with
  | nil => exact h
  | cons read reads ih => exact ih _ (hstep d read h)

theorem settled_eq (d : RaftDriver S) (reads : List (ℕ × Except RaftError ℕ)) :
    (reads.foldl settleRead d).node = d.node ∧ (reads.foldl settleRead d).machine = d.machine ∧
      (reads.foldl settleRead d).lastApplied = d.lastApplied := by
  refine settled_rule (fun d' => d'.node = d.node ∧ d'.machine = d.machine ∧
    d'.lastApplied = d.lastApplied) ?_ reads d ⟨rfl, rfl, rfl⟩
  intro d' read h
  rcases d'.settleRead_cases read with heq | ⟨_, _, heq | ⟨_, _, heq⟩⟩
  · rw [heq]
    exact h
  · rw [heq]
    exact h
  · rw [heq]
    exact h

/-! ## Starting -/

end RaftDriver

/-- A node that has just been started. -/
structure Fresh (n : RaftNode) : Prop where
  commits : n.log.commits = []
  readResults : n.readResults = []
  commitIndex : n.commitIndex = n.log.db.snapshotIndex
  cached : n.snapshotIndex = n.log.db.snapshotIndex

theorem fresh_withBootstrap (id : NodeId) (boot : ClusterConfig) (db : Db) (rng : Rng)
    (config : Config) (now : Instant) :
    Fresh (withBootstrap id boot { db := db } rng config now) := by
  obtain ⟨hard, log, snapshot⟩ := db
  refine ⟨rfl, rfl, ?_, ?_⟩ <;> cases snapshot <;> rfl

namespace RaftDriver

/-- A driver that has just read its snapshot. -/
def resumed (M : StateMachine S) (n : RaftNode)
    (answers : List (Caller × Except RaftError Answer)) : RaftDriver S where
  node := n
  machine := match n.log.db.snapshot with
    | some (_, blob) => M.restore M.init blob
    | none => M.init
  lastApplied := n.log.db.snapshotIndex
  answers := answers

/-- **A restarted driver resumes from the snapshot**; its bookkeeping finds
nothing to do. -/
theorem start_eq (h : Fresh n) (answers : List (Caller × Except RaftError Answer)) :
    start M n answers = (resumed M n answers, .ok ()) := by
  have hstart : start M n answers = (resumed M n answers).postEvent M := by
    unfold start resumed Db.snapshotIndex
    cases n.log.db.snapshot <;> rfl
  have hup : (resumed M n answers).catchUp M = (resumed M n answers, .ok ()) := by
    simp [catchUp, restoreInstalled, resumed, h.cached, h.commitIndex, applyCommitted]
  have hneeds : n.needsSnapshot = false := by
    simp [needsSnapshot, h.cached, h.commitIndex]
  have hnode : n.begin.drainReadResults = (n, []) := by
    rw [drainReadResults, begin, ← h.commits, ← h.readResults]
  rw [hstart, postEvent, hup]
  simp [autoCompact, settleReads, resumed, hneeds, hnode]

end RaftDriver

end Brokkr.Raft
