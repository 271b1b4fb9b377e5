import Brokkr.Raft.Driver.Runs
import Brokkr.Raft.Reads.Calls

/-!
# The state machine of a driver

A driver brings its machine to a state in three ways: it applies entry after
entry, it restores a snapshot of its own at a restart, and it restores one that a
leader has sent.  Each time the machine ends in the state after the entries of the
log up to what is applied.

* `StateMachine.after` — the state after some entries.
* `Blobs` — every snapshot that is stored or on its way is one of the state after
  the entries it stands for.
* `DriverRun.Applied` — the machine of a driver is in the state after what it has
  applied.
* `machine_after_committed` — and that is what the cluster has committed.
-/

namespace Brokkr.Raft

open Consensus List

variable {S : Type} {M : StateMachine S}

/-- The state after some entries. -/
def StateMachine.after (M : StateMachine S) (entries : List LogEntry) : S :=
  entries.foldl M.apply M.init

@[simp] theorem StateMachine.after_nil (M : StateMachine S) : M.after [] = M.init := rfl

@[simp] theorem StateMachine.after_concat (M : StateMachine S) (entries : List LogEntry)
    (e : LogEntry) : M.after (entries ++ [e]) = M.apply (M.after entries) e := by
  simp [after]

/-! ## Snapshots -/

/-- The snapshot in a database, if any, is that of the state after the entries. -/
def Db.Stores (M : StateMachine S) (entries : List LogEntry) (db : Db) : Prop :=
  ∀ info blob, db.snapshot = some (info, blob) → blob = M.snapshot (M.after entries)

/-- Every snapshot is one of the state after the entries it stands for. -/
structure Blobs (M : StateMachine S) (c : Cluster) : Prop where
  members : ∀ {id m}, c.members.get? id = some m → m.node.log.db.Stores M m.covered
  sent : ∀ {src peer request covered},
    Packet.request src (.installSnapshot peer request) covered ∈ c.sent →
      request.data = M.snapshot (M.after covered)

/-- A compaction is given the snapshot of the state after all that is committed. -/
def Cluster.CompactsRightly (M : StateMachine S) (c : Cluster) (e : Event) : Prop :=
  ∀ id data m, e.action = .op id (.compact data) → c.members.get? id = some m →
    data = M.snapshot (M.after (m.coveredUpTo none m.node.commitIndex))

namespace Blobs

variable {c : Cluster} {a : AState} {id : NodeId} {m : Member} {call : Call}
  {origin : Option Packet} {action : Action} {db : Db}

theorem init (voters : OrdSet NodeId) (starts : List Start) :
    Blobs M (Cluster.init voters starts) where
  members := by
    intro id m hm info blob hsnap
    obtain ⟨s, -, -, rfl⟩ := Cluster.get?_init hm
    cases hsnap
  sent h := absurd h not_mem_nil

variable (hb : Blobs M c)

include hb

theorem stores_of_same (hm : c.members.get? id = some m)
    (origin : Option Packet) (hdb : db.snapshot = m.node.log.db.snapshot) :
    db.Stores M (m.coveredUpTo origin db.snapshotIndex) := by
  have hindex : db.snapshotIndex = m.node.log.db.snapshotIndex := by
    rw [Db.snapshotIndex, Db.snapshotIndex, hdb]
  have hcov : m.coveredUpTo origin db.snapshotIndex = m.covered := by
    simp [Member.coveredUpTo, hindex]
  rw [hcov]
  intro info blob hsnap
  exact hb.members hm info blob (hdb ▸ hsnap)

variable (hrel : ClusterRel a c)

include hrel

theorem stores_of_run (hw : c.Within)
    (hm : c.members.get? id = some m) (hr : c.resolve action = some (id, call, origin))
    (hdata : ∀ data, action = .op id (.compact data) →
      data = M.snapshot (M.after (m.coveredUpTo none m.node.commitIndex)))
    (hdb : db.snapshot = (m.node.begin.run call).node.log.db.snapshot) :
    db.Stores M (m.coveredUpTo origin db.snapshotIndex) := by
  have hterm := (hw (id, m) (OrdMap.get?_eq_some.1 hm)).1
  have hcached := (hrel.members hm).node.snapshotIndex_eq
  have heffect := m.node.begin.run_effect hterm call
  cases heffect with
  | steady _ snapshot same =>
    exact hb.stores_of_same hm origin (hdb.trans (snapshot.trans same.snapshot).last)
  | @installed request now _ _ fresh snapshot =>
    -- only a packet can bring a snapshot
    obtain ⟨j, src, covered, -, hget, rfl⟩ := Cluster.of_resolve_installSnapshot hr
    have hmem := mem_of_getElem? hget
    rw [snapshot.last] at hdb
    have hindex : db.snapshotIndex = request.lastIncludedIndex := by
      rw [Db.snapshotIndex, hdb]
      rfl
    have hne : db.snapshotIndex ≠ m.node.log.db.snapshotIndex := by
      have : m.node.snapshotIndex < request.lastIncludedIndex := fresh
      omega
    rw [Member.coveredUpTo, if_neg hne]
    intro info blob hsnap
    rw [hdb] at hsnap
    cases hsnap
    exact hb.sent hmem
  | @compacted data _ info index _ snapshot =>
    obtain ⟨rfl, haction⟩ : origin = none ∧ action = .op id (.compact data) := by
      cases action with
      | op =>
        cases hr
        exact ⟨rfl, rfl⟩
      | deliver =>
        obtain ⟨p, hp, hcall⟩ := Option.map_eq_some_iff.1 hr
        cases p with
        | request src out => cases out <;> cases hcall
        | _ => cases hcall
    rw [snapshot.last] at hdb
    have hindex : db.snapshotIndex = m.node.commitIndex := by
      rw [Db.snapshotIndex, hdb]
      exact index
    intro info' blob hsnap
    rw [hdb] at hsnap
    cases hsnap
    rw [hindex]
    exact hdata data haction

theorem runOn (hw : c.Within)
    (hm : c.members.get? id = some m) (hr : c.resolve action = some (id, call, origin))
    (hdata : ∀ data, action = .op id (.compact data) →
      data = M.snapshot (M.after (m.coveredUpTo none m.node.commitIndex))) :
    Blobs M (c.runOn id m call origin) := by
  have hstores := hb.stores_of_run hrel hw hm hr hdata rfl
  have hsent := (m.node.begin.run_effect (hw (id, m) (OrdMap.get?_eq_some.1 hm)).1 call).sent
  constructor
  · intro id' m' hm'
    rcases OrdMap.of_get?_insert hm' with ⟨-, rfl⟩ | ⟨-, hget⟩
    · exact hstores
    · exact hb.members hget
  intro src peer request covered hmem
  rcases Cluster.request_of_runOn hmem with hmem | ⟨-, hout, rfl⟩
  · exact hb.sent hmem
  · obtain ⟨info, hsnap⟩ := hsent.blob hout
    exact hstores info _ hsnap

theorem crashOn (hw : c.Within)
    (hm : c.members.get? id = some m) (hr : c.resolve action = some (id, call, origin))
    (hdata : ∀ data, action = .op id (.compact data) →
      data = M.snapshot (M.after (m.coveredUpTo none m.node.commitIndex)))
    (transactions : ℕ) (rng : Rng) (config : Config) (now : Instant) :
    Blobs M (c.crashOn id m call origin transactions rng config now) := by
  have heffect := m.node.begin.run_effect (hw (id, m) (OrdMap.get?_eq_some.1 hm)).1 call
  have hstores : ∀ db : Db, db.snapshot = m.node.log.db.snapshot ∨
      db.snapshot = (m.node.begin.run call).node.log.db.snapshot →
      db.Stores M (m.coveredUpTo origin db.snapshotIndex) := fun db hdb =>
    hdb.elim (hb.stores_of_same hm origin) (hb.stores_of_run hrel hw hm hr hdata)
  constructor
  · intro id' m' hm'
    rcases OrdMap.of_get?_insert hm' with ⟨-, rfl⟩ | ⟨-, hget⟩
    · refine hstores (Cluster.crashedDb m.node.log.db (m.node.begin.run call).node.log
        transactions) ?_
      rw [Cluster.crashedDb]
      cases hdb : (m.node.log.db :: (m.node.begin.run call).node.log.commits)[transactions]? with
      | none => exact .inr rfl
      | some =>
        rcases mem_cons.1 (mem_of_getElem? hdb) with rfl | hmem
        · exact .inl rfl
        · exact (heffect.trail hmem).resolve_left not_mem_nil
    · exact hb.members hget
  · exact hb.sent

/-- **Snapshots stay true** through every step of the cluster. -/
theorem step (hw : c.Within) {e : Event}
    (hdata : c.CompactsRightly M e) : Blobs M (c.step e) := by
  have hs := c.stepped e
  generalize c.step e = c' at hs
  cases hs with
  | idle => exact hb
  | ran hr hm => exact hb.runOn hrel hw hm hr fun data haction => hdata _ data _ haction hm
  | crashed hr hm =>
    exact hb.crashOn hrel hw hm hr (fun data haction => hdata _ data _ haction hm) _ _ _ _

end Blobs

/-! ## Machines -/

/-- Does the event restart the driver of node `id`? -/
def DriverCluster.crashes (D : DriverCluster S) (id : NodeId) : DriverEvent → Bool
  | .turn _ => false
  | .crash action .. => decide ((D.nodes.resolve action.action).map Prod.fst = some id)

theorem MemberRel.compactsRightly {c : Cluster} {voters : OrdSet NodeId} {a : AState}
    {id : NodeId} {m : Member} {e : Event} (h : MemberRel voters a id m)
    (hi : Inv (rules voters) a) (hm : c.members.get? id = some m)
    (hdata : ∀ id' data, e.action = .op id' (.compact data) →
      id' = id ∧ data = M.snapshot (M.after ((a.log id).take m.node.commitIndex))) :
    c.CompactsRightly M e := by
  intro id' data m' haction hm'
  obtain ⟨rfl, hdata⟩ := hdata id' data haction
  obtain rfl := Option.some.inj (hm.symm.trans hm')
  rw [h.coveredUpTo_commit hi]
  exact hdata

theorem Run.Refines.take_eq {r : Run} {chain : ℕ → AState} (hc : r.Refines chain) {k₁ k₂ i : ℕ}
    {id : NodeId} (hk : k₁ ≤ k₂) (hi : i ≤ (chain k₁).commit id) :
    ((chain k₂).log id).take i = ((chain k₁).log id).take i := by
  have hlen := (hc.inv k₁).commit_le id
  have hpre := hc.kept hk ((hc.inv k₁).commit_committed id) (List.take_prefix _ _)
  have htake := (List.prefix_iff_eq_take.1 hpre).symm
  rw [length_take, Nat.min_eq_left hlen] at htake
  have := congrArg (List.take i) htake
  rwa [take_take, take_take, Nat.min_eq_left hi] at this

namespace DriverRun

variable {r : DriverRun M} {chain : ℕ → AState} {k : ℕ} {id : NodeId} {action : DriverAction}
  {call : Call} {origin : Option Packet} {d d₁ d₂ : RaftDriver S} {m₁ m : Member}

/-- A client that asks for a compaction hands in the snapshot of the machine. -/
def CompactsItsMachine (r : DriverRun M) : Prop :=
  ∀ {k e id data now d}, r.events[k]? = some e → e.action = .client id (.compact data) now →
    r.Has k id d → data = M.snapshot d.machine

/-- The machines are in the state after what is applied, and all snapshots are true. -/
structure Applied (r : DriverRun M) (chain : ℕ → AState) (k : ℕ) : Prop where
  blobs : Blobs M (r.state k).nodes
  machine : ∀ {id d}, r.Has k id d →
    d.machine = M.after (((chain (r.moment k)).log id).take d.lastApplied)

theorem has_node (hc : r.nodeRun.Refines chain) (hd : r.Has k id d) :
    ∃ m, r.nodeRun.Has (r.moment k) id m ∧ m.node = d.node ∧
      d.lastApplied = (chain (r.moment k)).commit id := by
  have hs := served hc k
  obtain ⟨m, hm, hnode⟩ := hs.node hd
  have hhas : r.nodeRun.Has (r.moment k) id m := by rw [Run.Has, r.nodeRun_state, hm]
  refine ⟨m, hhas, hnode, ?_⟩
  rw [hs.applied hd, ← hnode, (hc.member hhas).node.commit]

theorem blobs_from (j₀ : ℕ) (hc : r.nodeRun.Refines chain)
    (hb : Blobs M (r.nodeRun.state (r.moment k + j₀)))
    (hdata : ∀ j e, j₀ ≤ j → (r.callsAt k)[j]? = some e →
      (r.nodeRun.state (r.moment k + j)).CompactsRightly M e) {j : ℕ} (h₀ : j₀ ≤ j)
    (hj : j ≤ (r.callsAt k).length) : Blobs M (r.nodeRun.state (r.moment k + j)) := by
  induction j, h₀ using Nat.le_induction with
  | base => exact hb
  | succ j hj₀ ih =>
    obtain ⟨e, he⟩ : ∃ e, (r.callsAt k)[j]? = some e := ⟨_, getElem?_eq_getElem hj⟩
    rw [← Nat.add_assoc, r.nodeRun.state_succ ((r.nodeRun_events hj).trans he)]
    exact (ih (by omega)).step (hc.rel _) (r.nodeRun.within_state _) (hdata j e hj₀ he)

theorem Applied.first (ha : r.Applied chain k) (hc : r.nodeRun.Refines chain)
    (hcompact : r.CompactsItsMachine) {e : DriverEvent} (he : r.events[k]? = some e)
    (hr : (r.state k).nodes.resolve e.action.action = some (id, call, origin))
    (hd : r.Has k id d) {e' : Event} (he' : e'.action = e.action.action) :
    (r.nodeRun.state (r.moment k)).CompactsRightly M e' := by
  obtain ⟨m, hm, hnode, happlied⟩ := has_node hc hd
  refine (hc.member hm).compactsRightly (hc.inv _) hm fun id' data haction => ?_
  rw [he'] at haction
  obtain ⟨now, hclient⟩ : ∃ now, e.action = .client id' (.compact data) now := by
    cases haction' : e.action with
    | client id₁ request now =>
      rw [haction'] at haction
      cases request <;> cases haction
      exact ⟨now, rfl⟩
    | _ => rw [haction'] at haction; cases haction
  rw [haction] at hr
  cases hr
  refine ⟨rfl, ?_⟩
  rw [hcompact he hclient hd, ha.machine hd, happlied, (hc.member hm).node.commit]

theorem Began.blobs (h : r.Began k id action call origin d d₁ m₁) (ha : r.Applied chain k)
    (hc : r.nodeRun.Refines chain) (hcompact : r.CompactsItsMachine) {e : DriverEvent}
    (he : r.events[k]? = some e) (haction : e.action = action) :
    Blobs M (r.nodeRun.state (r.moment k + 1)) := by
  rw [r.nodeRun.state_succ h.event]
  refine Blobs.step ?_ (hc.rel _) (r.nodeRun.within_state _) ?_
  · rw [r.nodeRun_state]
    exact ha.blobs
  · exact ha.first hc hcompact he (haction ▸ h.resolved) h.before (by rw [haction]; rfl)

/-- **Catching up** brings the machine to the state after all that is committed. -/
theorem Began.machine (hM : ∀ s s', M.restore s (M.snapshot s') = s')
    (h : r.Began k id action call origin d d₁ m₁) (ha : r.Applied chain k)
    (hc : r.nodeRun.Refines chain) (hb : Blobs M (r.nodeRun.state (r.moment k + 1)))
    (hup : d₁.catchUp M = (d₂, .ok ())) :
    d₂.lastApplied = (chain (r.moment k + 1)).commit id ∧
      d₂.machine = M.after (((chain (r.moment k + 1)).log id).take d₂.lastApplied) := by
  obtain ⟨hlog, hle⟩ := h.nodeLog hc (served hc k)
  have hrel := hc.member h.called
  obtain ⟨d', hd', -, happlied⟩ := RaftDriver.exists_catchUp (M := M) hlog hle
  obtain rfl : d' = d₂ := congrArg Prod.fst (hd'.symm.trans hup)
  refine ⟨by rw [happlied, ← h.node, hrel.node.commit], ?_⟩
  refine RaftDriver.catchUp_induct hlog hle hup (fun d' => d'.machine =
    M.after (((chain (r.moment k + 1)).log id).take d'.lastApplied)) ?_ ?_ ?_
  · -- the jump to an installed snapshot
    intro _ info blob hsnap hindex
    have hblob := hb.members h.called info blob (by rw [h.node, hsnap])
    have hcov : m₁.covered = _ := hrel.node.dur.covered
    rw [h.node, ← hindex] at hcov
    rw [hblob, hM, hcov]
    rfl
  · -- what was applied before is still in the log
    intro _
    obtain ⟨hmach, hlast⟩ := RaftDriver.handle_machine d (r.state k).clock action call
    rw [h.handled] at hmach hlast
    obtain ⟨m, hm, -, happlied⟩ := has_node hc h.before
    rw [show d₁.machine = d.machine from hmach, show d₁.lastApplied = d.lastApplied from hlast,
      ha.machine h.before, hc.take_eq (Nat.le_add_right _ 1) happlied.le]
  · -- one more entry
    intro d' e _ _ _ hget ih
    show M.apply d'.machine e = M.after (List.take (d'.lastApplied + 1) _)
    rw [take_add_one, hget, ih]
    exact (StateMachine.after_concat M _ e).symm

theorem resumed_machine (hM : ∀ s s', M.restore s (M.snapshot s') = s')
    (hc : r.nodeRun.Refines chain) (hb : Blobs M (r.nodeRun.state k))
    (hm : r.nodeRun.Has k id m) (answers : List (Caller × Except RaftError Answer)) :
    (RaftDriver.resumed M m.node answers).machine =
      M.after (((chain k).log id).take m.node.log.db.snapshotIndex) := by
  have hcov : m.covered = _ := (hc.member hm).node.dur.covered
  cases hsnap : m.node.log.db.snapshot with
  | none =>
    have hzero : m.node.log.db.snapshotIndex = 0 := by rw [Db.snapshotIndex, hsnap]
    rw [hzero, take_zero]
    simp only [RaftDriver.resumed, hsnap, StateMachine.after_nil]
  | some p =>
    obtain ⟨info, blob⟩ := p
    simp only [RaftDriver.resumed, hsnap]
    rw [hb.members hm info blob hsnap, hM, hcov]

theorem Began.closing (h : r.Began k id action call origin d d₁ m₁) (hc : r.nodeRun.Refines chain)
    (happlied : d₂.lastApplied = (chain (r.moment k + 1)).commit id)
    (hmachine : d₂.machine = M.after (((chain (r.moment k + 1)).log id).take d₂.lastApplied))
    {op : Op} (hop : op ∈ d₂.closingCalls M) {e : Event} (he : e.action = .op id op) :
    (r.nodeRun.state (r.moment k + 1)).CompactsRightly M e := by
  have hrel := hc.member h.called
  refine hrel.compactsRightly (hc.inv _) h.called fun id' data haction => ?_
  rw [he] at haction
  cases haction
  have hdata : data = M.snapshot d₂.machine := by
    unfold RaftDriver.closingCalls at hop
    split at hop
    · simpa using hop
    · simp at hop
  rw [hdata, hmachine, happlied, hrel.node.commit]
  exact ⟨rfl, rfl⟩

theorem Began.blobs_closing (h : r.Began k id action call origin d d₁ m₁)
    (hc : r.nodeRun.Refines chain) (hb : Blobs M (r.nodeRun.state (r.moment k + 1)))
    (happlied : d₂.lastApplied = (chain (r.moment k + 1)).commit id)
    (hmachine : d₂.machine = M.after (((chain (r.moment k + 1)).log id).take d₂.lastApplied))
    (hcalls : r.callsAt k =
      .run action.action :: (d₂.closingCalls M).map (fun op => .run (.op id op))) :
    Blobs M (r.nodeRun.state (r.moment (k + 1))) := by
  have hlen : 1 ≤ (r.callsAt k).length := by simp [hcalls]
  rw [r.moment_succ k]
  refine blobs_from 1 hc hb ?_ hlen le_rfl
  intro j e hj he
  obtain ⟨j, rfl⟩ : ∃ i, j = i + 1 := ⟨j - 1, by omega⟩
  rw [hcalls, getElem?_cons_succ, getElem?_map] at he
  obtain ⟨op, hop, rfl⟩ := Option.map_eq_some_iff.1 he
  cases j with
  | zero => exact h.closing hc happlied hmachine (mem_of_getElem? hop) rfl
  | succ j =>
    -- only the first of the calls can be a compaction
    intro id' data m haction _
    unfold RaftDriver.closingCalls at hop
    split at hop
    · cases j with
      | zero => cases hop; cases haction
      | succ => cases hop
    · cases hop

theorem Became.applied (hM : ∀ s s', M.restore s (M.snapshot s') = s')
    (hcompact : r.CompactsItsMachine) (hc : r.nodeRun.Refines chain) (ha : r.Applied chain k)
    (h : r.Became k id d) :
    Blobs M (r.nodeRun.state (r.moment (k + 1))) ∧
      d.machine = M.after (((chain (r.moment (k + 1))).log id).take d.lastApplied) := by
  cases h with
  | @turned action call origin d₀ d₁ d₂ m₁ n event began caughtUp calls =>
    have hb := began.blobs ha hc hcompact event rfl
    obtain ⟨happlied, hmachine⟩ := began.machine hM ha hc hb caughtUp
    obtain ⟨-, hset₂, hset₃⟩ := RaftDriver.settled_eq { d₂ with node := n } d₂.node.readResults
    have hle : r.moment k + 1 ≤ r.moment (k + 1) := by
      rw [r.moment_succ, calls, length_cons]
      omega
    refine ⟨began.blobs_closing hc hb happlied hmachine calls, ?_⟩
    rw [hset₂, hset₃, hc.take_eq hle happlied.le]
    exact hmachine
  | @crashed action transactions rng config now call origin d₀ m event resolved before calls member
      fresh =>
      have hb : Blobs M (r.nodeRun.state (r.moment (k + 1))) := by
        rw [r.moment_succ k]
        refine blobs_from 0 hc ?_ ?_ (Nat.zero_le _) le_rfl
        · rw [Nat.add_zero, r.nodeRun_state]
          exact ha.blobs
        intro j e _ he
        rw [calls] at he
        cases j with
        | zero =>
          cases he
          exact ha.first hc hcompact event resolved before rfl
        | succ => cases he
      exact ⟨hb, resumed_machine hM hc hb member _⟩
  | @crashedLater action compacted rng config now call origin d₀ d₁ m₁ m op transactions event began
      calls interrupted member fresh =>
      have hb₁ := began.blobs ha hc hcompact event rfl
      obtain ⟨hlog, hle⟩ := began.nodeLog hc (served hc k)
      obtain ⟨d₂, hup, hnode₂, -⟩ := RaftDriver.exists_catchUp (M := M) hlog hle
      obtain ⟨happlied, hmachine⟩ := began.machine hM ha hc hb₁ hup
      obtain ⟨-, -, -, hpost, -⟩ := RaftDriver.postEvent_spec (hnode₂ ▸ hlog) hup
      have hop : op ∈ d₂.closingCalls M := by
        rw [interrupted, hpost, RaftDriver.closingCalls]
        split <;> simp
      have hb : Blobs M (r.nodeRun.state (r.moment (k + 1))) := by
        rw [r.moment_succ k]
        refine blobs_from 1 hc hb₁ ?_ (by simp [calls]) le_rfl
        intro j e hj he
        rw [calls] at he
        obtain ⟨j, rfl⟩ := Nat.exists_eq_add_of_le' hj
        cases j with
        | zero =>
          cases he
          exact began.closing hc happlied hmachine hop rfl
        | succ => cases he
      exact ⟨hb, resumed_machine hM hc hb member _⟩

/-- **Machines are in the state after what is applied**, throughout a run. -/
theorem applied (hM : ∀ s s', M.restore s (M.snapshot s') = s')
    (hcompact : r.CompactsItsMachine) (hc : r.nodeRun.Refines chain) (k : ℕ) :
    r.Applied chain k := by
  induction k with
  | zero =>
    refine ⟨Blobs.init r.voters r.starts, ?_⟩
    intro id d hd
    obtain ⟨m, hm, rfl⟩ := Option.map_eq_some_iff.1 ((get?_init _ _ id).symm.trans hd)
    have hb := Blobs.init (M := M) r.voters r.starts
    exact resumed_machine hM hc (k := 0) hb hm []
  | succ k ih =>
    constructor
    · cases advanced hc (served hc k) with
      | idle _ nodes =>
        rw [nodes]
        exact ih.blobs
      | moved id d m became =>
        rw [← r.nodeRun_state]
        exact (became.applied hM hcompact hc ih).1
    · intro id d hd
      rcases became hc hd with hsame | hbecame
      · obtain ⟨m, hm, -, happlied⟩ := has_node hc hsame
        rw [ih.machine hsame, hc.take_eq (r.moment_mono (Nat.le_succ k)) happlied.le]
      · exact (hbecame.applied hM hcompact hc ih).2

/-- Is the driver of node `id` restarted by the event after moment `k`? -/
def CrashesAt (r : DriverRun M) (k : ℕ) (id : NodeId) : Prop :=
  (r.events[k]?).any (fun e => (r.state k).crashes id e) = true

instance (r : DriverRun M) (k : ℕ) (id : NodeId) : Decidable (r.CrashesAt k id) :=
  inferInstanceAs (Decidable (_ = true))

theorem crashesAt_iff {e : DriverEvent} (he : r.events[k]? = some e) :
    r.CrashesAt k id ↔ (r.state k).crashes id e = true := by
  rw [CrashesAt, he, Option.any_some]

variable (hc : r.nodeRun.Refines chain)

include hc

theorem Became.lastApplied_le (hup : ¬ r.CrashesAt k id)
    (hd : r.Has k id d) {d' : RaftDriver S} (h : r.Became k id d') (hd' : r.Has (k + 1) id d') :
    d.lastApplied ≤ d'.lastApplied := by
  obtain ⟨m, hm, -, happlied⟩ := has_node hc hd
  obtain ⟨m', hm', -, happlied'⟩ := has_node hc hd'
  cases h with
  | turned event began caughtUp calls =>
    rw [happlied, happlied']
    refine hc.commit_le (r.moment_mono (Nat.le_succ k)) fun j hj hj' hrestart => ?_
    -- every call of a turn runs to completion
    obtain ⟨i, rfl⟩ := Nat.exists_eq_add_of_le hj
    rw [r.moment_succ] at hj'
    have hrun : ∃ action, (r.callsAt k)[i]? = some (.run action) := by
      have hi : i < (r.callsAt k).length := by omega
      have hmem := getElem_mem hi
      rw [getElem?_eq_getElem hi]
      generalize (r.callsAt k)[i] = e at hmem
      rw [calls] at hmem
      rcases mem_cons.1 hmem with rfl | hmem
      · exact ⟨_, rfl⟩
      · obtain ⟨op, -, rfl⟩ := mem_map.1 hmem
        exact ⟨_, rfl⟩
    obtain ⟨action, hrun⟩ := hrun
    rw [Run.RestartsAt, r.nodeRun_events (by omega), hrun] at hrestart
    simp [Cluster.restarts] at hrestart
  | crashed event resolved =>
    refine absurd ((crashesAt_iff event).2 ?_) hup
    simp [DriverCluster.crashes, resolved]
  | crashedLater event began =>
    refine absurd ((crashesAt_iff event).2 ?_) hup
    simp [DriverCluster.crashes, began.resolved]

theorem exists_driver_succ (hd : r.Has k id d) :
    ∃ d', r.Has (k + 1) id d' := by
  cases advanced hc (served hc k) with
  | idle drivers => exact ⟨d, by rw [Has, drivers]; exact hd⟩
  | moved id' d' m became drivers =>
    simp only [Has, drivers, OrdMap.get?_insert]
    split
    · exact ⟨d', rfl⟩
    · exact ⟨d, hd⟩

theorem lastApplied_mono {k' : ℕ} {d' : RaftDriver S}
    (hk : k ≤ k') (hup : ∀ j, k ≤ j → j < k' → ¬ r.CrashesAt j id) (hd : r.Has k id d)
    (hd' : r.Has k' id d') : d.lastApplied ≤ d'.lastApplied := by
  have hrun : ∃ d'', r.Has k' id d'' ∧ d.lastApplied ≤ d''.lastApplied := by
    clear hd'
    induction k', hk using Nat.le_induction with
    | base => exact ⟨d, hd, le_rfl⟩
    | succ k' hk ih =>
      obtain ⟨d₁, hd₁, hle⟩ := ih fun j hj hj' => hup j hj (by omega)
      obtain ⟨d₂, hd₂⟩ := exists_driver_succ hc hd₁
      refine ⟨d₂, hd₂, ?_⟩
      rcases became hc hd₂ with hsame | hbecame
      · obtain rfl := Option.some.inj (hd₁.symm.trans hsame)
        exact hle
      · exact hle.trans (hbecame.lastApplied_le hc (hup k' hk (by omega)) hd₁ hd₂)
  obtain ⟨d'', hd'', hle⟩ := hrun
  obtain rfl := Option.some.inj (hd'.symm.trans hd'')
  exact hle

theorem exists_driver {s : Start} (hs : s ∈ r.starts) (k : ℕ) :
    ∃ d, r.Has k s.id d := by
  induction k with
  | zero =>
    obtain ⟨m, hm⟩ := Cluster.exists_init r.voters hs
    exact (served hc 0).running hm
  | succ k ih =>
    obtain ⟨d, hd⟩ := ih
    exact exists_driver_succ hc hd

end DriverRun

/-- **Apply refinement.**  At every moment the driver of every node is running and has
applied exactly what its node knows to be committed: its machine is in the state
after the entries that the whole cluster has committed up to there, however it
came by them.  Only a restart lowers what is applied. -/
theorem machine_after_committed (hM : ∀ s s', M.restore s (M.snapshot s') = s')
    (r : DriverRun M) (hcompact : r.CompactsItsMachine) {s : Start} (hs : s ∈ r.starts) (k : ℕ) :
    ∃ d, r.Has k s.id d ∧ d.lastApplied = d.node.commitIndex ∧
      (∃ entries : List LogEntry, entries.length = d.lastApplied ∧
        d.machine = entries.foldl M.apply M.init ∧
        ∀ k' id m i, r.nodeRun.Has k' id m → 0 < i → i ≤ d.lastApplied →
          i ≤ m.node.commitIndex → m.entryAt i = entries[i - 1]?) ∧
      ∀ k' d', k ≤ k' → (∀ j, k ≤ j → j < k' → ¬ r.CrashesAt j s.id) → r.Has k' s.id d' →
        d.lastApplied ≤ d'.lastApplied := by
  obtain ⟨chain, hc⟩ := r.nodeRun.exists_refines
  obtain ⟨d, hd⟩ := r.exists_driver hc hs k
  obtain ⟨m, hm, hnode, happlied⟩ := DriverRun.has_node hc hd
  refine ⟨d, hd, (DriverRun.served hc k).applied hd, ?_, fun k' d' hk hup hd' =>
    DriverRun.lastApplied_mono hc hk hup hd hd'⟩
  have hlen := (hc.inv (r.moment k)).commit_le s.id
  refine ⟨((chain (r.moment k)).log s.id).take d.lastApplied, ?_,
    (DriverRun.applied hM hcompact hc k).machine hd, ?_⟩
  · rw [length_take, happlied, Nat.min_eq_left hlen]
  intro k' id m' i hm' h0 hi hi'
  have hagree := committed_entries_agree hm hm' h0 (by
    rw [(hc.member hm).node.commit, ← happlied]
    exact hi) hi'
  obtain ⟨e, he, he'⟩ := hagree
  rw [he', getElem?_take_of_lt (by omega), ← (hc.member hm).entryAt_eq (hc.inv _) h0, he]

open Sample

theorem machine_after_committed_sample : ∃ d, driverRun.Has 8 b d ∧
    d.machine = [7] ∧ d.lastApplied = d.node.commitIndex ∧
    ∃ entries : List LogEntry, entries.length = d.lastApplied ∧
      d.machine = entries.foldl machine.apply [] := by
  have hcompact : driverRun.CompactsItsMachine := by
    intro k e id data now d he haction
    have hnone : ∀ e ∈ driverRun.events,
        ¬ ∃ id data now, e.action = .client id (.compact data) now := by
      simp [driverRun, timer, receive, ask, DriverEvent.action]
    exact absurd ⟨id, data, now, haction⟩ (hnone e (mem_of_getElem? he))
  obtain ⟨d, hd, happlied, ⟨entries, hlen, hmachine, -⟩, -⟩ :=
    machine_after_committed (fun _ _ => rfl) driverRun hcompact
      (s := ⟨b, .seedFromU64 2, {}, 0⟩) (mem_cons_of_mem _ mem_cons_self) 8
  obtain ⟨d', hd', hmachine'⟩ := driverRun.exists_has 8 b
    (fun d => decide (d.machine = [7])) (by decide +kernel)
  obtain rfl := Option.some.inj (hd.symm.trans hd')
  exact ⟨d, hd, of_decide_eq_true hmachine', happlied, entries, hlen, hmachine⟩

end Brokkr.Raft
