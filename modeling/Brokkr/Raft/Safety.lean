import Brokkr.Raft.Refine.Cluster

/-!
# Safety

The safety properties of the protocol, read off the nodes of a cluster.  They
hold of any two nodes at any two moments of a run, whatever the network does and
wherever nodes crash.

* `at_most_one_leader_per_term` — election safety.
* `same_term_same_log` — log matching, also when a log begins after a snapshot.
* `later_leader_has_committed` — leader completeness.
* `committed_entries_agree` — state machine safety.
* `commitIndex_stable` — a commit index only falls in a restart, and no entry up
  to it is ever lost.
-/

namespace Brokkr.Raft

open Option

open Consensus List

/-! ## Members and their logs -/

section

variable {voters : OrdSet NodeId} {a : AState} {id : NodeId} {m : Member} {i : ℕ}

theorem Indexed.find?_eq {l : List LogEntry} (h : Indexed l) (h0 : 0 < i) :
    l.find? (fun e => decide (e.index = i)) = l[i - 1]? := by
  cases hi : l[i - 1]? with
  | none =>
    refine find?_eq_none.2 fun e he hdec => ?_
    obtain ⟨-, hget⟩ := h.getElem_pred he
    rw [of_decide_eq_true hdec, hi] at hget
    cases hget
  | some e =>
    have hindex := h _ _ hi
    cases hfind : l.find? (fun e => decide (e.index = i)) with
    | none =>
      refine absurd ?_ (find?_eq_none.1 hfind e (mem_of_getElem? hi))
      exact decide_eq_true (by omega)
    | some f =>
      have hf : f.index = i := by simpa using find?_some hfind
      obtain ⟨-, hget⟩ := h.getElem_pred (mem_of_find?_eq_some hfind)
      rw [hf, hi] at hget
      exact hget.symm

theorem MemberRel.entryAt_eq (h : MemberRel voters a id m) (hi : Inv (rules voters) a)
    (h0 : 0 < i) : m.entryAt i = (a.log id)[i - 1]? := by
  unfold Member.entryAt
  split
  · have hcov : m.covered = (a.log id).take m.node.log.db.snapshotIndex := h.node.dur.covered
    have hidx := (indexed_log hi id).of_isPrefix (List.take_prefix m.node.log.db.snapshotIndex _)
    rw [hcov, hidx.find?_eq h0, getElem?_take_of_lt (by omega)]
  · exact h.node.get_eq (by omega)

theorem NodeRel.get_some {boot : ClusterConfig} {cov : ℕ → List LogEntry} {n : RaftNode}
    (h : NodeRel voters a id boot cov n) {e : LogEntry} (he : n.log.db.get i = some e) :
    n.log.db.snapshotIndex < i ∧ (a.log id)[i - 1]? = some e := by
  have hgt : n.log.db.snapshotIndex < i := by
    by_contra hle
    have hnone := h.dur.holds.get_le (i := i) (by omega)
    rw [Db.get, hnone] at he
    cases he
  exact ⟨hgt, h.get_eq hgt ▸ he⟩

theorem NodeRel.termAt_some {boot : ClusterConfig} {cov : ℕ → List LogEntry} {n : RaftNode}
    (h : NodeRel voters a id boot cov n) (hi : Inv (rules voters) a) {t : ℕ}
    (ht : n.termAt i = some t) :
    0 < i ∧ i ≤ (a.log id).length ∧ (rules voters).lastTerm ((a.log id).take i) = t := by
  have hs : 0 < i ∧ n.log.db.snapshotIndex ≤ i ∧ i ≤ (a.log id).length := by
    rw [RaftNode.termAt] at ht
    cases hget : n.log.db.get i with
    | some =>
      obtain ⟨hgt, hlog⟩ := h.get_some hget
      obtain ⟨hlt, -⟩ := List.getElem?_eq_some_iff.1 hlog
      omega
    | none =>
      rw [hget, h.snapshot, Db.snapshotMeta] at ht
      have hle := h.snapshotIndex_le hi
      cases hsnap : n.log.db.snapshot with
      | none =>
        rw [hsnap] at ht
        cases ht
      | some p =>
        have hpos := (h.dur.snapshot hsnap).pos
        rw [hsnap] at ht
        simp only [map_some, ite_none_right_eq_some] at ht
        rw [Db.snapshotIndex, hsnap] at hle ⊢
        simp only at hle ⊢
        omega
  rw [h.termAt_eq hs.1 hs.2.1 hs.2.2] at ht
  exact ⟨hs.1, hs.2.2, some.inj ht⟩

theorem MemberRel.leading (h : MemberRel voters a id m) (hl : m.node.isLeader = true) :
    ∃ state, Leading a id m.node.log.db.snapshotIndex state := by
  have hrole := h.node.role
  rw [RaftNode.isLeader] at hl
  generalize m.node.role = role at hrole hl
  cases role with
  | leader state => exact ⟨state, hrole⟩
  | _ => cases hl

theorem MemberRel.elected (h : MemberRel voters a id m) (hi : Inv (rules voters) a)
    (hl : m.node.isLeader = true) :
    a.leader m.node.hard.currentTerm = some id ∧ a.log id = a.llog m.node.hard.currentTerm := by
  obtain ⟨state, hlead⟩ := h.leading hl
  rw [h.node.currentTerm]
  exact ⟨hlead.elected, hi.leader_log hlead.elected⟩

end

theorem getElem?_eq_of_comparable {p q : List LogEntry} (h : p <+: q ∨ q <+: p) {j : ℕ}
    (hp : j < p.length) (hq : j < q.length) : p[j]? = q[j]? := by
  rcases h with ⟨r, rfl⟩ | ⟨r, rfl⟩
  · rw [getElem?_append_left hp]
  · rw [getElem?_append_left hq]

/-! ## A run to look at -/

namespace Sample

/-- Node `a`. -/
def a : NodeId := ⟨"a", by decide, by decide⟩

/-- Node `b`. -/
def b : NodeId := ⟨"b", by decide, by decide⟩

/-- Node `c`. -/
def c : NodeId := ⟨"c", by decide, by decide⟩

/-- Node `d`. -/
def d : NodeId := ⟨"d", by decide, by decide⟩

/-- Node `e`. -/
def e : NodeId := ⟨"e", by decide, by decide⟩

/-- Three voters. -/
def voters : OrdSet NodeId := OrdSet.ofList [a, b, c]

/-- The three nodes, started at time zero with default timing. -/
def starts : List Start :=
  [⟨a, .seedFromU64 1, {}, 0⟩, ⟨b, .seedFromU64 2, {}, 0⟩, ⟨c, .seedFromU64 3, {}, 0⟩]

/-- Time passes for a node, up to a moment in milliseconds. -/
def tick (id : NodeId) (now : ℕ) : Event := .run (.op id (.tick (Duration.fromMillis now)))

/-- Packet number `k` arrives. -/
def deliver (k now : ℕ) : Event := .run (.deliver k (Duration.fromMillis now))

/-- `a` is elected and commits its first entry, also on `b`; then `b` is elected
with the vote of `c`. -/
def run : Run where
  voters := voters
  starts := starts
  events := [tick a 1000, deliver 0 1001, deliver 2 1002, deliver 3 1003, deliver 5 1004,
    tick a 1060, deliver 6 1061, tick b 2000, deliver 10 2001, deliver 11 2002]
  within := by decide +kernel

end Sample

open Sample

theorem Run.exists_has (r : Run) (k : ℕ) (id : NodeId) (P : Member → Bool)
    (h : ((r.state k).members.get? id).any P = true) : ∃ m, r.Has k id m ∧ P m = true :=
  (any_eq_true _ _).1 h

/-! ## The properties -/

section

variable {r : Run} {k₁ k₂ : ℕ} {id₁ id₂ : NodeId} {m₁ m₂ : Member}

/-- **Election safety.**  In every term at most one node is ever leader. -/
theorem at_most_one_leader_per_term (h₁ : r.Has k₁ id₁ m₁) (h₂ : r.Has k₂ id₂ m₂)
    (hl₁ : m₁.node.isLeader = true) (hl₂ : m₂.node.isLeader = true)
    (ht : m₁.node.hard.currentTerm = m₂.node.hard.currentTerm) : id₁ = id₂ := by
  obtain ⟨chain, hc⟩ := r.exists_refines
  have e₁ := ((hc.member h₁).elected (hc.inv k₁) hl₁).1
  have e₂ := ((hc.member h₂).elected (hc.inv k₂) hl₂).1
  have g₁ := (hc.grows (le_max_left k₁ k₂)).leader e₁
  have g₂ := (hc.grows (le_max_right k₁ k₂)).leader e₂
  rw [ht, g₂] at g₁
  exact (some.inj g₁).symm

theorem at_most_one_leader_per_term_sample : ∃ id m₁ m₂, run.Has 3 Sample.a m₁ ∧
    run.Has 9 id m₂ ∧ m₁.node.isLeader = true ∧ m₂.node.isLeader = true ∧
    Sample.a = id := by
  obtain ⟨m₁, h₁, hp₁⟩ := run.exists_has 3 Sample.a
    (fun m => m.node.isLeader && decide (m.node.hard.currentTerm = 1)) (by decide +kernel)
  obtain ⟨m₂, h₂, hp₂⟩ := run.exists_has 9 Sample.a
    (fun m => m.node.isLeader && decide (m.node.hard.currentTerm = 1)) (by decide +kernel)
  rw [Bool.and_eq_true, decide_eq_true_eq] at hp₁ hp₂
  exact ⟨Sample.a, m₁, m₂, h₁, h₂, hp₁.1, hp₂.1,
    at_most_one_leader_per_term h₁ h₂ hp₁.1 hp₂.1 (hp₁.2.trans hp₂.2.symm)⟩

theorem take_eq_of_termAt {chain : ℕ → AState} (hc : r.Refines chain) (h₁ : r.Has k₁ id₁ m₁)
    (h₂ : r.Has k₂ id₂ m₂) {i t : ℕ} (ht₁ : m₁.node.termAt i = some t)
    (ht₂ : m₂.node.termAt i = some t) :
    ((chain k₁).log id₁).take i = ((chain k₂).log id₂).take i := by
  obtain ⟨h0, hle₁, hlast₁⟩ := (hc.member h₁).node.termAt_some (hc.inv k₁) ht₁
  obtain ⟨-, hle₂, hlast₂⟩ := (hc.member h₂).node.termAt_some (hc.inv k₂) ht₂
  have a₁ := ((hc.inv k₁).log_anchored id₁).mono (hc.grows (le_max_left k₁ k₂))
  have a₂ := ((hc.inv k₂).log_anchored id₂).mono (hc.grows (le_max_right k₁ k₂))
  exact take_eq_of_term a₁ a₂ h0 hle₁ hle₂ (hlast₁.trans hlast₂.symm)

/-- **Log matching.**  If two nodes have the same term at an index, in the log or
as the last index their snapshot includes, their logs hold the same entries up to
it, as far as both still hold any. -/
theorem same_term_same_log (h₁ : r.Has k₁ id₁ m₁) (h₂ : r.Has k₂ id₂ m₂) {i t : ℕ}
    (ht₁ : m₁.node.termAt i = some t) (ht₂ : m₂.node.termAt i = some t) {j : ℕ} (hj : j ≤ i)
    {e₁ e₂ : LogEntry} (he₁ : m₁.node.log.db.get j = some e₁)
    (he₂ : m₂.node.log.db.get j = some e₂) : e₁ = e₂ := by
  obtain ⟨chain, hc⟩ := r.exists_refines
  have htake := take_eq_of_termAt hc h₁ h₂ ht₁ ht₂
  obtain ⟨hs₁, hget₁⟩ := (hc.member h₁).node.get_some he₁
  obtain ⟨-, hget₂⟩ := (hc.member h₂).node.get_some he₂
  have heq := congrArg (fun l => l[j - 1]?) htake
  rw [getElem?_take_of_lt (by omega), getElem?_take_of_lt (by omega), hget₁, hget₂] at heq
  exact some.inj heq

theorem same_term_same_log_sample : ∃ m₁ m₂ e₁ e₂, run.Has 10 Sample.a m₁ ∧
    run.Has 10 b m₂ ∧ m₁.node.log.db.get 1 = some e₁ ∧
    m₂.node.log.db.get 1 = some e₂ ∧ e₁ = e₂ := by
  obtain ⟨m₁, h₁, hp₁⟩ := run.exists_has 10 Sample.a
    (fun m => decide (m.node.termAt 1 = some 1) && (m.node.log.db.get 1).isSome)
    (by decide +kernel)
  obtain ⟨m₂, h₂, hp₂⟩ := run.exists_has 10 b
    (fun m => decide (m.node.termAt 1 = some 1) && (m.node.log.db.get 1).isSome)
    (by decide +kernel)
  rw [Bool.and_eq_true, decide_eq_true_eq, isSome_iff_exists] at hp₁ hp₂
  obtain ⟨ht₁, e₁, he₁⟩ := hp₁
  obtain ⟨ht₂, e₂, he₂⟩ := hp₂
  exact ⟨m₁, m₂, e₁, e₂, h₁, h₂, he₁, he₂, same_term_same_log h₁ h₂ ht₁ ht₂ le_rfl he₁ he₂⟩

theorem MemberRel.entryAt_committed {voters : OrdSet NodeId} {a : AState} {id : NodeId}
    {m : Member} (h : MemberRel voters a id m) (hi : Inv (rules voters) a) {i : ℕ} (h0 : 0 < i)
    (hle : i ≤ m.node.commitIndex) :
    i - 1 < ((a.log id).take (a.commit id)).length ∧
      m.entryAt i = ((a.log id).take (a.commit id))[i - 1]? := by
  have hcl := hi.commit_le id
  rw [h.node.commit] at hle
  refine ⟨by rw [length_take]; omega, ?_⟩
  rw [h.entryAt_eq hi h0, getElem?_take_of_lt (by omega)]

/-- **State machine safety.**  Two nodes that have committed an index hold, or
have compacted, the same entry there. -/
theorem committed_entries_agree (h₁ : r.Has k₁ id₁ m₁) (h₂ : r.Has k₂ id₂ m₂) {i : ℕ}
    (h0 : 0 < i) (hi₁ : i ≤ m₁.node.commitIndex) (hi₂ : i ≤ m₂.node.commitIndex) :
    ∃ e, m₁.entryAt i = some e ∧ m₂.entryAt i = some e := by
  obtain ⟨chain, hc⟩ := r.exists_refines
  obtain ⟨hlt₁, he₁⟩ := (hc.member h₁).entryAt_committed (hc.inv k₁) h0 hi₁
  obtain ⟨hlt₂, he₂⟩ := (hc.member h₂).entryAt_committed (hc.inv k₂) h0 hi₂
  have c₁ := ((hc.inv k₁).commit_committed id₁).of_grows (hc.grows (le_max_left k₁ k₂))
  have c₂ := ((hc.inv k₂).commit_committed id₂).of_grows (hc.grows (le_max_right k₁ k₂))
  have heq := getElem?_eq_of_comparable ((hc.inv _).committed_agree c₁ c₂) hlt₁ hlt₂
  rw [he₁, he₂, ← heq]
  exact ⟨_, getElem?_eq_getElem hlt₁, getElem?_eq_getElem hlt₁⟩

theorem committed_entries_agree_sample : ∃ m₁ m₂ e, run.Has 5 Sample.a m₁ ∧
    run.Has 10 b m₂ ∧ m₁.entryAt 1 = some e ∧ m₂.entryAt 1 = some e := by
  obtain ⟨m₁, h₁, hp₁⟩ := run.exists_has 5 Sample.a
    (fun m => decide (1 ≤ m.node.commitIndex)) (by decide +kernel)
  obtain ⟨m₂, h₂, hp₂⟩ := run.exists_has 10 b
    (fun m => decide (1 ≤ m.node.commitIndex)) (by decide +kernel)
  obtain ⟨e, he₁, he₂⟩ := committed_entries_agree h₁ h₂ Nat.one_pos (of_decide_eq_true hp₁)
    (of_decide_eq_true hp₂)
  exact ⟨m₁, m₂, e, h₁, h₂, he₁, he₂⟩

/-- **Leader completeness.**  What a node has committed, when its term is `t`, every
leader of a term above `t` holds or has compacted.  The leader that commits an
entry is itself such a node, in the very term of the commitment. -/
theorem later_leader_has_committed (h₁ : r.Has k₁ id₁ m₁) (h₂ : r.Has k₂ id₂ m₂) {i : ℕ}
    {e : LogEntry} (h0 : 0 < i) (hi : i ≤ m₁.node.commitIndex) (he : m₁.entryAt i = some e)
    (hl : m₂.node.isLeader = true)
    (ht : m₁.node.hard.currentTerm < m₂.node.hard.currentTerm) : m₂.entryAt i = some e := by
  obtain ⟨chain, hc⟩ := r.exists_refines
  have hr₂ := hc.member h₂
  obtain ⟨hlt, he'⟩ := (hc.member h₁).entryAt_committed (hc.inv k₁) h0 hi
  obtain ⟨hlead, hlog⟩ := hr₂.elected (hc.inv k₂) hl
  rw [(hc.member h₁).node.currentTerm] at ht
  -- the log the leader was elected with is the same at the later of the two moments
  have hg₂ := hc.grows (le_max_right k₁ k₂)
  have hcom := ((hc.inv k₁).commit_committed id₁).of_grows (hc.grows (le_max_left k₁ k₂))
  have hpre := (hc.inv _).committed_elog hcom ht (by simp [hg₂.leader hlead])
  rw [hg₂.elog (by simp [hlead])] at hpre
  have hfull := hpre.trans ((hc.inv k₂).elog_isPrefix (by simp [hlead]))
  rw [← hlog] at hfull
  have heq := getElem?_eq_of_comparable (Or.inl hfull) hlt (hlt.trans_le hfull.length_le)
  rw [hr₂.entryAt_eq (hc.inv k₂) h0, ← heq, ← he', he]

theorem later_leader_has_committed_sample : ∃ m₁ m₂ e, run.Has 5 Sample.a m₁ ∧
    run.Has 10 b m₂ ∧ m₁.entryAt 1 = some e ∧ m₂.node.isLeader = true ∧
    m₂.entryAt 1 = some e := by
  obtain ⟨m₁, h₁, hp₁⟩ := run.exists_has 5 Sample.a
    (fun m => decide (1 ≤ m.node.commitIndex ∧ m.node.hard.currentTerm = 1) &&
      (m.entryAt 1).isSome) (by decide +kernel)
  obtain ⟨m₂, h₂, hp₂⟩ := run.exists_has 10 b
    (fun m => m.node.isLeader && decide (m.node.hard.currentTerm = 2)) (by decide +kernel)
  rw [Bool.and_eq_true, decide_eq_true_eq, isSome_iff_exists] at hp₁
  rw [Bool.and_eq_true, decide_eq_true_eq] at hp₂
  obtain ⟨⟨hle, ht⟩, e, he⟩ := hp₁
  exact ⟨m₁, m₂, e, h₁, h₂, he, hp₂.1,
    later_leader_has_committed h₁ h₂ Nat.one_pos hle he hp₂.1 (by rw [ht, hp₂.2]; decide)⟩

end

/-! ## Commit indices over time -/

section

variable {r : Run} {chain : ℕ → AState} {k₁ k₂ : ℕ} {id : NodeId} {m₁ m₂ : Member}

/-- Is node `id` restarted by the event after moment `k`? -/
def Run.RestartsAt (r : Run) (k : ℕ) (id : NodeId) : Prop :=
  (r.events[k]?).any (fun e => (r.state k).restarts id e) = true

instance (r : Run) (k : ℕ) (id : NodeId) : Decidable (r.RestartsAt k id) :=
  inferInstanceAs (Decidable (_ = true))

theorem Run.Refines.commit_le (h : r.Refines chain) (hk : k₁ ≤ k₂)
    (hup : ∀ k, k₁ ≤ k → k < k₂ → ¬ r.RestartsAt k id) :
    (chain k₁).commit id ≤ (chain k₂).commit id := by
  induction k₂, hk using Nat.le_induction with
  | base => exact le_rfl
  | succ k hk ih =>
    refine (ih fun j hj hjk => hup j hj (by omega)).trans ?_
    cases he : r.events[k]? with
    | none => rw [h.idle he]
    | some =>
      refine (h.moved he).commit ?_
      have := hup k hk (by omega)
      rw [Run.RestartsAt, he] at this
      simpa using this

theorem Run.Refines.kept (h : r.Refines chain) (hk : k₁ ≤ k₂) {p : List LogEntry}
    (hp : (chain k₁).CommittedPrefix ((chain k₁).term id) p) (hl : p <+: (chain k₁).log id) :
    p <+: (chain k₂).log id := by
  induction k₂, hk using Nat.le_induction with
  | base => exact hl
  | succ k hk ih =>
    have hg := h.grows hk
    have hp' := (hp.of_grows hg).mono (hg.term id) List.prefix_rfl
    cases he : r.events[k]? with
    | none =>
      rw [h.idle he]
      exact ih
    | some => exact (h.moved he).kept hp' ih

/-- **Commit stability.**  A commit index lies between the snapshot and the end of
the log, only a restart lowers it, and the entries up to it stay what they are,
whatever handler runs and wherever it is cut short. -/
theorem commitIndex_stable (hk : k₁ ≤ k₂) (h₁ : r.Has k₁ id m₁) (h₂ : r.Has k₂ id m₂) :
    m₁.node.snapshotIndex ≤ m₁.node.commitIndex ∧ m₁.node.commitIndex ≤ m₁.node.lastLogIndex ∧
      ((∀ k, k₁ ≤ k → k < k₂ → ¬ r.RestartsAt k id) → m₁.node.commitIndex ≤ m₂.node.commitIndex) ∧
      ∀ i, 0 < i → i ≤ m₁.node.commitIndex → m₂.entryAt i = m₁.entryAt i := by
  obtain ⟨chain, hc⟩ := r.exists_refines
  have hr₁ := hc.member h₁
  have hr₂ := hc.member h₂
  refine ⟨?_, ?_, fun hup => ?_, fun i h0 hi => ?_⟩
  · rw [hr₁.node.snapshotIndex_eq, hr₁.node.commit]
    exact hr₁.node.dur.snapshot_le
  · rw [hr₁.node.lastLogIndex (hc.inv k₁), hr₁.node.commit]
    exact (hc.inv k₁).commit_le id
  · rw [hr₁.node.commit, hr₂.node.commit]
    exact hc.commit_le hk hup
  · obtain ⟨hlt, he⟩ := hr₁.entryAt_committed (hc.inv k₁) h0 hi
    have hpre := hc.kept hk ((hc.inv k₁).commit_committed id) (List.take_prefix _ _)
    rw [he, hr₂.entryAt_eq (hc.inv k₂) h0]
    exact (getElem?_eq_of_comparable (Or.inl hpre) hlt (hlt.trans_le hpre.length_le)).symm

theorem commitIndex_stable_sample : ∃ m₁ m₂, run.Has 5 Sample.a m₁ ∧
    run.Has 10 Sample.a m₂ ∧ m₁.node.commitIndex = 1 ∧
    m₁.node.commitIndex ≤ m₂.node.commitIndex ∧ m₂.entryAt 1 = m₁.entryAt 1 := by
  obtain ⟨m₁, h₁, hp₁⟩ := run.exists_has 5 Sample.a
    (fun m => decide (m.node.commitIndex = 1)) (by decide +kernel)
  obtain ⟨m₂, h₂, -⟩ := run.exists_has 10 Sample.a (fun _ => true) (by decide +kernel)
  have hc := of_decide_eq_true hp₁
  obtain ⟨-, -, hle, hkept⟩ := commitIndex_stable (by decide) h₁ h₂
  exact ⟨m₁, m₂, h₁, h₂, hc, hle (by decide +kernel), hkept 1 Nat.one_pos hc.ge⟩

end

end Brokkr.Raft
