import Brokkr.Lib.Consensus.Runs
import Brokkr.Raft.Cluster

/-!
# Raft's quorums and configurations

The instance of the abstract protocol that the code implements: nodes are
`NodeId`s, entries are `LogEntry`s, and the part of a configuration that decides
quorums is its voters and, while it is joint, its old voters.

* `majority_overlap` — two majorities of one voter set share a voter.
* `Follows` — a membership change goes through the joint configuration: from
  C_old to C_old,new and on to C_new; adding a learner changes no voter.
* `rules` — the `Consensus.Rules` of a cluster with the given bootstrap voters.
* `not_hasQuorum_self` — in a joint configuration a leader alone is no quorum.
-/

namespace Brokkr.Raft

open OrdSet

open Consensus List

/-! ## Majorities -/

theorem majority_iff :
    ClusterConfig.majority voters acks = true ↔ voters.toList ≠ [] ∧
      voters.toList.length < voters.toList.countP (fun v => decide (v ∈ acks)) * 2 := by
  simp [ClusterConfig.majority, OrdSet.isEmpty, countP_eq_length_filter]

theorem majority_mono {acks' : OrdSet NodeId} (h : ∀ v ∈ acks, v ∈ acks')
    (hm : ClusterConfig.majority voters acks = true) :
    ClusterConfig.majority voters acks' = true := by
  rw [majority_iff] at hm ⊢
  refine ⟨hm.1, lt_of_lt_of_le hm.2 (Nat.mul_le_mul_right 2 ?_)⟩
  exact countP_mono_left fun v _ hv => by simpa using h v (by simpa using hv)

/-- **Two majorities of one voter set share a voter.** -/
theorem majority_overlap {acks' : OrdSet NodeId} (h : ClusterConfig.majority voters acks = true)
    (h' : ClusterConfig.majority voters acks' = true) : ∃ v, v ∈ acks ∧ v ∈ acks' := by
  rw [majority_iff] at h h'
  by_contra hnone
  push Not at hnone
  -- otherwise the second majority lies in the complement of the first
  have hle : voters.toList.countP (fun v => decide (v ∈ acks')) ≤
      voters.toList.countP (fun v => !decide (v ∈ acks)) := by
    refine countP_mono_left fun v _ hv => ?_
    simpa using fun hv' => hnone v hv' (by simpa using hv)
  have hsum := length_eq_countP_add_countP (fun v => decide (v ∈ acks)) (l := voters.toList)
  simp only [decide_not, Bool.decide_eq_true] at hsum
  omega

/-! ## Configurations, as far as quorums go -/

/-- The part of a configuration that decides quorums. -/
structure Electorate where
  voters : OrdSet NodeId
  oldVoters : Option (OrdSet NodeId)
  deriving DecidableEq

variable {voters acks : OrdSet NodeId} {c : Electorate}

/-- The electorate of a configuration. -/
def ClusterConfig.electorate (c : ClusterConfig) : Electorate := ⟨c.voters, c.oldVoters⟩

/-- Is a set of acknowledgements a quorum? -/
def Electorate.hasQuorum (c : Electorate) (acks : OrdSet NodeId) : Bool :=
  ({ voters := c.voters, oldVoters := c.oldVoters } : ClusterConfig).hasQuorum acks

theorem ClusterConfig.hasQuorum_electorate (c : ClusterConfig) (acks : OrdSet NodeId) :
    c.electorate.hasQuorum acks = c.hasQuorum acks := rfl

theorem Electorate.hasQuorum_iff :
    c.hasQuorum acks = true ↔ ClusterConfig.majority c.voters acks = true ∧
      ∀ old, c.oldVoters = some old → ClusterConfig.majority old acks = true := by
  unfold hasQuorum ClusterConfig.hasQuorum
  cases c.oldVoters <;> simp

/-- How one electorate may follow another. -/
inductive Follows : Electorate → Electorate → Prop
  | learner (v : OrdSet NodeId) : Follows ⟨v, none⟩ ⟨v, none⟩
  | joint (v w : OrdSet NodeId) (hne : w ≠ v) (hw : w.isEmpty = false) :
      Follows ⟨v, none⟩ ⟨w, some v⟩
  | final (v w : OrdSet NodeId) : Follows ⟨w, some v⟩ ⟨w, none⟩

/-- A set of nodes that holds a quorum. -/
def IsQuorum (c : Electorate) (A : Set NodeId) : Prop :=
  ∃ acks : OrdSet NodeId, (∀ v ∈ acks, v ∈ A) ∧ c.hasQuorum acks = true

theorem IsQuorum.overlap {d : Electorate} {A B : Set NodeId} (hA : IsQuorum c A) (hB : IsQuorum d B)
    (h : ∃ v, (c.voters = v ∨ c.oldVoters = some v) ∧
      (d.voters = v ∨ d.oldVoters = some v)) : (A ∩ B).Nonempty := by
  obtain ⟨acks, hacks, hq⟩ := hA
  obtain ⟨acks', hacks', hq'⟩ := hB
  obtain ⟨v, hc, hd⟩ := h
  rw [Electorate.hasQuorum_iff] at hq hq'
  have h1 : ClusterConfig.majority v acks = true := by
    rcases hc with rfl | hc
    · exact hq.1
    · exact hq.2 v hc
  have h2 : ClusterConfig.majority v acks' = true := by
    rcases hd with rfl | hd
    · exact hq'.1
    · exact hq'.2 v hd
  obtain ⟨x, hx, hx'⟩ := majority_overlap h1 h2
  exact ⟨x, hacks x hx, hacks' x hx'⟩

/-- The electorate an entry brings into force. -/
def LogEntry.electorate? (e : LogEntry) : Option Electorate :=
  e.config?.map ClusterConfig.electorate

/-- May a leader append `e` to the log `l`?  It stands at the next index, and a
configuration follows the one in force. -/
def Admissible (voters : OrdSet NodeId) (l : List LogEntry) (e : LogEntry) : Prop :=
  e.index = l.length + 1 ∧ ∀ c, e.electorate? = some c →
    Follows ((l.filterMap LogEntry.electorate?).getLastD ⟨voters, none⟩) c

/-- The protocol of a cluster with the given bootstrap voters. -/
def rules (voters : OrdSet NodeId) : Rules NodeId LogEntry Electorate where
  term := LogEntry.term
  conf := LogEntry.electorate?
  boot := ⟨voters, none⟩
  Quorum := IsQuorum
  Next := Follows
  Admits := Admissible voters
  quorum_mono := fun hAB ⟨acks, hacks, hq⟩ => ⟨acks, fun v hv => hAB (hacks v hv), hq⟩
  overlap_self := fun {c A B} hA hB => hA.overlap hB ⟨c.voters, Or.inl rfl, Or.inl rfl⟩
  overlap_next := by
    intro c d A B hn hA hB
    cases hn with
    | learner v => exact hA.overlap hB ⟨v, Or.inl rfl, Or.inl rfl⟩
    | joint v => exact hA.overlap hB ⟨v, Or.inl rfl, Or.inr rfl⟩
    | final v w => exact hA.overlap hB ⟨w, Or.inl rfl, Or.inl rfl⟩
  overlap_sibling := by
    intro c d d' A B hn hn' hA hB
    cases hn with
    | learner v =>
      cases hn' with
      | learner => exact hA.overlap hB ⟨v, Or.inl rfl, Or.inl rfl⟩
      | joint => exact hA.overlap hB ⟨v, Or.inl rfl, Or.inr rfl⟩
    | joint v =>
      cases hn' with
      | learner => exact hA.overlap hB ⟨v, Or.inr rfl, Or.inl rfl⟩
      | joint => exact hA.overlap hB ⟨v, Or.inr rfl, Or.inr rfl⟩
    | final v w =>
      cases hn' with
      | final => exact hA.overlap hB ⟨w, Or.inl rfl, Or.inl rfl⟩
  next_of_admits := fun h hc => h.2 _ hc

/-! ## Facts about admitted logs -/

section

variable {l : List LogEntry}

theorem index_of_admitted (h : (rules voters).Admitted l) {i : ℕ} {e : LogEntry}
    (he : l[i]? = some e) : e.index = i + 1 := by
  obtain ⟨hi, rfl⟩ := List.getElem?_eq_some_iff.1 he
  have hp : l.take i ++ [l[i]] <+: l := by
    rw [take_concat_get' l i hi]
    exact List.take_prefix _ _
  have := (h _ _ hp).1
  rwa [length_take, Nat.min_eq_left hi.le] at this

theorem active_voters_ne (hv : voters.isEmpty = false) (h : (rules voters).Admitted l) :
    ((rules voters).active l).voters.isEmpty = false := by
  induction l using reverseRecOn with
  | nil => exact hv
  | append_singleton l e ih =>
    have ih := ih (h.of_isPrefix (List.prefix_append l [e]))
    cases hc : e.electorate? with
    | none =>
      rw [Rules.active, (rules voters).confs_concat_none hc]
      exact ih
    | some c =>
      rw [(rules voters).active_concat_some hc]
      have hn : Follows ((rules voters).active l) c := (h l e List.prefix_rfl).2 c hc
      generalize (rules voters).active l = d at hn ih
      cases hn with
      | learner => exact ih
      | joint v w hne hw => exact hw
      | final => exact ih

theorem voters_ne_of_joint (h : (rules voters).Admitted l) {old : OrdSet NodeId}
    (hj : ((rules voters).active l).oldVoters = some old) :
    ((rules voters).active l).voters ≠ old := by
  rcases h.last_conf with h0 | ⟨p, e, c, -, -, hc, hn⟩
  · rw [Rules.active, h0] at hj
    exact absurd hj (by simp [rules])
  have hact : (rules voters).active l = c := by rw [Rules.active, hc, getLastD_concat]
  rw [hact] at hj ⊢
  generalize (rules voters).active p = d at hn
  cases hn with
  | learner => simp at hj
  | joint v w hne =>
    cases hj
    exact hne
  | final => simp at hj

end

theorem majority_singleton {id : NodeId}
    (h : ClusterConfig.majority voters (singleton id) = true) :
    voters = singleton id := by
  rw [majority_iff] at h
  have hle : voters.toList.countP (fun v => decide (v ∈ singleton id)) ≤ 1 := by
    have hcount := nodup_iff_count_le_one.1 voters.nodup id
    refine le_trans (countP_mono_left fun v _ hv => ?_) hcount
    simpa using hv
  have hlen : voters.toList.length = 1 := by
    have := length_pos_iff.2 h.1
    omega
  obtain ⟨v, hv⟩ := length_eq_one_iff.1 hlen
  have hvid : v = id := by
    by_contra hne
    have := h.2
    rw [hv] at this
    simp [hne] at this
  refine ext fun x => ?_
  rw [OrdSet.mem_def, hv, hvid, mem_singleton, OrdSet.mem_singleton]

theorem not_hasQuorum_self {old : OrdSet NodeId} {id : NodeId} (hj : c.oldVoters = some old)
    (hne : c.voters ≠ old) :
    c.hasQuorum (singleton id) = false := by
  rw [Bool.eq_false_iff]
  intro hq
  rw [Electorate.hasQuorum_iff] at hq
  exact hne ((majority_singleton hq.1).trans (majority_singleton (hq.2 old hj)).symm)

end Brokkr.Raft
