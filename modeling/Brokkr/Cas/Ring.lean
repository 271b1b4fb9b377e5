import Brokkr.Common
import Brokkr.Lib.Ranking

/-!
# The ring

Rendezvous hashing (`ring.rs`): the replicas of a digest are the eligible nodes with
the highest scores.

* `score` — the first 16 bytes of a sha256 hash of node id and digest, as a number.
* `replicasFor` — the `r` best eligible nodes, the best first.
* `replicasFor_nodup`, `length_replicasFor_le`, `mem_of_mem_replicasFor` — replicas are
  distinct nodes of the topology, at most `r` of them.
* `eq_ranked` — there is one way to rank nodes with distinct ids, so it does not matter
  which sort is used; `ranked_without` — the others keep their places when a node goes.
-/

namespace Brokkr.Blobs

open List

/-- Liveness of a node. -/
inductive NodeStatus where
  | healthy
  | suspect
  | unreachable
  deriving DecidableEq

/-- May the node hold replicas at all? -/
def NodeStatus.isEligible : NodeStatus → Bool
  | .healthy | .suspect => true
  | .unreachable => false

/-- A node of the ring. -/
structure RingNode where
  nodeId : String
  endpoint : String
  status : NodeStatus
  deriving DecidableEq

variable {digest : Digest} {nodes : List RingNode} {n : RingNode}

/-- The cluster as the control plane sees it. -/
structure Topology where
  generation : ℕ
  nodes : List RingNode
  replicationFactor : ℕ
  deriving DecidableEq

/-- The bytes of a string. -/
def utf8 (s : String) : List UInt8 := s.toByteArray.data.toList

/-- `u128::from_be_bytes`. -/
def ofBeBytes (bytes : List UInt8) : ℕ := bytes.foldl (fun n b => n * 256 + b.toNat) 0

/-- The score of a node for a digest; the higher wins. -/
def score (nodeId : String) (digest : Digest) : ℕ :=
  ofBeBytes ((Sha256.digest (utf8 nodeId ++ 0x1f :: utf8 digest.hash)).take 16)

/-- The order of the ring: by score, the highest first, then by node id. -/
def Precedes (a b : ℕ × RingNode) : Prop := b.1 < a.1 ∨ (a.1 = b.1 ∧ a.2.nodeId ≤ b.2.nodeId)

instance : DecidableRel Precedes := fun a b =>
  inferInstanceAs (Decidable (b.1 < a.1 ∨ (a.1 = b.1 ∧ a.2.nodeId ≤ b.2.nodeId)))

/-- The `r` best eligible nodes for a digest, the best first. -/
def replicasFor (digest : Digest) (nodes : List RingNode) (r : ℕ) : List RingNode :=
  if r = 0 then []
  else
    let scored := (nodes.filter fun n => n.status.isEligible).map fun n =>
      (score n.nodeId digest, n)
    ((scored.insertionSort Precedes).take r).map Prod.snd

/-- The eligible nodes, the best for the digest first. -/
def ranked (digest : Digest) (nodes : List RingNode) : List RingNode :=
  (((nodes.filter fun n => n.status.isEligible).map fun n =>
    (score n.nodeId digest, n)).insertionSort Precedes).map Prod.snd

theorem replicasFor_eq (digest : Digest) (nodes : List RingNode) (r : ℕ) :
    replicasFor digest nodes r = (ranked digest nodes).take r := by
  rw [replicasFor, ranked]
  split
  · rename_i hr
    rw [hr, take_zero]
  · exact map_take

theorem ranked_perm (digest : Digest) (nodes : List RingNode) :
    (ranked digest nodes).Perm (nodes.filter fun n => n.status.isEligible) := by
  refine ((perm_insertionSort Precedes _).map Prod.snd).trans ?_
  rw [map_map]
  exact List.Perm.of_eq (map_id _)

theorem mem_of_mem_replicasFor {r : ℕ} (h : n ∈ replicasFor digest nodes r) : n ∈ nodes := by
  rw [replicasFor_eq] at h
  exact mem_of_mem_filter ((ranked_perm digest nodes).mem_iff.1 (mem_of_mem_take h))

theorem replicasFor_nodup (h : (nodes.map RingNode.nodeId).Nodup) (digest : Digest) (r : ℕ) :
    ((replicasFor digest nodes r).map RingNode.nodeId).Nodup := by
  have hall : ((ranked digest nodes).map RingNode.nodeId).Nodup :=
    ((ranked_perm digest nodes).map _).nodup_iff.2 (h.sublist (filter_sublist.map _))
  rw [replicasFor_eq]
  exact hall.sublist ((take_sublist r _).map _)

/-! ## Changes of the topology -/

instance : Std.Total Precedes where
  total a b := by
    rcases lt_trichotomy a.1 b.1 with h | h | h
    · exact .inr (.inl h)
    · rcases le_total a.2.nodeId b.2.nodeId with hid | hid
      · exact .inl (.inr ⟨h, hid⟩)
      · exact .inr (.inr ⟨h.symm, hid⟩)
    · exact .inl (.inl h)

instance : IsTrans (ℕ × RingNode) Precedes where
  trans a b c hab hbc := by
    rcases hab with hab | ⟨hab, hida⟩ <;> rcases hbc with hbc | ⟨hbc, hidb⟩
    · exact .inl (hbc.trans hab)
    · exact .inl (hbc ▸ hab)
    · exact .inl (hab ▸ hbc)
    · exact .inr ⟨hab.trans hbc, hida.trans hidb⟩

/-- The eligible nodes with their scores. -/
def scored (digest : Digest) (nodes : List RingNode) : List (ℕ × RingNode) :=
  (nodes.filter fun n => n.status.isEligible).map fun n => (score n.nodeId digest, n)

theorem ranked_eq (digest : Digest) (nodes : List RingNode) :
    ranked digest nodes = ((scored digest nodes).insertionSort Precedes).map Prod.snd := rfl

theorem mem_scored {p : ℕ × RingNode} :
    p ∈ scored digest nodes ↔
      (p.2 ∈ nodes ∧ p.2.status.isEligible = true) ∧ p.1 = score p.2.nodeId digest := by
  rw [scored, mem_map]
  constructor
  · rintro ⟨n, hn, rfl⟩
    exact ⟨mem_filter.1 hn, rfl⟩
  · rintro ⟨hn, hscore⟩
    exact ⟨p.2, mem_filter.2 hn, by rw [← hscore]⟩

theorem separates_scored (h : (nodes.map RingNode.nodeId).Nodup) (digest : Digest) :
    Separates Precedes (scored digest nodes) := by
  intro a ha b hb hab hba
  obtain ⟨⟨ha, -⟩, hsa⟩ := mem_scored.1 ha
  obtain ⟨⟨hb, -⟩, hsb⟩ := mem_scored.1 hb
  have hid : a.2.nodeId = b.2.nodeId := by
    rcases hab with hab | ⟨hscore, hab⟩ <;> rcases hba with hba | ⟨hscore', hba⟩
    · exact absurd hab (lt_asymm hba)
    · exact absurd hab (hscore' ▸ lt_irrefl _)
    · exact absurd hba (hscore ▸ lt_irrefl _)
    · exact le_antisymm hab hba
  have hnode : a.2 = b.2 := inj_on_of_nodup_map h ha hb hid
  exact Prod.ext (by rw [hsa, hsb, hid]) hnode

/-- The order of the ring on the nodes, for a digest. -/
def Before (digest : Digest) (a b : RingNode) : Prop :=
  Precedes (score a.nodeId digest, a) (score b.nodeId digest, b)

theorem eq_ranked {l : List RingNode} (h : (nodes.map RingNode.nodeId).Nodup)
    (hperm : l.Perm (nodes.filter fun n => n.status.isEligible)) (hl : l.Pairwise (Before digest)) :
    l = ranked digest nodes := by
  have hsorted : (l.map fun n => (score n.nodeId digest, n)).Pairwise Precedes :=
    pairwise_map.2 hl
  rw [ranked_eq, ← eq_insertionSort (separates_scored h digest) (hperm.map _) hsorted, map_map]
  exact (map_id l).symm

theorem ranked_sorted (digest : Digest) (nodes : List RingNode) :
    (ranked digest nodes).Pairwise (Before digest) := by
  rw [ranked_eq, pairwise_map]
  refine (pairwise_insertionSort Precedes (scored digest nodes)).imp_of_mem ?_
  intro a b ha hb hab
  have hscore : ∀ p ∈ (scored digest nodes).insertionSort Precedes,
      p = (score p.2.nodeId digest, p.2) := fun p hp =>
    Prod.ext (mem_scored.1 ((mem_insertionSort Precedes).1 hp)).2 rfl
  rw [hscore a ha, hscore b hb] at hab
  exact hab

/-- The nodes except the one with an id. -/
def without (id : String) (nodes : List RingNode) : List RingNode :=
  nodes.filter fun n => decide (n.nodeId ≠ id)

/-- The nodes, with the one with an id unreachable. -/
def markUnreachable (id : String) (nodes : List RingNode) : List RingNode :=
  nodes.map fun n => if n.nodeId = id then { n with status := .unreachable } else n

theorem without_cons_of_eq {id : String} (h : n.nodeId = id) (nodes : List RingNode) :
    without id (n :: nodes) = without id nodes :=
  filter_cons_of_neg (by simp [h])

theorem without_cons_of_ne {id : String} (h : n.nodeId ≠ id) (nodes : List RingNode) :
    without id (n :: nodes) = n :: without id nodes :=
  filter_cons_of_pos (decide_eq_true h)

theorem ranked_without (h : (nodes.map RingNode.nodeId).Nodup) (digest : Digest) (id : String) :
    ranked digest (without id nodes) = without id (ranked digest nodes) := by
  refine (eq_ranked (h.sublist (filter_sublist.map _)) ?_ ?_).symm
  · refine ((ranked_perm digest nodes).filter _).trans (List.Perm.of_eq ?_)
    exact filter_comm _ _ nodes
  · exact (ranked_sorted digest nodes).filter _

theorem ranked_markUnreachable (digest : Digest) (id : String) (nodes : List RingNode) :
    ranked digest (markUnreachable id nodes) = ranked digest (without id nodes) := by
  have heligible : (markUnreachable id nodes).filter (fun n => n.status.isEligible) =
      (without id nodes).filter fun n => n.status.isEligible := by
    induction nodes with
    | nil => rfl
    | cons n nodes ih =>
      rw [markUnreachable, map_cons, ← markUnreachable, filter_cons, ih]
      by_cases hid : n.nodeId = id
      · rw [if_pos hid, without_cons_of_eq hid]
        exact if_neg Bool.false_ne_true
      · rw [if_neg hid, without_cons_of_ne hid, filter_cons]
  rw [ranked, ranked, heligible]

theorem countP_ranked_le (h : (nodes.map RingNode.nodeId).Nodup) (digest : Digest) (id : String) :
    ((ranked digest nodes).countP fun n => decide ¬decide (n.nodeId ≠ id) = true) ≤ 1 := by
  have hids : ((ranked digest nodes).map RingNode.nodeId).Nodup :=
    ((ranked_perm digest nodes).map _).nodup_iff.2 (h.sublist (filter_sublist.map _))
  have hcount := nodup_iff_count_le_one.1 hids id
  rw [count, countP_map] at hcount
  refine le_trans (le_of_eq (countP_congr fun n _ => ?_)) hcount
  simp

/-- **Minimal disruption.**  The replicas of a digest do not depend on the order of the
nodes, more replicas are the same ones and some others, and a node that is removed or
becomes unreachable leaves its place to the next one, with all others where they
were. -/
theorem minimal_disruption (digest : Digest) (nodes : List RingNode)
    (h : (nodes.map RingNode.nodeId).Nodup) (r : ℕ) :
    (∀ nodes' : List RingNode, (nodes'.map RingNode.nodeId).Nodup →
      (∀ n, n ∈ nodes' ↔ n ∈ nodes) → replicasFor digest nodes' r = replicasFor digest nodes r) ∧
    replicasFor digest nodes r <+: replicasFor digest nodes (r + 1) ∧
    ∀ id, replicasFor digest (without id nodes) r =
        (without id (replicasFor digest nodes (r + 1))).take r ∧
      replicasFor digest (markUnreachable id nodes) r =
        (without id (replicasFor digest nodes (r + 1))).take r := by
  have hgone : ∀ id, (ranked digest (without id nodes)).take r =
      (without id ((ranked digest nodes).take (r + 1))).take r := by
    intro id
    rw [ranked_without h]
    exact take_filter_take (countP_ranked_le h digest id) r
  simp only [replicasFor_eq]
  refine ⟨?_, List.take_prefix_take_left (Nat.le_succ r), fun id => ⟨hgone id, ?_⟩⟩
  · intro nodes' h' hmem
    have hperm : nodes'.Perm nodes := (perm_ext_iff_of_nodup h'.of_map h.of_map).2 hmem
    rw [eq_ranked h ((ranked_perm digest nodes').trans (hperm.filter _))
      (ranked_sorted digest nodes')]
  · rw [ranked_markUnreachable]
    exact hgone id

theorem minimal_disruption_sample :
    replicasFor (Digest.of [7]) (without "b" [⟨"a", "http://a", .healthy⟩,
        ⟨"b", "http://b", .suspect⟩, ⟨"c", "http://c", .healthy⟩]) 1 =
      (without "b" (replicasFor (Digest.of [7]) [⟨"a", "http://a", .healthy⟩,
        ⟨"b", "http://b", .suspect⟩, ⟨"c", "http://c", .healthy⟩] 2)).take 1 :=
  ((minimal_disruption (Digest.of [7]) _ (by decide) 1).2.2 "b").1

end Brokkr.Blobs
