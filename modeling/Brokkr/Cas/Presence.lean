import Brokkr.Cas.Replicated

/-!
# Presence in the replicated store

`find_missing_blobs` of `ReplicatedCas` (`replicated.rs`). The digests of a batch are
grouped by their primary, and a group is asked for as a whole: of the replicas of the
digest that opened the group, the first one that answers.

* `PoolNode`, `StaticPool` — nodes that are up or return errors; the others are absent.
* `groupByPrimary`, `askReplicas`, `findMissingBlobs` — the grouping, the fallback from
  one replica to the next, and the answer.
* `answering` — the replica that is asked in the end.
* `mem_findMissingBlobs` — the answer, digest by digest: it depends on the replicas of
  another digest of the batch (`Topology.asked`).
* `Agrees` — batches where this makes no difference: whoever is asked knows as much about
  a digest as the replica that answers for it alone.
-/

namespace Brokkr.Blobs

open OrdMap

open List

/-! ## The pool -/

/-- A node that the pool knows. -/
inductive PoolNode where
  | up (store : MemStore)
  | erroring (error : CasError)

/-- The calls on a node. -/
def poolNodeCas : Cas PoolNode where
  findMissingBlobs
    | .up store, ds => (inMemoryCas.findMissingBlobs store ds).map id .up
    | .erroring e, _ => (.error e, .erroring e)
  batchUpdateBlobs
    | .up store, blobs => (inMemoryCas.batchUpdateBlobs store blobs).map id .up
    | .erroring e, _ => (.error e, .erroring e)
  batchReadBlobs
    | .up store, ds => (inMemoryCas.batchReadBlobs store ds).map id .up
    | .erroring e, _ => (.error e, .erroring e)
  listDigests
    | .up store => (inMemoryCas.listDigests store).map id .up
    | .erroring e => (.error e, .erroring e)

/-- The nodes that can be looked up. -/
abbrev StaticPool := String → Option PoolNode

variable {pool : StaticPool} {d : Digest} {ds : List Digest}

/-- A node as it answers now. -/
def PoolNode.replica (node : PoolNode) : Replica where
  update blobs := (poolNodeCas.batchUpdateBlobs node blobs).1
  read ds := (poolNodeCas.batchReadBlobs node ds).1

/-- The pool as it answers now. -/
def StaticPool.replicas (pool : StaticPool) : ReplicaPool := fun n => (pool n).map PoolNode.replica

/-! ## Find-missing -/

/-- The digests of a batch by primary, and the replicas that are asked for them. -/
structure Slices where
  byNode : OrdMap String (List Digest) := ∅
  nodeEndpoints : OrdMap String (List RingNode) := ∅

/-- One more digest. -/
def Slices.push (s : Slices) (primary : String) (d : Digest) (replicas : List RingNode) :
    Slices where
  byNode := s.byNode.insert primary ((s.byNode.get? primary).getD [] ++ [d])
  nodeEndpoints := s.nodeEndpoints.orInsert primary replicas

/-- Group the digests; a digest without replicas ends the loop. -/
def groupByPrimary (T : Topology) : Slices → List Digest → Option Slices
  | s, [] => some s
  | s, d :: ds =>
    match T.replicasFor d with
    | [] => none
    | primary :: rest => groupByPrimary T (s.push primary.nodeId d (primary :: rest)) ds

/-- Ask one replica after the other for a slice, until one of them answers. -/
def askReplicas (pool : StaticPool) (slice : List Digest) : List RingNode → Option (List Digest)
  | [] => none
  | r :: replicas =>
    match pool r.nodeId with
    | none => askReplicas pool slice replicas
    | some cas =>
      match (poolNodeCas.findMissingBlobs cas slice).1 with
      | .ok missing => some missing
      | .error _ => askReplicas pool slice replicas

/-- `find_missing_blobs`. It never fails: with no replicas at all every digest is
missing, and so is a slice that nobody answers for. -/
def findMissingBlobs (T : Topology) (pool : StaticPool) (digests : List Digest) : List Digest :=
  match groupByPrimary T {} digests with
  | none => digests
  | some slices =>
    slices.byNode.toList.flatMap fun group =>
      (askReplicas pool group.2 ((slices.nodeEndpoints.get? group.1).getD [])).getD group.2

/-! ## Who answers -/

/-- The first replica that answers, and what it holds. -/
def answering (pool : StaticPool) : List RingNode → Option (String × MemStore)
  | [] => none
  | r :: replicas =>
    match pool r.nodeId with
    | some (.up store) => some (r.nodeId, store)
    | _ => answering pool replicas

theorem askReplicas_eq (pool : StaticPool) (slice : List Digest) (replicas : List RingNode) :
    askReplicas pool slice replicas =
      (answering pool replicas).map fun a => slice.filter fun d => !a.2.contains d := by
  induction replicas with
  | nil => rfl
  | cons r replicas ih =>
    rw [askReplicas, answering]
    match pool r.nodeId with
    | none => exact ih
    | some (.erroring e) => exact ih
    | some (.up store) => rfl

/-- Nobody who is asked for the digest holds it. -/
def Lacks (pool : StaticPool) (replicas : List RingNode) (d : Digest) : Prop :=
  ∀ a, answering pool replicas = some a → a.2.contains d = false

theorem lacks_iff {replicas : List RingNode} : Lacks pool replicas d ↔
    ((answering pool replicas).all fun a => !a.2.contains d) = true := by
  rw [Lacks]
  cases answering pool replicas <;> simp

instance (pool : StaticPool) (replicas : List RingNode) (d : Digest) :
    Decidable (Lacks pool replicas d) := decidable_of_iff _ lacks_iff.symm

theorem not_lacks {replicas : List RingNode} : ¬ Lacks pool replicas d ↔
    ∃ a, answering pool replicas = some a ∧ a.2.contains d = true := by
  simp [Lacks]

theorem mem_ask {slice : List Digest} {replicas : List RingNode} :
    d ∈ (askReplicas pool slice replicas).getD slice ↔ d ∈ slice ∧ Lacks pool replicas d := by
  rw [askReplicas_eq, Lacks]
  cases answering pool replicas with
  | none => simp
  | some => simp [mem_filter]

theorem readLoop_of_answering {replicas : List RingNode} {a : String × MemStore} {b : Bytes}
    (h : answering pool replicas = some a) (hb : a.2.get? d = some b) :
    readLoop pool.replicas d replicas = some b := by
  induction replicas with
  | nil => cases h
  | cons r replicas ih =>
    rw [readLoop, StaticPool.replicas]
    rw [answering] at h
    cases hnode : pool r.nodeId with
    | none =>
      rw [hnode] at h
      exact ih h
    | some node =>
      rw [hnode] at h
      cases node with
      | erroring => exact ih h
      | up store =>
        cases h
        have hread : (PoolNode.up store).replica.read [d] = .ok [.ok b] := by
          show Except.ok [readEntry d (store.get? d)] = _
          rw [hb]
          rfl
        simp only [Option.map_some, hread, getLast?_singleton]

/-! ## The groups -/

namespace Topology

variable (T : Topology)

/-- The id of the first replica of a digest. -/
def primary (d : Digest) : Option String := (T.replicasFor d).head?.map RingNode.nodeId

/-- The digests of a batch with one primary. -/
def slice (ds : List Digest) (p : String) : List Digest :=
  ds.filter fun d => decide (T.primary d = some p)

/-- The digest that opens the group of a primary. -/
def opener (ds : List Digest) (p : String) : Option Digest :=
  ds.find? fun d => decide (T.primary d = some p)

/-- The replicas that a batch asks for a digest: those of the first one with its primary. -/
def asked (ds : List Digest) (d : Digest) : List RingNode :=
  ((ds.find? fun e => decide (T.primary e = T.primary d)).map T.replicasFor).getD []

theorem length_replicasFor (d : Digest) : (T.replicasFor d).length =
    min T.replicationFactor (T.nodes.filter fun n => n.status.isEligible).length := by
  rw [Topology.replicasFor, replicasFor_eq, length_take, (ranked_perm d T.nodes).length_eq]

theorem replicasFor_eq_nil_iff (d e : Digest) : T.replicasFor d = [] ↔ T.replicasFor e = [] := by
  rw [← length_eq_zero_iff, ← length_eq_zero_iff, length_replicasFor, length_replicasFor]

end Topology

/-- What the loop has gathered from the digests so far. -/
structure Slices.Of (T : Topology) (ds : List Digest) (s : Slices) : Prop where
  byNode : ∀ p slice, s.byNode.get? p = some slice ↔ T.slice ds p = slice ∧ slice ≠ []
  nodeEndpoints : ∀ p, s.nodeEndpoints.get? p = (T.opener ds p).map T.replicasFor

theorem Slices.of_nil (T : Topology) : Slices.Of T [] {} where
  byNode p slice := by
    constructor
    · intro h
      cases h
    · rintro ⟨rfl, hne⟩
      exact absurd rfl hne
  nodeEndpoints _ := rfl

namespace Slices.Of

variable {T : Topology} {s : Slices}

theorem getD_byNode (h : Slices.Of T ds s) (p : String) :
    (s.byNode.get? p).getD [] = T.slice ds p := by
  cases hget : s.byNode.get? p with
  | some slice => exact ((h.byNode p slice).1 hget).1.symm
  | none =>
    by_contra hne
    have := (h.byNode p (T.slice ds p)).2 ⟨rfl, fun hnil => hne (by rw [hnil]; rfl)⟩
    rw [hget] at this
    cases this

theorem push (h : Slices.Of T ds s) {primary : RingNode} {rest : List RingNode}
    (hd : T.replicasFor d = primary :: rest) :
    Slices.Of T (ds ++ [d]) (s.push primary.nodeId d (primary :: rest)) := by
  have hprimary : T.primary d = some primary.nodeId := by rw [Topology.primary, hd]; rfl
  have hslice : ∀ p, T.slice (ds ++ [d]) p =
      T.slice ds p ++ if p = primary.nodeId then [d] else [] := by
    intro p
    rw [Topology.slice, filter_append, ← Topology.slice, filter_singleton, hprimary]
    by_cases hp : p = primary.nodeId
    · simp [hp]
    · simp [hp, Ne.symm hp]
  constructor
  · intro p slice
    rw [Slices.push, get?_insert, hslice]
    by_cases hp : p = primary.nodeId
    · rw [if_pos hp, if_pos hp, h.getD_byNode, hp]
      simp only [Option.some_inj]
      constructor
      · rintro rfl
        exact ⟨rfl, append_ne_nil_of_right_ne_nil _ (cons_ne_nil d [])⟩
      · exact fun hs => hs.1
    · rw [if_neg hp, if_neg hp, append_nil]
      exact h.byNode p slice
  · intro p
    have hopener : T.opener (ds ++ [d]) p =
        (T.opener ds p).or (if p = primary.nodeId then some d else none) := by
      rw [Topology.opener, find?_append, ← Topology.opener, find?_singleton, hprimary]
      by_cases hp : p = primary.nodeId
      · simp [hp]
      · simp [hp, Ne.symm hp]
    rw [Slices.push, get?_orInsert, h.nodeEndpoints, h.nodeEndpoints, hopener]
    by_cases hp : p = primary.nodeId
    · rw [if_pos hp, if_pos hp, ← hp, ← hd]
      cases T.opener ds p with
      | some => rfl
      | none => rfl
    · rw [if_neg hp, if_neg hp, Option.or_none]

theorem group (h : Slices.Of T ds s) {more : List Digest}
    (hmore : ∀ d ∈ more, T.replicasFor d ≠ []) :
    ∃ s', groupByPrimary T s more = some s' ∧ Slices.Of T (ds ++ more) s' := by
  induction more generalizing ds s with
  | nil => exact ⟨s, rfl, by rwa [append_nil]⟩
  | cons d more ih =>
    rw [groupByPrimary]
    cases hd : T.replicasFor d with
    | nil => exact absurd hd (hmore d mem_cons_self)
    | cons =>
      obtain ⟨s', hs', hof⟩ := ih (h.push hd) fun e he => hmore e (mem_cons_of_mem d he)
      rw [append_assoc] at hof
      exact ⟨s', hs', hof⟩

end Slices.Of

theorem findMissingBlobs_of_nil {T : Topology} (pool : StaticPool) (hd : T.replicasFor d = []) :
    findMissingBlobs T pool ds = ds := by
  rw [findMissingBlobs]
  cases ds with
  | nil => rfl
  | cons e => rw [groupByPrimary, (T.replicasFor_eq_nil_iff d e).1 hd]

theorem mem_findMissingBlobs {T : Topology} :
    d ∈ findMissingBlobs T pool ds ↔ d ∈ ds ∧ Lacks pool (T.asked ds d) d := by
  cases hcons : T.replicasFor d with
  | nil =>
    rw [findMissingBlobs_of_nil pool hcons]
    refine iff_self_and.2 fun _ => ?_
    have hnil : T.asked ds d = [] := by
      rw [Topology.asked]
      cases ds.find? fun e => decide (T.primary e = T.primary d) with
      | none => rfl
      | some e => exact (T.replicasFor_eq_nil_iff d e).1 hcons
    rw [hnil]
    rintro a ⟨⟩
  | cons primary rest =>
  obtain ⟨s, hs, hof⟩ := (Slices.of_nil T).group fun e (_ : e ∈ ds) he =>
    cons_ne_nil primary rest (hcons ▸ (T.replicasFor_eq_nil_iff d e).2 he)
  have hprimary : T.primary d = some primary.nodeId := by rw [Topology.primary, hcons]; rfl
  have hasked : T.asked ds d = (s.nodeEndpoints.get? primary.nodeId).getD [] := by
    rw [hof.nodeEndpoints, Topology.asked, hprimary]
    rfl
  rw [findMissingBlobs, hs, hasked]
  simp only [mem_flatMap]
  constructor
  · rintro ⟨⟨p, slice⟩, hgroup, hd⟩
    obtain ⟨rfl, -⟩ := (hof.byNode p slice).1 (get?_eq_some.2 hgroup)
    obtain ⟨hmem, hlacks⟩ := mem_ask.1 hd
    obtain ⟨hds, hp⟩ := mem_filter.1 hmem
    cases hprimary.symm.trans (of_decide_eq_true hp)
    exact ⟨hds, hlacks⟩
  · rintro ⟨hds, hlacks⟩
    have hmem : d ∈ T.slice ds primary.nodeId := mem_filter.2 ⟨hds, decide_eq_true hprimary⟩
    have hget := (hof.byNode primary.nodeId _).2 ⟨rfl, ne_nil_of_mem hmem⟩
    exact ⟨(primary.nodeId, T.slice ds primary.nodeId), get?_eq_some.1 hget,
      mem_ask.2 ⟨hmem, hlacks⟩⟩

theorem asked_singleton (T : Topology) (d : Digest) : T.asked [d] d = T.replicasFor d := by
  simp [Topology.asked]

/-! ## Batches where the groups make no difference -/

/-- Of every digest of the batch the replica that is asked knows what the replica that
answers for the digest alone knows. So it is when the primaries are up. -/
def Agrees (T : Topology) (pool : StaticPool) (ds : List Digest) : Prop :=
  ∀ d ∈ ds, Lacks pool (T.asked ds d) d ↔ Lacks pool (T.replicasFor d) d

instance (T : Topology) (pool : StaticPool) (ds : List Digest) : Decidable (Agrees T pool ds) :=
  inferInstanceAs (Decidable (∀ d ∈ ds, _))

theorem batchReadBlobs_of_not_lacks {T : Topology} (h : ¬ Lacks pool (T.replicasFor d) d)
    {batch : List Digest} {k : ℕ} (hk : batch[k]? = some d) :
    ∃ b : Bytes, (batchReadBlobs T pool.replicas batch)[k]? = some (.ok b) := by
  rw [Lacks] at h
  push Not at h
  obtain ⟨a, ha, hholds⟩ := h
  obtain ⟨b, hb⟩ := Option.isSome_iff_exists.1 (Bool.of_not_eq_false hholds)
  refine ⟨b, ?_⟩
  rw [batchReadBlobs, getElem?_map, hk]
  show some (readEntry d (readLoop pool.replicas d (T.replicasFor d))) = _
  rw [readLoop_of_answering ha hb, readEntry_some]

/-- **Find-missing digest by digest.**  The answer for a batch is the union of the answers
for the single digests, and what is not reported missing can be read, exactly when the
replicas that are asked agree with those that answer for the digests alone. -/
theorem find_missing_pointwise (T : Topology) (pool : StaticPool) (ds : List Digest) :
    Agrees T pool ds ↔
      (∀ d, d ∈ findMissingBlobs T pool ds ↔ ∃ e ∈ ds, d ∈ findMissingBlobs T pool [e]) ∧
      ∀ d ∈ ds, d ∉ findMissingBlobs T pool ds → ∀ (batch : List Digest) (k : ℕ),
        batch[k]? = some d →
          ∃ b : Bytes, (batchReadBlobs T pool.replicas batch)[k]? = some (.ok b) := by
  have hsingle : ∀ d, (∃ e ∈ ds, d ∈ findMissingBlobs T pool [e]) ↔
      d ∈ ds ∧ Lacks pool (T.replicasFor d) d := by
    intro d
    simp only [mem_findMissingBlobs, mem_singleton]
    constructor
    · rintro ⟨e, he, rfl, hlacks⟩
      rw [asked_singleton] at hlacks
      exact ⟨he, hlacks⟩
    · rintro ⟨hd, hlacks⟩
      exact ⟨d, hd, rfl, by rwa [asked_singleton]⟩
  simp only [hsingle]
  simp only [mem_findMissingBlobs, and_congr_right_iff]
  refine ⟨fun hagrees => ⟨hagrees, fun d hd hpresent batch k hk => ?_⟩, And.left⟩
  refine batchReadBlobs_of_not_lacks (fun hlacks => hpresent ⟨hd, ?_⟩) hk
  exact (hagrees d hd).2 hlacks

namespace Sample

/-- Three nodes, two replicas of each blob. -/
def twoOfThree : Topology where
  generation := 1
  nodes := [⟨"a", "http://a:7980", .healthy⟩, ⟨"b", "http://b:7980", .healthy⟩,
    ⟨"c", "http://c:7980", .healthy⟩]
  replicationFactor := 2

theorem twoOfThree_zero : twoOfThree.replicasFor (Digest.of [0]) =
    [⟨"c", "http://c:7980", .healthy⟩, ⟨"a", "http://a:7980", .healthy⟩] := by
  decide +kernel

/-- Node `c` is away; the others hold one blob each. -/
def splitPool (onA onB : Bytes) : StaticPool := fun n =>
  if n = "a" then some (.up ((∅ : MemStore).insert (Digest.of onA) onA))
  else if n = "b" then some (.up ((∅ : MemStore).insert (Digest.of onB) onB))
  else none

/-- Node `c` is away; the others hold both blobs. -/
def bothPool (x y : Bytes) : StaticPool := fun n =>
  if n = "c" then none
  else some (.up (((∅ : MemStore).insert (Digest.of x) x).insert (Digest.of y) y))

end Sample

open Sample

/-- Two blobs with one primary and different second replicas, which both hold both. -/
theorem find_missing_pointwise_sample :
    (∀ d, d ∈ findMissingBlobs twoOfThree (bothPool [0] [1]) [Digest.of [0], Digest.of [1]] ↔
      ∃ e ∈ [Digest.of [0], Digest.of [1]],
        d ∈ findMissingBlobs twoOfThree (bothPool [0] [1]) [e]) :=
  ((find_missing_pointwise twoOfThree (bothPool [0] [1]) [Digest.of [0], Digest.of [1]]).1
    (by decide +kernel)).1

/-- The blobs `[0]` and `[1]` have the primary `c`, but the second replicas `a` and `b`.
While `c` is away the batch of the two is asked for at `a`: what `b` holds is reported
missing, and what `a` happens to hold is not, although no read looks there. -/
theorem batch_changes_answer :
    Digest.of [1] ∈ findMissingBlobs twoOfThree (splitPool [0] [1])
      [Digest.of [0], Digest.of [1]] ∧
    findMissingBlobs twoOfThree (splitPool [0] [1]) [Digest.of [0]] = [] ∧
    findMissingBlobs twoOfThree (splitPool [0] [1]) [Digest.of [1]] = [] ∧
    Digest.of [1] ∉ findMissingBlobs twoOfThree (splitPool [1] [0])
      [Digest.of [0], Digest.of [1]] ∧
    batchReadBlobs twoOfThree (splitPool [1] [0]).replicas [Digest.of [1]] =
      [.error (.notFound (Digest.of [1]))] := by
  decide +kernel

/-! ## Acknowledged blobs -/

/-- The node is up and holds the blob. -/
def HeldBy (pool : StaticPool) (d : Digest) (n : String) : Prop :=
  ∃ store, pool n = some (.up store) ∧ store.contains d = true

theorem contains_insert (store : MemStore) (d : Digest) (b : Bytes) (e : Digest) :
    (store.insert d b).contains e = true ↔ store.contains e = true ∨ e = d := by
  rw [OrdMap.contains, OrdMap.get?_insert]
  by_cases he : e = d
  · simp [he]
  · simp [he, OrdMap.contains]

theorem exists_answering {replicas : List RingNode} {r : RingNode} (hr : r ∈ replicas)
    {store : MemStore} (hup : pool r.nodeId = some (.up store)) :
    ∃ a, answering pool replicas = some a := by
  induction replicas with
  | nil => cases hr
  | cons r' replicas ih =>
    rw [answering]
    split
    · exact ⟨_, rfl⟩
    · rename_i hno
      refine ih ((mem_cons.1 hr).resolve_left ?_)
      rintro rfl
      exact hno store hup

/-- **Acknowledged blobs.**  A blob was written, and a replica that acknowledged it is up
and holds it.  A batch does not report it missing exactly when the first replica that
answers, of those that the batch asks for it, holds it; and of its own replicas one does
answer. -/
theorem acknowledged_not_missing (T : Topology) (w : Write)
    (pool : StaticPool) (n : String) (hacked : w.ackedBy T n = true)
    (hheld : HeldBy pool w.digest n) (ds : List Digest) (hd : w.digest ∈ ds) :
    (w.digest ∉ findMissingBlobs T pool ds ↔
      ∃ a, answering pool (T.asked ds w.digest) = some a ∧ a.2.contains w.digest = true) ∧
    ∃ a, answering pool (T.replicasFor w.digest) = some a := by
  constructor
  · rw [mem_findMissingBlobs, and_iff_right hd, not_lacks]
  obtain ⟨⟨r, hr, rfl⟩, -⟩ := ackedBy_iff.1 hacked
  obtain ⟨store, hup, -⟩ := hheld
  exact exists_answering hr hup

namespace Sample

/-- All nodes but `a`, each with the same blobs, and `a` in some state. -/
def aside (a : Option PoolNode) (others : MemStore) : StaticPool := fun n =>
  if n = "a" then a else some (.up others)

/-- The blob `[7]`, whose primary is `a`, is written while `a` is away. -/
def writeAside : Write where
  pool := (aside none ∅).replicas
  digest := Digest.of [7]
  bytes := [7]

/-- A store with that blob. -/
def seven : MemStore := (∅ : MemStore).insert (Digest.of [7]) [7]

theorem contains_seven : seven.contains (Digest.of [7]) = true :=
  (contains_insert ∅ (Digest.of [7]) [7] _).2 (Or.inr rfl)

end Sample

theorem Sample.writeAside_ok :
    (writeBlob threeNodes writeAside.pool (Digest.of [7]) [7]).status = .ok () := by
  decide +kernel

theorem Sample.writeAside_acked : writeAside.ackedBy threeNodes "b" = true := by
  show (decide ("b" ∈ (threeNodes.replicasFor (Digest.of [7])).map RingNode.nodeId) && _) = true
  decide +kernel

/-- The primary is away: the next replica answers and holds the blob. -/
theorem acknowledged_not_missing_sample :
    (writeBlob threeNodes writeAside.pool (Digest.of [7]) [7]).status = .ok () ∧
    Digest.of [7] ∉ findMissingBlobs threeNodes (aside none seven)
      [Digest.of [4], Digest.of [7]] := by
  have hd : Digest.of [7] ∈ [Digest.of [4], Digest.of [7]] := mem_cons_of_mem _ mem_cons_self
  refine ⟨writeAside_ok, (acknowledged_not_missing threeNodes writeAside
    (aside none seven) "b" writeAside_acked ⟨seven, rfl, contains_seven⟩ _ hd).1.2 ?_⟩
  exact ⟨("b", seven), by decide +kernel, contains_seven⟩

/-- The write is acknowledged by the two nodes that are there. When the primary is back,
it answers alone, and it does not have the blob. -/
theorem acknowledged_reported_missing :
    (writeBlob threeNodes writeAside.pool (Digest.of [7]) [7]).status = .ok () ∧
    writeAside.ackedBy threeNodes "b" = true ∧
    HeldBy (aside (some (.up ∅)) seven) (Digest.of [7]) "b" ∧
    Digest.of [7] ∈ findMissingBlobs threeNodes
      (aside (some (.up ∅)) seven) [Digest.of [7]] := by
  refine ⟨writeAside_ok, writeAside_acked, ⟨seven, rfl, contains_seven⟩, ?_⟩
  rw [mem_findMissingBlobs, asked_singleton, threeNodes_seven]
  refine ⟨mem_singleton_self _, ?_⟩
  rintro a ⟨⟩
  rfl

end Brokkr.Blobs
