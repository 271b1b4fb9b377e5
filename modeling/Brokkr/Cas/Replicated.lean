import Brokkr.Cas.Ring
import Brokkr.Cas.Store

/-!
# The replicated store

`ReplicatedCas` (`replicated.rs`): every blob goes to the replicas that the ring
selects for it, and is stored when a quorum of them acknowledges it; a read tries the
replicas in the order of the ring.

* `Replica`, `ReplicaPool` — the backends as they answer at one moment; a node that
  the pool does not know has none.
* `writeBlob`, `batchUpdateBlobs` — the fan-out, the count of acknowledgements and the
  quorum.
* `readLoop`, `batchReadBlobs` — the reads.
* `Held` — what each node has acknowledged, after a run of writes.
* `quorum_durable` — a blob that was stored can be read after any minority of nodes
  has failed.
-/

namespace Brokkr.Blobs

open List

/-! ## Replicas -/

/-- A replica as it answers at one moment. -/
structure Replica where
  update : List (Digest × Bytes) → Except CasError (List UpdateResult)
  read : List Digest → Except CasError (List (Except CasError Bytes))

/-- The replicas by node id. -/
abbrev ReplicaPool := String → Option Replica

namespace Topology

/-- The replicas of a digest. -/
def replicasFor (T : Topology) (digest : Digest) : List RingNode :=
  Blobs.replicasFor digest T.nodes T.replicationFactor

/-- How many acknowledgements a write needs. -/
def writeQuorum (T : Topology) : ℕ :=
  if T.replicationFactor = 0 then 0 else T.replicationFactor / 2 + 1

end Topology

/-! ## Writes -/

/-- What the replicas return for one blob. -/
def fanOut (pool : ReplicaPool) (replicas : List RingNode) (digest : Digest) (bytes : Bytes) :
    List (Except CasError (List UpdateResult)) :=
  replicas.filterMap fun r => (pool r.nodeId).map fun cas => cas.update [(digest, bytes)]

/-- One result of the fan-out: it is an acknowledgement, or it may say why not. -/
def tally : ℕ × Option String → Except CasError (List UpdateResult) → ℕ × Option String
  | (acks, lastErr), .ok perBlob =>
    match perBlob.head? with
    | some r =>
      match r.status with
      | .ok _ => (acks + 1, lastErr)
      | .error err => (acks, some err)
    | none => (acks, lastErr)
  | (acks, _), .error e => (acks, some e.toString)

/-- Write one blob of a batch. -/
def writeBlob (T : Topology) (pool : ReplicaPool) (digest : Digest) (bytes : Bytes) :
    UpdateResult :=
  let replicas := T.replicasFor digest
  if replicas.isEmpty then ⟨digest, .error "no replicas available"⟩
  else
    let (acks, lastErr) := (fanOut pool replicas digest bytes).foldl tally (0, none)
    let quorum := T.writeQuorum
    if quorum ≤ acks then ⟨digest, .ok ()⟩
    else ⟨digest, .error (lastErr.getD s!"write quorum not reached: {acks}/{quorum}")⟩

/-- A blob of a batch, with the pool as it answers while the blob is written. -/
structure Write where
  pool : ReplicaPool
  digest : Digest
  bytes : Bytes

/-- `batch_update_blobs`. -/
def batchUpdateBlobs (T : Topology) (batch : List Write) : List UpdateResult :=
  batch.map fun w => writeBlob T w.pool w.digest w.bytes

/-! ## Reads -/

/-- Try the replicas one after the other; the first one that has the blob wins. -/
def readLoop (pool : ReplicaPool) (d : Digest) : List RingNode → Option Bytes
  | [] => none
  | r :: replicas =>
    match pool r.nodeId with
    | none => readLoop pool d replicas
    | some cas =>
      match cas.read [d] with
      | .error _ => readLoop pool d replicas
      | .ok results =>
        match results.getLast? with
        | some (.ok bytes) => some bytes
        | _ => readLoop pool d replicas

/-- `batch_read_blobs`. -/
def batchReadBlobs (T : Topology) (pool : ReplicaPool) (ds : List Digest) :
    List (Except CasError Bytes) :=
  ds.map fun d => readEntry d (readLoop pool d (T.replicasFor d))

/-! ## What the nodes hold -/

/-- The replica acknowledges the blob. -/
def Replica.acks (cas : Replica) (digest : Digest) (bytes : Bytes) : Bool :=
  match cas.update [(digest, bytes)] with
  | .ok (r :: _) => r.status.toBool
  | _ => false

/-- The node is asked to store the blob, and acknowledges it. -/
def Write.ackedBy (T : Topology) (w : Write) (n : String) : Bool :=
  decide (n ∈ (T.replicasFor w.digest).map RingNode.nodeId) &&
    match w.pool n with
    | some cas => cas.acks w.digest w.bytes
    | none => false

/-- What each node has acknowledged last under each digest. -/
abbrev Held := String → Digest → Option Bytes

variable {T : Topology} {w : Write} {held : Held} {n : String} {d : Digest} {b : Bytes}

/-- What the nodes hold after one more blob is written. -/
def Held.write (T : Topology) (held : Held) (w : Write) : Held := fun n d =>
  if w.digest = d ∧ w.ackedBy T n = true then some w.bytes else held n d

/-- What the nodes hold after a run of batches, from nothing. -/
def heldAfter (T : Topology) (run : List (List Write)) : Held :=
  run.flatten.foldl (Held.write T) fun _ _ => none

/-- The replica keeps to the contract of the trait: it refuses blobs that do not match
their digest. -/
def Replica.Rejects (cas : Replica) : Prop := ∀ d b, cas.acks d b = true → d.verify b = .ok ()

/-- The pool after some nodes have failed, as it answers for a digest: whoever returns a blob
has acknowledged it, and a node that has acknowledged one and has not failed returns it.
Nothing is asked of a node that never acknowledged the blob. -/
structure Serves (pool : ReplicaPool) (held : Held) (failed : Finset String) (d : Digest) :
    Prop where
  honest : ∀ n cas results b, pool n = some cas → cas.read [d] = .ok results →
    results.getLast? = some (.ok b) → held n d = some b
  keeps : ∀ n ∉ failed, ∀ b, held n d = some b →
    ∃ cas, pool n = some cas ∧ cas.read [d] = .ok [.ok b]

/-! ## Quorums -/

theorem foldl_tally (pool : ReplicaPool) (digest : Digest) (bytes : Bytes)
    (replicas : List RingNode) (start : ℕ × Option String) :
    ((fanOut pool replicas digest bytes).foldl tally start).1 = start.1 + replicas.countP fun r =>
        match pool r.nodeId with
        | some cas => cas.acks digest bytes
        | none => false := by
  induction replicas generalizing start with
  | nil => rfl
  | cons r replicas ih =>
    rw [fanOut, filterMap_cons, countP_cons]
    cases hpool : pool r.nodeId with
    | none =>
      rw [← fanOut] at *
      simp only [Option.map_none]
      rw [ih]
      simp
    | some cas =>
      simp only [Option.map_some, foldl_cons]
      rw [← fanOut, ih]
      have hstep : (tally start (cas.update [(digest, bytes)])).1 =
          start.1 + if cas.acks digest bytes = true then 1 else 0 := by
        rw [Replica.acks]
        cases cas.update [(digest, bytes)] with
        | error => rfl
        | ok perBlob =>
          cases perBlob with
          | nil => rfl
          | cons u =>
            rw [tally]
            cases hu : u.status <;> simp [hu, Except.toBool]
      omega

theorem quorum_of_ok (hids : (T.nodes.map RingNode.nodeId).Nodup)
    (hok : (writeBlob T w.pool w.digest w.bytes).status = .ok ()) :
    ∃ acked : Finset String, T.writeQuorum ≤ acked.card ∧ ∀ n ∈ acked, w.ackedBy T n = true := by
  have hcount := foldl_tally w.pool w.digest w.bytes (T.replicasFor w.digest) (0, none)
  have hquorum : T.writeQuorum ≤ ((fanOut w.pool (T.replicasFor w.digest) w.digest
      w.bytes).foldl tally (0, none)).1 := by
    rw [writeBlob] at hok
    simp only at hok
    split at hok
    · cases hok
    split at hok
    · assumption
    · cases hok
  have hnodup : ((T.replicasFor w.digest).map RingNode.nodeId).Nodup :=
    replicasFor_nodup hids w.digest T.replicationFactor
  refine ⟨(((T.replicasFor w.digest).map RingNode.nodeId).filter (w.ackedBy T)).toFinset, ?_, ?_⟩
  · rw [toFinset_card_of_nodup (hnodup.filter _), ← countP_eq_length_filter, countP_map]
    refine hquorum.trans (le_of_eq ?_)
    rw [hcount, Nat.zero_add]
    refine countP_congr fun r hr => ?_
    have hmem : r.nodeId ∈ (T.replicasFor w.digest).map RingNode.nodeId := mem_map_of_mem hr
    rw [Function.comp, Write.ackedBy, decide_eq_true hmem, Bool.true_and]
  · intro n hn
    exact (mem_filter.1 (mem_toFinset.1 hn)).2

/-! ## Runs -/

theorem held_source {ws : List Write} (h : ws.foldl (Held.write T) held n d = some b) :
    held n d = some b ∨ ∃ w ∈ ws, w.digest = d ∧ w.bytes = b ∧ w.ackedBy T n = true := by
  induction ws generalizing held with
  | nil => exact .inl h
  | cons w ws ih =>
    rcases ih h with hheld | ⟨w', hw', hrest⟩
    · rw [Held.write] at hheld
      split at hheld
      · rename_i hack
        cases hheld
        exact .inr ⟨w, mem_cons_self, hack.1, rfl, hack.2⟩
      · exact .inl hheld
    · exact .inr ⟨w', mem_cons_of_mem _ hw', hrest⟩

theorem held_mono (ws : List Write) (h : (held n d).isSome) :
    (ws.foldl (Held.write T) held n d).isSome := by
  induction ws generalizing held with
  | nil => exact h
  | cons w ws ih =>
    refine ih ?_
    rw [Held.write]
    split
    · rfl
    · exact h

theorem held_of_acked {ws : List Write} (hw : w ∈ ws) (hack : w.ackedBy T n = true) :
    (ws.foldl (Held.write T) held n w.digest).isSome := by
  obtain ⟨l, r, rfl⟩ := append_of_mem hw
  rw [foldl_append, foldl_cons]
  refine held_mono r ?_
  rw [Held.write, if_pos ⟨rfl, hack⟩]
  rfl

theorem readLoop_eq_some {pool : ReplicaPool} {replicas : List RingNode}
    (hall : ∀ r ∈ replicas, ∀ cas, pool r.nodeId = some cas → ∀ results,
      cas.read [d] = .ok results → ∀ b', results.getLast? = some (.ok b') → b' = b)
    (hsome : ∃ r ∈ replicas, ∃ cas, pool r.nodeId = some cas ∧ cas.read [d] = .ok [.ok b]) :
    readLoop pool d replicas = some b := by
  induction replicas with
  | nil =>
    obtain ⟨r, hr, -⟩ := hsome
    cases hr
  | cons r replicas ih =>
    have hall' : ∀ r' ∈ replicas, ∀ cas, pool r'.nodeId = some cas → ∀ results,
        cas.read [d] = .ok results → ∀ b', results.getLast? = some (.ok b') → b' = b :=
      fun r' hr' => hall r' (mem_cons_of_mem _ hr')
    -- the blob is further down whenever this replica does not have it
    have hnext : (∀ cas, pool r.nodeId = some cas → cas.read [d] ≠ .ok [.ok b]) →
        readLoop pool d replicas = some b := by
      intro hno
      refine ih hall' ?_
      obtain ⟨r', hr', cas, hcas, hread⟩ := hsome
      rcases mem_cons.1 hr' with rfl | hr'
      · exact absurd hread (hno cas hcas)
      · exact ⟨r', hr', cas, hcas, hread⟩
    rw [readLoop]
    cases hpool : pool r.nodeId with
    | none => exact hnext fun cas hcas => by rw [hpool] at hcas; cases hcas
    | some cas =>
      simp only
      cases hread : cas.read [d] with
      | error =>
        refine hnext fun cas' hcas' => ?_
        rw [hpool] at hcas'
        cases hcas'
        rw [hread]
        exact fun hno => by cases hno
      | ok results =>
        simp only
        split
        · rename_i bytes hlast
          rw [hall r mem_cons_self cas hpool results hread bytes hlast]
        rename_i hnot
        refine hnext fun cas' hcas' => ?_
        rw [hpool] at hcas'
        cases hcas'
        rw [hread]
        intro heq
        cases heq
        exact hnot b rfl

theorem ackedBy_iff :
    w.ackedBy T n = true ↔ (∃ r ∈ T.replicasFor w.digest, r.nodeId = n) ∧
      ∃ cas, w.pool n = some cas ∧ cas.acks w.digest w.bytes = true := by
  rw [Write.ackedBy, Bool.and_eq_true, decide_eq_true_eq, mem_map]
  cases w.pool n with
  | none => simp
  | some => simp

theorem held_only {run : List (List Write)}
    (hrejects : ∀ batch ∈ run, ∀ w ∈ batch, ∀ n cas, w.pool n = some cas → cas.Rejects)
    (hsha : ∀ batch ∈ run, ∀ w ∈ batch, Digest.of w.bytes = Digest.of b → w.bytes = b) {c : Bytes}
    (h : heldAfter T run n (Digest.of b) = some c) : c = b := by
  rcases held_source h with hno | ⟨w, hw, hd, rfl, hack⟩
  · cases hno
  obtain ⟨batch, hbatch, hmem⟩ := mem_flatten.1 hw
  obtain ⟨-, cas, hcas, hacks⟩ := ackedBy_iff.1 hack
  have hverify := hrejects batch hbatch w hmem n cas hcas _ _ hacks
  refine hsha batch hbatch w hmem ?_
  rw [← Digest.verify_eq_ok.1 hverify, hd]

theorem readLoop_of_held {pool : ReplicaPool} {failed : Finset String}
    (hserves : Serves pool held failed d) (honly : ∀ n c, held n d = some c → c = b) {r : RingNode}
    (hr : r ∈ T.replicasFor d) (hup : r.nodeId ∉ failed) (hheld : held r.nodeId d = some b) :
    readLoop pool d (T.replicasFor d) = some b := by
  refine readLoop_eq_some ?_ ?_
  · intro r' _ cas hcas results hresults c hlast
    exact honly _ c (hserves.honest _ cas results c hcas hresults hlast)
  · obtain ⟨cas, hcas, hread⟩ := hserves.keeps r.nodeId hup b hheld
    exact ⟨r, hr, cas, hcas, hread⟩

/-- A blob that was stored can be read, at its place in every batch, after any set of
at most half of the replicas has failed; replicas that did not acknowledge the blob may be
away throughout. The only thing asked of the blobs of the run is that sha256 tells them
apart. -/
theorem quorum_durable (T : Topology) (hids : (T.nodes.map RingNode.nodeId).Nodup)
    (hR : 1 ≤ T.replicationFactor) (run : List (List Write))
    (hrejects : ∀ batch ∈ run, ∀ w ∈ batch, ∀ n cas, w.pool n = some cas → cas.Rejects)
    (batch : List Write) (hbatch : batch ∈ run) (k : ℕ) (w : Write) (hw : batch[k]? = some w)
    (hok : ((batchUpdateBlobs T batch)[k]?).map UpdateResult.status = some (.ok ()))
    (hsha : ∀ batch' ∈ run, ∀ w' ∈ batch', Digest.of w'.bytes = Digest.of w.bytes →
      w'.bytes = w.bytes)
    (failed : Finset String) (hfailed : failed.card ≤ T.replicationFactor / 2)
    (pool : ReplicaPool) (hserves : Serves pool (heldAfter T run) failed w.digest)
    (ds : List Digest) (j : ℕ) (hj : ds[j]? = some w.digest) :
    (batchReadBlobs T pool ds)[j]? = some (.ok w.bytes) := by
  have hmem : w ∈ batch := mem_of_getElem? hw
  have hstatus : (writeBlob T w.pool w.digest w.bytes).status = .ok () := by
    rw [batchUpdateBlobs, getElem?_map, hw] at hok
    simpa using hok
  obtain ⟨acked, hcard, hacked⟩ := quorum_of_ok hids hstatus
  -- more nodes have acknowledged the blob than have failed
  obtain ⟨n, hn, hup⟩ : ∃ n ∈ acked, n ∉ failed := by
    refine Finset.exists_mem_notMem_of_card_lt_card ?_
    rw [Topology.writeQuorum, if_neg (by omega)] at hcard
    omega
  have hack := hacked n hn
  obtain ⟨⟨r, hr, rfl⟩, cas, hcas, hacks⟩ := ackedBy_iff.1 hack
  have hd : w.digest = Digest.of w.bytes :=
    Digest.verify_eq_ok.1 (hrejects batch hbatch w hmem _ cas hcas _ _ hacks)
  have honly : ∀ m c, heldAfter T run m w.digest = some c → c = w.bytes := by
    intro m c hc
    rw [hd] at hc
    exact held_only hrejects hsha hc
  have hheld : heldAfter T run r.nodeId w.digest = some w.bytes := by
    have hflat : w ∈ run.flatten := mem_flatten.2 ⟨batch, hbatch, hmem⟩
    obtain ⟨c, hc⟩ := Option.isSome_iff_exists.1 (held_of_acked hflat hack)
    rw [heldAfter, hc, honly _ c hc]
  rw [batchReadBlobs, getElem?_map, hj]
  show some (readEntry w.digest (readLoop pool w.digest (T.replicasFor w.digest))) = _
  rw [readLoop_of_held hserves honly hr hup hheld, readEntry_some]

namespace Sample

/-- Three nodes, three replicas of each blob. -/
def threeNodes : Topology where
  generation := 1
  nodes := [⟨"a", "http://a:7980", .healthy⟩, ⟨"b", "http://b:7980", .suspect⟩,
    ⟨"c", "http://c:7980", .healthy⟩]
  replicationFactor := 3

theorem threeNodes_seven : threeNodes.replicasFor (Digest.of [7]) = threeNodes.nodes := by
  decide +kernel

/-- A node that stores what matches its digest and returns what it holds. -/
def node (held : Digest → Option Bytes) : Replica where
  update blobs := .ok (updateLoop (fun _ _ _ => ()) () blobs).1
  read ds := .ok (ds.map fun d => readEntry d (held d))

theorem node_rejects (held : Digest → Option Bytes) : (node held).Rejects := by
  intro d b hacks
  cases hv : d.verify b with
  | ok => rfl
  | error e =>
    have hupdate : (node held).update [(d, b)] = .ok [⟨d, .error e.toString⟩] := by
      show Except.ok (updateLoop (fun _ _ _ => ()) () [(d, b)]).1 = _
      rw [updateLoop_cons_invalid hv]
      rfl
    rw [Replica.acks, hupdate] at hacks
    cases hacks

/-- A blob is written while node `c` is away. -/
def oneWrite : Write where
  pool n := if n = "c" then none else some (node fun _ => none)
  digest := Digest.of [7]
  bytes := [7]

/-- Then node `a` fails, and node `c` is still away. -/
def later : ReplicaPool := fun n =>
  if n = "b" then some (node (heldAfter threeNodes [[oneWrite]] n)) else none

end Sample

open Sample

theorem quorum_durable_sample :
    (batchReadBlobs threeNodes later [Digest.of [8], Digest.of [7]])[1]? = some (.ok [7]) := by
  refine quorum_durable threeNodes (by decide +kernel) (by decide) [[oneWrite]] ?_
    [oneWrite] (by simp) 0 oneWrite rfl (by decide +kernel) ?_ {"a"} (by decide) _ ?_
    [Digest.of [8], Digest.of [7]] 1 rfl
  · intro batch hbatch w hw n cas hcas
    obtain rfl := mem_singleton.1 hbatch
    obtain rfl := mem_singleton.1 hw
    change (if n = "c" then none else some (node fun _ => none)) = some cas at hcas
    split at hcas
    · cases hcas
    · cases hcas
      exact node_rejects _
  · intro batch hbatch w hw _
    obtain rfl := mem_singleton.1 hbatch
    obtain rfl := mem_singleton.1 hw
    rfl
  · constructor
    · intro n cas results b hcas hread hlast
      rw [later] at hcas
      split at hcas
      · cases hcas
        cases hread
        cases hheld : heldAfter threeNodes [[oneWrite]] n oneWrite.digest with
        | none => simp [hheld, readEntry] at hlast
        | some c => simpa [hheld, readEntry] using hlast
      · cases hcas
    · intro n hup b hheld
      rcases held_source hheld with hno | ⟨w, hw, -, -, hack⟩
      · cases hno
      obtain rfl := mem_singleton.1 hw
      obtain ⟨⟨r, hr, rfl⟩, cas, hcas, -⟩ := ackedBy_iff.1 hack
      have hr' : r ∈ threeNodes.nodes := threeNodes_seven ▸ hr
      -- `a` has failed, and `c` was away
      have hb : r.nodeId = "b" := by
        simp only [threeNodes, mem_cons, not_mem_nil, or_false] at hr'
        rcases hr' with rfl | rfl | rfl
        · exact absurd (Finset.mem_singleton_self _) hup
        · rfl
        · cases hcas
      refine ⟨_, if_pos hb, ?_⟩
      show Except.ok [readEntry _ _] = _
      rw [hheld, readEntry_some]

end Brokkr.Blobs
