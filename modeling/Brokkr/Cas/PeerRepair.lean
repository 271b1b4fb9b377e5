import Brokkr.Cas.Presence

/-!
# Peer repair

`repair_node` (`peer.rs`): every blob that the ring assigns to a node and that some node
of the topology lists is pulled to it, from another replica of the blob.

* `collectUniverse` — the digests that the nodes list; one that fails ends the pass.
* `pull`, `repairDigest`, `repairLoop`, `repairNode` — the pass. The digests come out of
  a hash set, so their order is a parameter.
* `Fate`, `fate` — what a pass does with a digest, from the state before it: the loop is
  a fold over the fates (`repairLoop_eq`).
* `Spread` — every blob for the target that is anywhere has a copy at one of its own
  replicas; a blob without one is seen, but not pulled.
-/

namespace Brokkr.Blobs

open Function

open List

/-! ## The pass -/

/-- The outcome of a pass. -/
structure RepairReport where
  expected : ℕ := 0
  alreadyPresent : ℕ := 0
  repaired : ℕ := 0
  unrepairable : List Digest := []
  deriving DecidableEq

variable {d : Digest} {pool : StaticPool} {b : Bytes} {T : Topology} {report : RepairReport}
  {target : String}

/-- The union of the digests that the nodes list. -/
def collectUniverse (pool : StaticPool) :
    List RingNode → OrdSet Digest → Except CasError (OrdSet Digest)
  | [], known => .ok known
  | node :: nodes, known =>
    match pool node.nodeId with
    | none => collectUniverse pool nodes known
    | some cas =>
      match (poolNodeCas.listDigests cas).1 with
      | .error e => .error e
      | .ok found => collectUniverse pool nodes (known.union (OrdSet.ofList found))

/-- Pull a blob from the first replica that returns it, and store it in the target.
`cas` is the target. -/
def pull (pool : StaticPool) (target : String) (d : Digest) :
    List RingNode → PoolNode → Except CasError Bool × PoolNode
  | [], cas => (.ok false, cas)
  | r :: replicas, cas =>
    if r.nodeId = target then pull pool target d replicas cas
    else
      match pool r.nodeId with
      | none => pull pool target d replicas cas
      | some src =>
        match (poolNodeCas.batchReadBlobs src [d]).1 with
        | .error _ => pull pool target d replicas cas
        | .ok results =>
          match results.getLast? with
          | some (.ok bytes) =>
            match poolNodeCas.batchUpdateBlobs cas [(d, bytes)] with
            | (.error e, cas) => (.error e, cas)
            | (.ok writes, cas) =>
              if (writes.head?.map fun r => r.status.toBool).getD false then
                (.ok true, cas)
              else pull pool target d replicas cas
          | _ => pull pool target d replicas cas

/-- One digest of the universe. -/
def repairDigest (T : Topology) (pool : StaticPool) (target : String) (targetLocal : OrdSet Digest)
    (d : Digest) (report : RepairReport) (cas : PoolNode) :
    Except CasError RepairReport × PoolNode :=
  let replicas := T.replicasFor d
  let targetAssigned := replicas.any fun n => decide (n.nodeId = target)
  if !targetAssigned then (.ok report, cas)
  else
    let report := { report with expected := report.expected + 1 }
    if d ∈ targetLocal then
      (.ok { report with alreadyPresent := report.alreadyPresent + 1 }, cas)
    else
      match pull pool target d replicas cas with
      | (.error e, cas) => (.error e, cas)
      | (.ok true, cas) => (.ok { report with repaired := report.repaired + 1 }, cas)
      | (.ok false, cas) => (.ok { report with unrepairable := report.unrepairable ++ [d] }, cas)

/-- All digests of the universe, in some order. -/
def repairLoop (T : Topology) (pool : StaticPool) (target : String) (targetLocal : OrdSet Digest) :
    List Digest → RepairReport → PoolNode → Except CasError RepairReport × PoolNode
  | [], report, cas => (.ok report, cas)
  | d :: ds, report, cas =>
    match repairDigest T pool target targetLocal d report cas with
    | (.error e, cas) => (.error e, cas)
    | (.ok report, cas) => repairLoop T pool target targetLocal ds report cas

/-- `repair_node`, with the order in which the set of digests is gone through. -/
def repairNode (order : OrdSet Digest → List Digest) (T : Topology) (pool : StaticPool)
    (target : String) : Except CasError RepairReport × StaticPool :=
  match pool target with
  | none => (.error (.io s!"peer-repair: unknown target node {target}"), pool)
  | some cas =>
    match collectUniverse pool T.nodes ∅ with
    | .error e => (.error e, pool)
    | .ok known =>
      match (poolNodeCas.listDigests cas).1 with
      | .error e => (.error e, pool)
      | .ok found =>
        let (result, cas) := repairLoop T pool target (OrdSet.ofList found) (order known) {} cas
        (result, update pool target (some cas))

/-! ## The universe -/

/-- Some node of the topology is up and holds the blob. -/
def Visible (T : Topology) (pool : StaticPool) (d : Digest) : Prop :=
  ∃ node ∈ T.nodes, HeldBy pool d node.nodeId

theorem mem_ofList_keys {store : MemStore} :
    d ∈ OrdSet.ofList store.keys ↔ store.contains d = true := by
  rw [OrdSet.mem_ofList, OrdMap.mem_keys, OrdMap.contains, Option.isSome_iff_exists]

theorem collectUniverse_ok {nodes : List RingNode} {u u' : OrdSet Digest}
    (h : collectUniverse pool nodes u = .ok u') :
    (∀ d, d ∈ u' ↔ d ∈ u ∨ ∃ node ∈ nodes, HeldBy pool d node.nodeId) ∧
    ∀ node ∈ nodes, ∀ e, pool node.nodeId ≠ some (.erroring e) := by
  induction nodes generalizing u with
  | nil =>
    cases h
    exact ⟨fun d => by simp, nofun⟩
  | cons node nodes ih =>
    rw [collectUniverse] at h
    match hnode : pool node.nodeId with
    | none =>
      rw [hnode] at h
      obtain ⟨hmem, herr⟩ := ih h
      refine ⟨fun d => ?_, fun n hn e => ?_⟩
      · rw [hmem, exists_mem_cons_iff, HeldBy]
        simp [hnode]
      rcases mem_cons.1 hn with rfl | hn
      · simp [hnode]
      · exact herr n hn e
    | some (.erroring e) =>
      rw [hnode] at h
      cases h
    | some (.up store) =>
      rw [hnode] at h
      obtain ⟨hmem, herr⟩ := ih h
      refine ⟨fun d => ?_, fun n hn e => ?_⟩
      · have hstore : HeldBy pool d node.nodeId ↔ store.contains d = true := by
          simp [HeldBy, hnode]
        rw [hmem, OrdSet.mem_union, exists_mem_cons_iff, hstore, or_assoc]
        exact or_congr_right (or_congr_left mem_ofList_keys)
      · rcases mem_cons.1 hn with rfl | hn
        · simp [hnode]
        · exact herr n hn e

theorem exists_collectUniverse {nodes : List RingNode}
    (h : ∀ node ∈ nodes, ∀ e, pool node.nodeId ≠ some (.erroring e)) (u : OrdSet Digest) :
    ∃ u', collectUniverse pool nodes u = .ok u' := by
  induction nodes generalizing u with
  | nil => exact ⟨u, rfl⟩
  | cons node nodes ih =>
    have hrest := ih fun n hn => h n (mem_cons_of_mem node hn)
    rw [collectUniverse]
    match hnode : pool node.nodeId with
    | none => exact hrest u
    | some (.erroring e) => exact absurd hnode (h node mem_cons_self e)
    | some (.up store) => exact hrest _

/-! ## What happens to a digest -/

/-- The backends hold only blobs that match their digests. -/
def Verified (pool : StaticPool) : Prop :=
  ∀ n store, pool n = some (.up store) → ∀ d b, store.get? d = some b → d.verify b = .ok ()

/-- The blob as the first replica beside the target returns it. -/
def source (pool : StaticPool) (target : String) (d : Digest) : List RingNode → Option Bytes
  | [] => none
  | r :: replicas =>
    if r.nodeId = target then source pool target d replicas
    else
      match pool r.nodeId with
      | some (.up store) => (store.get? d).or (source pool target d replicas)
      | _ => source pool target d replicas

theorem read_up (store : MemStore) (d : Digest) :
    (poolNodeCas.batchReadBlobs (.up store) [d]).1 = .ok [readEntry d (store.get? d)] := rfl

theorem list_up (store : MemStore) : (poolNodeCas.listDigests (.up store)).1 = .ok store.keys := rfl

theorem update_up (h : d.verify b = .ok ()) (store : MemStore) :
    poolNodeCas.batchUpdateBlobs (.up store) [(d, b)] =
      (.ok [⟨d, .ok ()⟩], .up (store.insert d b)) := by
  have hupdate : updateLoop (fun (m : MemStore) d b => m.insert d b) store [(d, b)] =
      ([⟨d, .ok ()⟩], store.insert d b) := by
    simp only [updateLoop, h]
  show Prod.map id PoolNode.up (inMemoryCas.batchUpdateBlobs store [(d, b)]) = _
  simp only [inMemoryCas, hupdate, Prod.map, id]

theorem pull_eq (hpool : Verified pool) (target : String) (d : Digest) (replicas : List RingNode)
    (store : MemStore) :
    pull pool target d replicas (.up store) = match source pool target d replicas with
      | some b => (.ok true, .up (store.insert d b))
      | none => (.ok false, .up store) := by
  induction replicas with
  | nil => rfl
  | cons r replicas ih =>
    rw [pull, source]
    split
    · exact ih
    match hnode : pool r.nodeId with
    | none => exact ih
    | some (.erroring e) => exact ih
    | some (.up src) =>
      cases hget : src.get? d with
      | none =>
        simp only [read_up, hget, readEntry_none, getLast?_singleton, Option.none_or]
        exact ih
      | some b =>
        simp only [read_up, hget, readEntry_some, getLast?_singleton, Option.some_or,
          update_up (hpool _ _ hnode d b hget), head?_cons]
        rfl

/-- What a pass does with a digest. -/
inductive Fate where
  | foreign
  | present
  | pulled (bytes : Bytes)
  | lost
  deriving DecidableEq

/-- The target is a replica of the digest. -/
def Assigned (T : Topology) (target : String) (d : Digest) : Prop :=
  ∃ r ∈ T.replicasFor d, r.nodeId = target

instance (T : Topology) (target : String) (d : Digest) : Decidable (Assigned T target d) :=
  inferInstanceAs (Decidable (∃ r ∈ T.replicasFor d, r.nodeId = target))

/-- The fate of a digest, from the state before the pass. -/
def fate (T : Topology) (pool : StaticPool) (target : String) (targetLocal : OrdSet Digest)
    (d : Digest) : Fate :=
  if Assigned T target d then
    if d ∈ targetLocal then .present
    else
      match source pool target d (T.replicasFor d) with
      | some bytes => .pulled bytes
      | none => .lost
  else .foreign

/-- The report after a digest. -/
def RepairReport.add (report : RepairReport) (d : Digest) : Fate → RepairReport
  | .foreign => report
  | .present => { report with
      expected := report.expected + 1, alreadyPresent := report.alreadyPresent + 1 }
  | .pulled _ => { report with
      expected := report.expected + 1, repaired := report.repaired + 1 }
  | .lost => { report with
      expected := report.expected + 1, unrepairable := report.unrepairable ++ [d] }

/-- The store of the target after a digest. -/
def Fate.store (d : Digest) (store : MemStore) : Fate → MemStore
  | .pulled bytes => store.insert d bytes
  | _ => store

theorem repairDigest_eq (hpool : Verified pool) (target : String) (targetLocal : OrdSet Digest)
    (d : Digest) (report : RepairReport) (store : MemStore) :
    repairDigest T pool target targetLocal d report (.up store) =
      (.ok (report.add d (fate T pool target targetLocal d)),
        .up ((fate T pool target targetLocal d).store d store)) := by
  have hany : ((T.replicasFor d).any fun n => decide (n.nodeId = target)) =
      decide (Assigned T target d) := by
    rw [Bool.eq_iff_iff, any_eq_true, decide_eq_true_eq, Assigned]
    simp
  rw [repairDigest, fate, pull_eq hpool]
  simp only [hany]
  by_cases hassigned : Assigned T target d
  · rw [if_pos hassigned, decide_eq_true hassigned]
    by_cases hlocal : d ∈ targetLocal
    · simp [hlocal, RepairReport.add, Fate.store]
    · cases source pool target d (T.replicasFor d) <;>
        simp [hlocal, RepairReport.add, Fate.store]
  · rw [if_neg hassigned, decide_eq_false hassigned]
    rfl

theorem repairLoop_eq (hpool : Verified pool) (target : String) (targetLocal : OrdSet Digest)
    (ds : List Digest) (report : RepairReport) (store : MemStore) :
    repairLoop T pool target targetLocal ds report (.up store) =
      (.ok (ds.foldl (fun r d => r.add d (fate T pool target targetLocal d)) report),
        .up (ds.foldl (fun s d => (fate T pool target targetLocal d).store d s) store)) := by
  induction ds generalizing report store with
  | nil => rfl
  | cons d ds ih =>
    rw [repairLoop, repairDigest_eq hpool]
    exact ih _ _

/-! ## Reports and stores of a whole pass -/

section Folds

variable (f : Digest → Fate) (ds : List Digest)

/-- The report of a pass with these fates. -/
def reportOf (report : RepairReport) : RepairReport := ds.foldl (fun r d => r.add d (f d)) report

/-- The store of the target after a pass with these fates. -/
def storeOf (store : MemStore) : MemStore := ds.foldl (fun s d => (f d).store d s) store

/-- Every digest is counted where it belongs. -/
structure Counted (report : RepairReport) (ds : List Digest) (report' : RepairReport) : Prop where
  expected : report'.expected = report.expected + ds.countP fun d => decide (f d ≠ .foreign)
  balance : report.expected = report.alreadyPresent + report.repaired + report.unrepairable.length →
    report'.expected = report'.alreadyPresent + report'.repaired + report'.unrepairable.length
  unrepairable : ∀ d, d ∈ report'.unrepairable ↔ d ∈ report.unrepairable ∨ (d ∈ ds ∧ f d = .lost)
  repaired : (∀ d ∈ ds, ∀ b, f d ≠ .pulled b) → report'.repaired = report.repaired

variable {f ds}

theorem Counted.trans {report' report'' : RepairReport} {es : List Digest}
    (h : Counted f report ds report') (h' : Counted f report' es report'') :
    Counted f report (ds ++ es) report'' where
  expected := by rw [h'.expected, h.expected, countP_append, Nat.add_assoc]
  balance hbalance := h'.balance (h.balance hbalance)
  unrepairable d := by
    rw [h'.unrepairable, h.unrepairable, mem_append, or_and_right, or_assoc]
  repaired hnone := by
    rw [h'.repaired fun d hd => hnone d (mem_append_right ds hd),
      h.repaired fun d hd => hnone d (mem_append_left es hd)]

theorem counted_add (report : RepairReport) (d : Digest) :
    Counted f report [d] (report.add d (f d)) := by
  cases hf : f d with
  | foreign => constructor <;> simp [RepairReport.add, hf]
  | lost => constructor <;> simp [RepairReport.add, hf] <;> grind
  | _ => constructor <;> simp [RepairReport.add, hf]; grind

theorem counted_reportOf (report : RepairReport) : Counted f report ds (reportOf f ds report) := by
  induction ds generalizing report with
  | nil => exact ⟨rfl, id, fun d => by simp [reportOf], fun _ => rfl⟩
  | cons d ds ih => exact (counted_add report d).trans (ih (report.add d (f d)))

theorem contains_store (store : MemStore) (d e : Digest) (c : Fate) :
    (c.store d store).contains e = true ↔
      store.contains e = true ∨ (e = d ∧ ∃ b, c = .pulled b) := by
  cases c with
  | pulled => simp [Fate.store, contains_insert]
  | _ => simp [Fate.store]

theorem contains_storeOf (store : MemStore) (e : Digest) : (storeOf f ds store).contains e = true ↔
      store.contains e = true ∨ (e ∈ ds ∧ ∃ b, f e = .pulled b) := by
  induction ds generalizing store with
  | nil => simp [storeOf]
  | cons d ds ih =>
    have hstep := ih ((f d).store d store)
    rw [contains_store] at hstep
    rw [storeOf, foldl_cons, ← storeOf, hstep, mem_cons]
    by_cases he : e = d
    · subst he
      tauto
    · tauto

theorem get?_storeOf {store : MemStore} {e : Digest} (h : (storeOf f ds store).get? e = some b) :
    store.get? e = some b ∨ f e = .pulled b := by
  induction ds generalizing store with
  | nil => exact .inl h
  | cons d ds ih =>
    rcases @ih ((f d).store d store) h with hstep | hpulled
    · cases hf : f d with
      | pulled =>
        rw [hf, Fate.store, OrdMap.get?_insert] at hstep
        split at hstep
        · rename_i he
          cases hstep
          exact .inr (he ▸ hf)
        · exact .inl hstep
      | _ => exact .inl (by rwa [hf] at hstep)
    · exact .inr hpulled

theorem storeOf_eq_self (h : ∀ d ∈ ds, ∀ b, f d ≠ .pulled b) (store : MemStore) :
    storeOf f ds store = store := by
  induction ds generalizing store with
  | nil => rfl
  | cons d ds ih =>
    have hstep : (f d).store d store = store := by
      cases hf : f d with
      | pulled b => exact absurd hf (h d mem_cons_self b)
      | _ => rfl
    rw [storeOf, foldl_cons, hstep]
    exact ih (fun e he => h e (mem_cons_of_mem d he)) store

end Folds

/-! ## The pass as a whole -/

/-- The fates of the digests in a pass. -/
def fateOf (T : Topology) (pool : StaticPool) (target : String) (store : MemStore) :
    Digest → Fate := fate T pool target (OrdSet.ofList store.keys)

/-- When a pass succeeds. -/
structure Pass (order : OrdSet Digest → List Digest) (T : Topology) (pool : StaticPool)
    (target : String) (store : MemStore) (known : OrdSet Digest) : Prop where
  holds : pool target = some (.up store)
  up : ∀ node ∈ T.nodes, ∀ e, pool node.nodeId ≠ some (.erroring e)
  mem_known : ∀ d, d ∈ known ↔ Visible T pool d
  result : repairNode order T pool target =
    (.ok (reportOf (fateOf T pool target store) (order known) {}), update pool target
      (some (.up (storeOf (fateOf T pool target store) (order known) store))))

section Pass

variable {order : OrdSet Digest → List Digest}

theorem exists_pass (hpool : Verified pool) {store : MemStore}
    (htarget : pool target = some (.up store))
    (hup : ∀ node ∈ T.nodes, ∀ e, pool node.nodeId ≠ some (.erroring e)) :
    ∃ known, Pass order T pool target store known := by
  obtain ⟨known, hknown⟩ := exists_collectUniverse hup ∅
  refine ⟨known, htarget, hup, ?_, ?_⟩
  · intro d
    rw [(collectUniverse_ok hknown).1]
    exact or_iff_right (OrdSet.not_mem_empty d)
  rw [repairNode, htarget]
  simp only [hknown, list_up, repairLoop_eq hpool]
  rfl

theorem pass_of_ok (hpool : Verified pool) {pool' : StaticPool}
    (hok : repairNode order T pool target = (.ok report, pool')) :
    ∃ store known, Pass order T pool target store known := by
  match htarget : pool target with
  | none =>
    rw [repairNode, htarget] at hok
    cases hok
  | some (.erroring e) =>
    rw [repairNode, htarget] at hok
    cases hcollect : collectUniverse pool T.nodes ∅ with
    | error =>
      simp only [hcollect] at hok
      cases hok
    | ok =>
      simp only [hcollect] at hok
      cases hok
  | some (.up store) =>
    cases hcollect : collectUniverse pool T.nodes ∅ with
    | error =>
      rw [repairNode, htarget] at hok
      simp only [hcollect] at hok
      cases hok
    | ok => exact ⟨store, exists_pass hpool htarget (collectUniverse_ok hcollect).2⟩

end Pass

/-! ## Convergence -/

theorem source_update (pool : StaticPool) (target : String) (cas : Option PoolNode) (d : Digest)
    (replicas : List RingNode) :
    source (update pool target cas) target d replicas = source pool target d replicas := by
  induction replicas with
  | nil => rfl
  | cons r replicas ih =>
    rw [source, source]
    split
    · exact ih
    · rename_i hr
      rw [update_of_ne hr, ih]

theorem source_ne_none {replicas : List RingNode} {r : RingNode} (hr : r ∈ replicas)
    (hne : r.nodeId ≠ target) (hheld : HeldBy pool d r.nodeId) :
    source pool target d replicas ≠ none := by
  induction replicas with
  | nil => cases hr
  | cons r' replicas ih =>
    rw [source]
    rcases mem_cons.1 hr with rfl | hr
    · obtain ⟨store, hup, hcontains⟩ := hheld
      obtain ⟨b, hb⟩ := Option.isSome_iff_exists.1 hcontains
      rw [if_neg hne, hup]
      simp [hb]
    split
    · exact ih hr
    split
    · intro hnone
      exact ih hr (Option.or_eq_none_iff.1 hnone).2
    · exact ih hr

theorem source_eq_some {replicas : List RingNode} (h : source pool target d replicas = some b) :
    ∃ r ∈ replicas, ∃ store, pool r.nodeId = some (.up store) ∧ store.get? d = some b := by
  induction replicas with
  | nil => cases h
  | cons r replicas ih =>
    have hrest : source pool target d replicas = some b → ∃ r' ∈ r :: replicas, ∃ store,
        pool r'.nodeId = some (.up store) ∧ store.get? d = some b := by
      intro hsource
      obtain ⟨r', hr', hholds⟩ := ih hsource
      exact ⟨r', mem_cons_of_mem r hr', hholds⟩
    rw [source] at h
    split at h
    · exact hrest h
    split at h
    · rename_i store hup
      rcases Option.or_eq_some_iff.1 h with hget | ⟨-, hsource⟩
      · exact ⟨r, mem_cons_self, store, hup, hget⟩
      · exact hrest hsource
    · exact hrest h

theorem source_verified (hpool : Verified pool) {replicas : List RingNode}
    (h : source pool target d replicas = some b) : d.verify b = .ok () := by
  obtain ⟨r, -, store, hup, hget⟩ := source_eq_some h
  exact hpool _ _ hup d b hget

theorem fateOf_foreign {store : MemStore} (h : ¬ Assigned T target d) :
    fateOf T pool target store d = .foreign := if_neg h

theorem fateOf_assigned {store : MemStore} (h : Assigned T target d) :
    fateOf T pool target store d = if store.contains d = true then .present
      else (source pool target d (T.replicasFor d)).elim .lost .pulled := by
  rw [fateOf, fate, if_pos h]
  simp only [mem_ofList_keys]
  cases source pool target d (T.replicasFor d) <;> rfl

theorem fateOf_ne_foreign {store : MemStore} :
    fateOf T pool target store d ≠ .foreign ↔ Assigned T target d := by
  by_cases hassigned : Assigned T target d
  · rw [fateOf_assigned hassigned]
    cases store.contains d <;> cases source pool target d (T.replicasFor d) <;> simp [hassigned]
  · simp [fateOf_foreign hassigned, hassigned]

theorem fateOf_eq_pulled {store : MemStore} : fateOf T pool target store d = .pulled b ↔
      Assigned T target d ∧ store.contains d = false ∧
        source pool target d (T.replicasFor d) = some b := by
  by_cases hassigned : Assigned T target d
  · rw [fateOf_assigned hassigned]
    cases store.contains d <;> cases source pool target d (T.replicasFor d) <;> simp [hassigned]
  · simp [fateOf_foreign hassigned, hassigned]

theorem fateOf_eq_lost {store : MemStore} : fateOf T pool target store d = .lost ↔
      Assigned T target d ∧ store.contains d = false ∧
        source pool target d (T.replicasFor d) = none := by
  by_cases hassigned : Assigned T target d
  · rw [fateOf_assigned hassigned]
    cases store.contains d <;> cases source pool target d (T.replicasFor d) <;> simp [hassigned]
  · simp [fateOf_foreign hassigned, hassigned]

/-- Every blob for the target that is anywhere has a copy at one of its replicas. -/
def Spread (T : Topology) (pool : StaticPool) (target : String) : Prop :=
  ∀ d, Assigned T target d → Visible T pool d → ∃ r ∈ T.replicasFor d, HeldBy pool d r.nodeId

/-- The pool after the pass. -/
def patched (pool : StaticPool) (target : String) (store : MemStore) : StaticPool :=
  update pool target (some (.up store))

theorem update_patched (pool : StaticPool) (target : String) (store : MemStore) :
    update (patched pool target store) target (some (.up store)) = patched pool target store := by
  rw [patched, update_idem]

theorem heldBy_patched {store : MemStore} {n : String} : HeldBy (patched pool target store) d n ↔
      if n = target then store.contains d = true else HeldBy pool d n := by
  rw [HeldBy, patched]
  by_cases hn : n = target
  · subst hn
    simp
  · rw [if_neg hn, HeldBy, update_of_ne hn]

theorem lost_iff {store : MemStore} (htarget : pool target = some (.up store)) :
    fateOf T pool target store d = .lost ↔
      Assigned T target d ∧ ∀ r ∈ T.replicasFor d, ¬ HeldBy pool d r.nodeId := by
  rw [fateOf_eq_lost]
  refine and_congr_right fun hassigned => ?_
  constructor
  · rintro ⟨hlacks, hnone⟩ r hr hheld
    refine source_ne_none hr ?_ hheld hnone
    -- the copy is not at the target, which lacks the blob
    intro hid
    obtain ⟨store', hup, hcontains⟩ := hheld
    rw [hid, htarget] at hup
    cases hup
    rw [hlacks] at hcontains
    cases hcontains
  intro hnowhere
  constructor
  · obtain ⟨r, hr, rfl⟩ := hassigned
    rw [← Bool.not_eq_true]
    exact fun hcontains => hnowhere r hr ⟨store, htarget, hcontains⟩
  rw [Option.eq_none_iff_forall_ne_some]
  intro b hsource
  obtain ⟨r, hr, store', hup, hget⟩ := source_eq_some hsource
  exact hnowhere r hr ⟨store', hup, by rw [OrdMap.contains, hget]; rfl⟩

theorem spread_iff {store : MemStore} (htarget : pool target = some (.up store)) :
    Spread T pool target ↔ ∀ d, Visible T pool d → fateOf T pool target store d ≠ .lost := by
  refine forall_congr' fun d => ?_
  rw [Ne, lost_iff htarget]
  constructor
  · rintro hspread hvisible ⟨hassigned, hnowhere⟩
    obtain ⟨r, hr, hheld⟩ := hspread hassigned hvisible
    exact hnowhere r hr hheld
  · intro hkept hassigned hvisible
    by_contra hno
    exact hkept hvisible ⟨hassigned, fun r hr hheld => hno ⟨r, hr, hheld⟩⟩

section Converges

variable {order : OrdSet Digest → List Digest} {store : MemStore} {known : OrdSet Digest}

variable (h : Pass order T pool target store known)

include h

variable (horder : ∀ u, (order u).Perm u.toList)

include horder

theorem Pass.mem_order : d ∈ order known ↔ Visible T pool d := by
  rw [(horder known).mem_iff, ← h.mem_known]
  rfl

theorem Pass.contains (d : Digest) :
    (storeOf (fateOf T pool target store) (order known) store).contains d = true ↔
      store.contains d = true ∨
        (Visible T pool d ∧ ∃ b, fateOf T pool target store d = .pulled b) := by
  rw [contains_storeOf, h.mem_order horder]

theorem Pass.held (hassigned : Assigned T target d) (hvisible : Visible T pool d) :
    HeldBy (patched pool target (storeOf (fateOf T pool target store) (order known) store)) d
      target ↔ fateOf T pool target store d ≠ .lost := by
  rw [heldBy_patched, if_pos rfl, h.contains horder, fateOf_assigned hassigned]
  cases store.contains d <;> cases source pool target d (T.replicasFor d) <;> simp [hvisible]

theorem Pass.unrepairable :
    d ∈ (reportOf (fateOf T pool target store) (order known) {}).unrepairable ↔
      Visible T pool d ∧ fateOf T pool target store d = .lost := by
  rw [(counted_reportOf {}).unrepairable, h.mem_order horder]
  exact or_iff_right not_mem_nil

theorem Pass.visible (d : Digest) :
    Visible T (patched pool target
      (storeOf (fateOf T pool target store) (order known) store)) d ↔ Visible T pool d := by
  constructor
  · rintro ⟨node, hnode, hheld⟩
    rw [heldBy_patched] at hheld
    split at hheld
    · rename_i hid
      rcases (h.contains horder d).1 hheld with hcontains | ⟨hvisible, -⟩
      · exact ⟨node, hnode, store, hid ▸ h.holds, hcontains⟩
      · exact hvisible
    · exact ⟨node, hnode, hheld⟩
  rintro ⟨node, hnode, hheld⟩
  refine ⟨node, hnode, heldBy_patched.2 ?_⟩
  split
  · rename_i hid
    obtain ⟨store', hup, hcontains⟩ := hheld
    rw [hid, h.holds] at hup
    cases hup
    exact (h.contains horder d).2 (Or.inl hcontains)
  · exact hheld

theorem Pass.not_pulled (hd : Visible T pool d) (b : Bytes) :
    fateOf T (patched pool target (storeOf (fateOf T pool target store) (order known) store))
      target (storeOf (fateOf T pool target store) (order known) store) d ≠ .pulled b := by
  rw [Ne, fateOf_eq_pulled, patched, source_update]
  rintro ⟨hassigned, hlacks, hsource⟩
  have hbefore : store.contains d = false := by
    rw [← Bool.not_eq_true]
    intro hcontains
    rw [(h.contains horder d).2 (Or.inl hcontains)] at hlacks
    cases hlacks
  rw [(h.contains horder d).2 (Or.inr ⟨hd, b, fateOf_eq_pulled.2 ⟨hassigned, hbefore, hsource⟩⟩)]
    at hlacks
  cases hlacks

omit horder

theorem Pass.verified (hpool : Verified pool) :
    Verified (patched pool target
      (storeOf (fateOf T pool target store) (order known) store)) := by
  intro n store' hup d b hget
  by_cases hn : n = target
  · subst hn
    rw [patched, update_self] at hup
    cases hup
    rcases get?_storeOf hget with hbefore | hpulled
    · exact hpool n store h.holds d b hbefore
    · exact source_verified hpool (fateOf_eq_pulled.1 hpulled).2.2
  · rw [patched, update_of_ne hn] at hup
    exact hpool n store' hup d b hget

theorem Pass.again (hpool : Verified pool)
    (horder : ∀ u, (order u).Perm u.toList) {order' : OrdSet Digest → List Digest}
    (horder' : ∀ u, (order' u).Perm u.toList) :
    ∃ report, repairNode order' T (patched pool target
        (storeOf (fateOf T pool target store) (order known) store)) target =
      (.ok report, patched pool target
        (storeOf (fateOf T pool target store) (order known) store)) ∧
      report.repaired = 0 ∧
      report.expected = (reportOf (fateOf T pool target store) (order known) {}).expected := by
  have hup : ∀ node ∈ T.nodes, ∀ e, patched pool target
      (storeOf (fateOf T pool target store) (order known) store) node.nodeId ≠
        some (.erroring e) := by
    intro node hnode e
    by_cases hid : node.nodeId = target
    · rw [hid, patched, update_self]
      exact fun herr => by cases herr
    · rw [patched, update_of_ne hid]
      exact h.up node hnode e
  obtain ⟨known', h'⟩ := exists_pass (h.verified hpool) (update_self _ _ _) hup
  have hmem : ∀ d, d ∈ order' known' ↔ d ∈ order known := fun d => by
    rw [h'.mem_order horder', h.visible horder, h.mem_order horder]
  have hnone : ∀ d ∈ order' known', ∀ b, fateOf T (patched pool target
      (storeOf (fateOf T pool target store) (order known) store)) target
        (storeOf (fateOf T pool target store) (order known) store) d ≠ .pulled b :=
    fun d hd => h.not_pulled horder ((h.mem_order horder).1 ((hmem d).1 hd))
  have hperm : (order' known').Perm (order known) := by
    refine (perm_ext_iff_of_nodup ?_ ?_).2 hmem
    · exact (horder' known').nodup_iff.2 known'.nodup
    · exact (horder known).nodup_iff.2 known.nodup
  have hresult := h'.result
  rw [storeOf_eq_self hnone, update_patched] at hresult
  refine ⟨_, hresult, ?_, ?_⟩
  · exact (counted_reportOf {}).repaired hnone
  rw [(counted_reportOf {}).expected, (counted_reportOf {}).expected, hperm.countP_eq]
  congr 1
  refine countP_congr fun d _ => ?_
  rw [decide_eq_true_eq, decide_eq_true_eq, fateOf_ne_foreign, fateOf_ne_foreign]

end Converges

/-- **Repair.**  A pass that succeeds, on backends that hold only verified blobs: every
digest is counted once, nothing is removed anywhere, and another pass finds nothing to
pull and counts as many.  The target has all of its blobs afterwards exactly when each of
them had a copy at one of its replicas, and exactly then nothing is reported that a node
could have returned. -/
theorem repair_converges (order : OrdSet Digest → List Digest)
    (horder : ∀ u, (order u).Perm u.toList) (T : Topology) (pool : StaticPool)
    (hpool : Verified pool) (target : String) (report : RepairReport) (pool' : StaticPool)
    (hok : repairNode order T pool target = (.ok report, pool')) :
    (Spread T pool target ↔ ∀ d, Assigned T target d → Visible T pool d → HeldBy pool' d target) ∧
    (Spread T pool target ↔ ∀ d ∈ report.unrepairable, ¬ Visible T pool d) ∧
    report.expected = report.alreadyPresent + report.repaired + report.unrepairable.length ∧
    (∀ n d, HeldBy pool d n → HeldBy pool' d n) ∧
    ∀ order' : OrdSet Digest → List Digest, (∀ u, (order' u).Perm u.toList) →
      ∃ report', repairNode order' T pool' target = (.ok report', pool') ∧
        report'.repaired = 0 ∧ report'.expected = report.expected := by
  obtain ⟨store, known, h⟩ := pass_of_ok hpool hok
  obtain ⟨hreport, hpool'⟩ := Prod.mk.inj (hok.symm.trans h.result)
  cases hreport
  subst hpool'
  rw [spread_iff h.holds]
  refine ⟨?_, ?_, (counted_reportOf {}).balance rfl, ?_, ?_⟩
  · constructor
    · exact fun hkept d hassigned hvisible =>
        (h.held horder hassigned hvisible).2 (hkept d hvisible)
    · intro hheld d hvisible hlost
      have hassigned := (fateOf_eq_lost.1 hlost).1
      exact (h.held horder hassigned hvisible).1 (hheld d hassigned hvisible) hlost
  · simp only [h.unrepairable horder]
    exact ⟨fun hkept d hd => absurd hd.2 (hkept d hd.1),
      fun hnone d hvisible hlost => hnone d ⟨hvisible, hlost⟩ hvisible⟩
  · intro n d hheld
    refine heldBy_patched.2 ?_
    split
    · rename_i hn
      obtain ⟨store', hup, hcontains⟩ := hheld
      rw [hn, h.holds] at hup
      cases hup
      exact (h.contains horder d).2 (Or.inl hcontains)
    · exact hheld
  · intro order' horder'
    exact h.again hpool horder horder'

theorem not_heldBy_of_unrepairable {order : OrdSet Digest → List Digest}
    (horder : ∀ u, (order u).Perm u.toList) (hpool : Verified pool) {pool' : StaticPool}
    (hok : repairNode order T pool target = (.ok report, pool')) (hd : d ∈ report.unrepairable) :
    ¬ HeldBy pool' d target := by
  obtain ⟨store, known, h⟩ := pass_of_ok hpool hok
  obtain ⟨hreport, hpool'⟩ := Prod.mk.inj (hok.symm.trans h.result)
  cases hreport
  subst hpool'
  obtain ⟨hvisible, hlost⟩ := (h.unrepairable horder).1 hd
  exact fun hheld => (h.held horder (fateOf_eq_lost.1 hlost).1 hvisible).1 hheld hlost

namespace Sample

variable (holder : String)

/-- The blob `[0]`, whose replicas are `c` and `a`, lies at one node; the others are up
and empty. -/
def oneCopy : StaticPool := fun n =>
  if n = holder then some (.up ((∅ : MemStore).insert (Digest.of [0]) [0])) else some (.up ∅)

theorem heldBy_oneCopy : HeldBy (oneCopy holder) (Digest.of [0]) holder :=
  ⟨_, if_pos rfl, (contains_insert ∅ (Digest.of [0]) [0] _).2 (Or.inr rfl)⟩

theorem assigned_oneCopy : Assigned twoOfThree "c" (Digest.of [0]) := by
  rw [Assigned, twoOfThree_zero]
  decide

theorem oneCopy_verified : Verified (oneCopy holder) := by
  intro n store hup d b hget
  rw [oneCopy] at hup
  split at hup
  · cases hup
    rcases OrdMap.of_get?_insert hget with ⟨hd, rfl⟩ | ⟨-, hget⟩
    · rw [hd]
      exact Digest.verify_eq_ok.2 rfl
    · cases hget
  · cases hup
    cases hget

end Sample

open Sample

theorem repair_converges_sample :
    HeldBy (repairNode OrdSet.toList twoOfThree (oneCopy "a") "c").2
      (Digest.of [0]) "c" := by
  have hreport : (repairNode OrdSet.toList twoOfThree (oneCopy "a") "c").1 =
      .ok { expected := 1, repaired := 1 } := by decide +kernel
  have hok := Prod.fst_eq_iff.1 hreport
  have hspread : Spread twoOfThree (oneCopy "a") "c" := by
    rintro d - ⟨node, -, store, hup, hcontains⟩
    have hd : d = Digest.of [0] := by
      rw [oneCopy] at hup
      split at hup
      · cases hup
        rcases (contains_insert ∅ (Digest.of [0]) [0] d).1 hcontains with hno | hd
        · cases hno
        · exact hd
      · cases hup
        cases hcontains
    subst hd
    refine ⟨⟨"a", "http://a:7980", .healthy⟩, ?_, heldBy_oneCopy "a"⟩
    rw [twoOfThree_zero]
    decide
  exact ((repair_converges OrdSet.toList (fun _ => List.Perm.refl _) _ _
    (oneCopy_verified "a") "c" _ _ hok).1.1 hspread) (Digest.of [0])
    assigned_oneCopy
    ⟨⟨"a", "http://a:7980", .healthy⟩, by decide, heldBy_oneCopy "a"⟩

/-- A blob that lies outside of its own replicas, as after a change of the topology, is
seen by the pass and not pulled. -/
theorem repair_misses_stray :
    HeldBy (oneCopy "b") (Digest.of [0]) "b" ∧
    Assigned twoOfThree "c" (Digest.of [0]) ∧
    (repairNode OrdSet.toList twoOfThree (oneCopy "b") "c").1 =
      .ok { expected := 1, unrepairable := [Digest.of [0]] } ∧
    ¬ HeldBy (repairNode OrdSet.toList twoOfThree (oneCopy "b") "c").2
      (Digest.of [0]) "c" := by
  have hreport : (repairNode OrdSet.toList twoOfThree (oneCopy "b") "c").1 =
      .ok { expected := 1, unrepairable := [Digest.of [0]] } := by decide +kernel
  refine ⟨heldBy_oneCopy "b", assigned_oneCopy, hreport, ?_⟩
  exact not_heldBy_of_unrepairable (fun _ => List.Perm.refl _) (oneCopy_verified "b")
    (Prod.fst_eq_iff.1 hreport) (mem_singleton_self _)

end Brokkr.Blobs
