import Brokkr.Cas.ActionCache
import Brokkr.Control.MetaKv

/-!
# Garbage collection beside the writers of the action cache

A collection (`gc.rs`, `sweep`) reads the action cache, lists the blobs, and deletes
those that no cached result names.  Meanwhile blobs are uploaded, and results are
written to the cache: those that workers report, by the scheduler (`scheduler.rs`,
`execute`), and those that clients submit (`services/action_cache.rs`).  Both take the
barrier of the cache around the write of the cache alone; the blobs have been uploaded
before.

* `metaKvActionCache` — the cache over the metadata store.  It inherits `gc_window`, so
  its barrier is none.
* `ControlPlane`, `ControlPlane.step` — uploads, reports, writers and sweeps, one await at a
  time, over the redb store that the control plane opens.
* `Apart` — no result waits to be written while a sweep is between its mark and its end, and
  results name blobs by the sizes that these have: the store looks at hashes alone, but what
  it lists is compared with sizes.
* `Inv` — then a blob that a cached result names is in the store and in no plan.
* `race` — and what happens otherwise.
-/

namespace Brokkr.Gc

open Blobs Control List

/-! ## The cache over the metadata store -/

/-- The namespace of cached results, `ac/`. -/
def acPrefix : Blobs.Bytes := [0x61, 0x63, 0x2f]

/-- The key of an action. -/
def acKey (action : Digest) : Blobs.Bytes := acPrefix ++ action.hash.toByteArray.data.toList

/-- `MetaKvActionCache`. -/
def metaKvActionCache (codec : ResultCodec) : ActionCache KvMap where
  getActionResult kv action :=
    match (RedbMetaKv.serve kv (.get (acKey action))).1 with
    | .value (some bytes) => decodeResult codec bytes
    | _ => .ok none
  updateActionResult kv action result :=
    (RedbMetaKv.serve kv (.put (acKey action) (codec.encode result))).2
  listEntries kv :=
    match (RedbMetaKv.serve kv (.scanPrefix acPrefix)).1 with
    | .entries entries => entries.filterMap fun entry =>
      match String.fromUTF8? ⟨(entry.1.drop acPrefix.length).toArray⟩ with
      | none => none
      | some hash => listedEntry codec hash entry.2
    | _ => []

theorem acKey_inj {d d' : Digest} : acKey d = acKey d' ↔ d.hash = d'.hash := by
  rw [acKey, acKey, append_cancel_left_eq, Array.toList_inj, ← String.toByteArray_inj,
    ByteArray.ext_iff]

theorem fromUTF8_acKey (action : Digest) :
    String.fromUTF8? ⟨((acKey action).drop acPrefix.length).toArray⟩ = some action.hash := by
  have hbytes : (⟨((acKey action).drop acPrefix.length).toArray⟩ : ByteArray) =
      action.hash.toByteArray := by
    rw [acKey, drop_left]
  rw [hbytes, String.fromUTF8?, dif_pos action.hash.isValidUTF8]
  rfl

theorem metaKvActionCache_lawful (codec : ResultCodec) : (metaKvActionCache codec).Lawful where
  get_update kv action result d := by
    simp only [metaKvActionCache, RedbMetaKv.serve, OrdMap.get?_insert, acKey_inj]
    by_cases hd : d.hash = action.hash
    · simp only [hd, if_true]
      exact decodeResult_encode codec result
    · simp only [hd, if_false]
  get_listed := by
    intro kv action result h
    simp only [metaKvActionCache, RedbMetaKv.serve, RedbMetaKv.scan_eq] at h ⊢
    cases hget : kv.get? (acKey action) with
    | none =>
      rw [hget] at h
      cases h
    | some bytes =>
      rw [hget] at h
      obtain ⟨d, hd⟩ := listedEntry_of_decode h action
      refine ⟨d, mem_filterMap.2 ⟨(acKey action, bytes), ?_, ?_⟩⟩
      · exact OrdMap.mem_startingWith.2 ⟨hget, List.prefix_append _ _⟩
      · rw [fromUTF8_acKey]
        exact hd

/-! ## The system -/

/-- Where a result comes from. -/
inductive Source where
  | worker
  | client
  deriving DecidableEq

/-- Is a result to be written to the cache? The scheduler drops failed actions. -/
def Source.writes (source : Source) (result : ActionResult) : Bool :=
  match source with
  | .worker => decide (result.exitCode = 0)
  | .client => true

/-- A result that is still to be written. -/
structure Pending where
  action : Digest
  result : ActionResult
  complete : Bool
  guarded : Bool

/-- A running sweep. -/
inductive Sweep where
  | started
  | marked (reachable : OrdSet Digest)
  | deleting (unreachable : List Digest)

/-- The control plane, as far as the cache and the store are concerned. -/
structure ControlPlane (S : Type) where
  cas : RedbTable
  cache : S
  complete : OrdMap String Bool
  pending : List Pending
  sweeps : List Sweep

/-- A step of one of the tasks, up to its next await. -/
inductive GcStep where
  | upload (blobs : List (Digest × Blobs.Bytes))
  | report (source : Source) (action : Digest) (result : ActionResult)
  | acquire (i : ℕ)
  | write (i : ℕ)
  | giveUp (i : ℕ)
  | beginSweep
  | mark (j : ℕ)
  | list (j : ℕ)
  | delete (j : ℕ)
  | endSweep (j : ℕ)

namespace ControlPlane

variable {S : Type} (C : ActionCache S)

/-- Before anything is uploaded. -/
def init (cache : S) : ControlPlane S :=
  { cas := ∅, cache := cache, complete := ∅, pending := [], sweeps := [] }

/-- Can the barrier be taken? A guard without a permit waits for nobody. -/
def free (s : ControlPlane S) : Bool :=
  !C.gcWindow || (s.pending.all (fun p => !p.guarded) && s.sweeps.isEmpty)

/-- The digests that the store lists, rebuilt from hashes and sizes. -/
def listed (cas : RedbTable) : List Digest :=
  match (redbCas.listDigests cas).1 with
  | .ok digests => digests
  | .error _ => []

/-- One step; `none` if it cannot be taken. -/
def step (s : ControlPlane S) : GcStep → Option (ControlPlane S)
  | .upload blobs => some { s with cas := (redbCas.batchUpdateBlobs s.cas blobs).2 }
  | .report source action result =>
    if source.writes result then
      some { s with pending := s.pending ++ [⟨action, result, holdsAll s.cas result, false⟩] }
    else some s
  | .acquire i =>
    match s.pending[i]? with
    | some p =>
      if s.free C then some { s with pending := s.pending.set i { p with guarded := true } }
      else none
    | none => none
  | .write i =>
    match s.pending[i]? with
    | some p =>
      if p.guarded then
        some { s with
          cache := C.updateActionResult s.cache p.action p.result
          complete := s.complete.insert p.action.hash p.complete
          pending := s.pending.eraseIdx i }
      else none
    | none => none
  | .giveUp i => some { s with pending := s.pending.eraseIdx i }
  | .beginSweep => if s.free C then some { s with sweeps := s.sweeps ++ [.started] } else none
  | .mark j =>
    match s.sweeps[j]? with
    | some .started =>
      some { s with
        sweeps := s.sweeps.set j (.marked (reachableFrom (C.listEntries s.cache))) }
    | _ => none
  | .list j =>
    match s.sweeps[j]? with
    | some (.marked reachable) =>
      some { s with
        sweeps := s.sweeps.set j (.deleting (planOf reachable (listed s.cas)).unreachable) }
    | _ => none
  | .delete j =>
    match s.sweeps[j]? with
    | some (.deleting (d :: rest)) =>
      some { s with
        cas := (redbCas.deleteBlob s.cas d).2
        sweeps := s.sweeps.set j (.deleting rest) }
    | _ => none
  | .endSweep j => some { s with sweeps := s.sweeps.eraseIdx j }

/-- A sequence of steps. -/
def run (s : ControlPlane S) : List GcStep → Option (ControlPlane S)
  | [] => some s
  | a :: steps => (s.step C a).bind fun s => s.run steps

/-- A cached result that was complete when it arrived, and when no sweep is running, is
complete. -/
def NoDangling (s : ControlPlane S) : Prop :=
  s.sweeps = [] → ∀ action result, C.getActionResult s.cache action = .ok (some result) →
    s.complete.get? action.hash = some true → holdsAll s.cas result = true

/-- No result waits to be written while a sweep is between its mark and its end: none is
reported or submitted in that time, and no sweep reads the cache while one waits.  And sizes
are right: a result whose blobs are all there names them by their sizes, and no upload
replaces a blob by one of another size (which would be a collision of hashes). -/
def Apart (s : ControlPlane S) : GcStep → Prop
  | .upload blobs => ∀ p ∈ blobs, p.1.verify p.2 = .ok () → sized s.cas p.1 = true
  | .report source _ result => source.writes result = true →
      (∀ w ∈ s.sweeps, w = .started) ∧
        (holdsAll s.cas result = true → ∀ d ∈ directDigests result, sized s.cas d = true)
  | .mark _ => s.pending = []
  | _ => True

/-- Every step of a sequence is such. -/
def ApartAlong (s : ControlPlane S) : List GcStep → Prop
  | [] => True
  | a :: steps => s.Apart a ∧ ∀ s', s.step C a = some s' → s'.ApartAlong steps

/-! ## While results and sweeps are kept apart -/

variable {C} {s s' : ControlPlane S}

/-- A result that is cached and was complete when it arrived is held; what it names is on no
list of blobs to delete; and no result waits while a sweep knows what it is going to keep. -/
structure Inv (C : ActionCache S) (s : ControlPlane S) : Prop where
  cached : ∀ action result, C.getActionResult s.cache action = .ok (some result) →
    s.complete.get? action.hash = some true → Holds s.cas result
  waiting : ∀ p ∈ s.pending, p.complete = true → Holds s.cas p.result
  apart : s.pending ≠ [] → ∀ w ∈ s.sweeps, w = .started
  marked : ∀ reachable, .marked reachable ∈ s.sweeps → ∀ action result,
    C.getActionResult s.cache action = .ok (some result) → ∀ d ∈ directDigests result, d ∈ reachable
  planned : ∀ unreachable, .deleting unreachable ∈ s.sweeps → ∀ action result,
    C.getActionResult s.cache action = .ok (some result) →
      s.complete.get? action.hash = some true →
        ∀ d ∈ directDigests result, ∀ e ∈ unreachable, e.hash ≠ d.hash

namespace Inv

theorem init (C : ActionCache S) (cache : S) : Inv C (init cache) where
  cached _ _ _ h := absurd h (by simp [ControlPlane.init])
  waiting _ h := absurd h not_mem_nil
  apart h := absurd rfl h
  marked _ h := absurd h not_mem_nil
  planned _ h := absurd h not_mem_nil

theorem stored_updateLoop {blobs : List (Digest × Blobs.Bytes)} {t : RedbTable} {d : Digest}
    (h : Stored t d)
    (hsizes : ∀ p ∈ blobs, p.1.verify p.2 = .ok () → p.1.hash = d.hash →
      p.1.sizeBytes = d.sizeBytes) :
    Stored (updateLoop (fun t d b => t.insert d.hash b) t blobs).2 d := by
  induction blobs generalizing t with
  | nil => exact h
  | cons p blobs ih =>
    rw [forall_mem_cons] at hsizes
    obtain ⟨e, b⟩ := p
    cases hv : e.verify b with
    | error =>
      rw [updateLoop_cons_invalid hv]
      exact ih h hsizes.2
    | ok =>
      have he : e = Digest.of b := Digest.verify_eq_ok.1 hv
      subst he
      rw [updateLoop_cons_valid]
      refine ih ?_ hsizes.2
      by_cases hhash : d.hash = (Digest.of b).hash
      · refine ⟨b, ?_, (hsizes.1 hv hhash.symm).symm⟩
        rw [hhash, OrdMap.get?_insert_self]
      · obtain ⟨bytes, hget, hsize⟩ := h
        exact ⟨bytes, (OrdMap.get?_insert_of_ne _ _ hhash).trans hget, hsize⟩

theorem stored_of_listed {cas : RedbTable} {d : Digest} (hd : d ∈ listed cas) : Stored cas d := by
  obtain ⟨⟨hash, bytes⟩, hmem, hnew⟩ := mem_filterMap.1 hd
  cases hdigest : Digest.new hash bytes.length with
  | error =>
    rw [hdigest] at hnew
    cases hnew
  | ok e =>
    rw [hdigest] at hnew
    cases hnew
    obtain ⟨hhash, hsize⟩ := Digest.of_new hdigest
    exact ⟨bytes, hhash ▸ OrdMap.get?_eq_some.2 hmem, hsize⟩

variable (h : Inv C s)

include h

theorem upload {blobs : List (Digest × Blobs.Bytes)} (hsizes : s.Apart (.upload blobs)) :
    Inv C { s with cas := (redbCas.batchUpdateBlobs s.cas blobs).2 } := by
  have hkept : ∀ d, Stored s.cas d → Stored (redbCas.batchUpdateBlobs s.cas blobs).2 d := by
    intro d hd
    refine stored_updateLoop hd fun p hp hv hhash => ?_
    obtain ⟨bytes, hget, hsize⟩ := hd
    have hsized := hsizes p hp hv
    rw [sized, hhash, hget] at hsized
    exact (of_decide_eq_true hsized).trans hsize.symm
  exact
    { cached := fun action result hget hc =>
        (h.cached action result hget hc).of_kept fun d _ => hkept d
      waiting := fun p hp hc => (h.waiting p hp hc).of_kept fun d _ => hkept d
      apart := h.apart
      marked := h.marked
      planned := h.planned }

theorem arrive {source : Source} {action : Digest} {result : ActionResult}
    (hwrites : source.writes result = true) (hapart : s.Apart (.report source action result)) :
    Inv C { s with pending := s.pending ++ [⟨action, result, holdsAll s.cas result, false⟩] } where
  cached := h.cached
  waiting p hp hc := by
    rcases mem_append.1 hp with hp | hp
    · exact h.waiting p hp hc
    · rw [mem_singleton.1 hp] at hc ⊢
      exact holds_of_sized hc ((hapart hwrites).2 hc)
  apart _ := (hapart hwrites).1
  marked := h.marked
  planned := h.planned

theorem of_pending {pending : List Pending}
    (hp : ∀ p ∈ pending, ∃ p' ∈ s.pending, p'.complete = p.complete ∧ p'.result = p.result) :
    Inv C { s with pending := pending } where
  cached := h.cached
  waiting p hmem hc := by
    obtain ⟨p', hp', hcomplete, hresult⟩ := hp p hmem
    rw [← hresult]
    exact h.waiting p' hp' (hcomplete.trans hc)
  apart hne := by
    obtain ⟨p, hmem⟩ := exists_mem_of_ne_nil pending hne
    obtain ⟨p', hp', -⟩ := hp p hmem
    exact h.apart (ne_nil_of_mem hp')
  marked := h.marked
  planned := h.planned

theorem write (hC : C.Lawful) {p : Pending} (hp : p ∈ s.pending) :
    Inv C { s with
      cache := C.updateActionResult s.cache p.action p.result
      complete := s.complete.insert p.action.hash p.complete } where
  cached action result hget hc := by
    rw [hC.get_update] at hget
    rw [OrdMap.get?_insert] at hc
    split at hget
    · rename_i hhash
      cases hget
      rw [if_pos hhash] at hc
      exact h.waiting p hp (Option.some.inj hc)
    · rename_i hhash
      rw [if_neg hhash] at hc
      exact h.cached action result hget hc
  waiting := h.waiting
  apart := h.apart
  -- no sweep knows what it keeps while the result was waiting
  marked _ hw := absurd (h.apart (ne_nil_of_mem hp) _ hw) (by simp)
  planned _ hw := absurd (h.apart (ne_nil_of_mem hp) _ hw) (by simp)

theorem of_sweeps {sweeps : List Sweep}
    (hw : ∀ w ∈ sweeps, w ∈ s.sweeps ∨ w = .started) : Inv C { s with sweeps := sweeps } where
  cached := h.cached
  waiting := h.waiting
  apart hne w hmem := by
    rcases hw w hmem with hold | hnew
    · exact h.apart hne w hold
    · exact hnew
  marked _ hmem := by
    rcases hw _ hmem with hold | hnew
    · exact h.marked _ hold
    · cases hnew
  planned _ hmem := by
    rcases hw _ hmem with hold | hnew
    · exact h.planned _ hold
    · cases hnew

theorem mark (hC : C.Lawful) (hnone : s.pending = []) (j : ℕ) :
    Inv C { s with
      sweeps := s.sweeps.set j (.marked (reachableFrom (C.listEntries s.cache))) } where
  cached := h.cached
  waiting := h.waiting
  apart hne := absurd hnone hne
  marked reachable hmem action result hget d hd := by
    rcases mem_or_eq_of_mem_set hmem with hold | hnew
    · exact h.marked reachable hold action result hget d hd
    cases hnew
    obtain ⟨e, he⟩ := hC.get_listed hget
    exact OrdSet.mem_ofList.2 (mem_flatMap.2 ⟨(e, result), he, hd⟩)
  planned unreachable hmem := by
    rcases mem_or_eq_of_mem_set hmem with hold | hnew
    · exact h.planned unreachable hold
    · cases hnew

theorem list {reachable : OrdSet Digest} (hr : .marked reachable ∈ s.sweeps) (j : ℕ) :
    Inv C { s with
      sweeps := s.sweeps.set j (.deleting (planOf reachable (listed s.cas)).unreachable) } where
  cached := h.cached
  waiting := h.waiting
  apart hne := absurd (h.apart hne _ hr) (by simp)
  marked reachable' hmem := by
    rcases mem_or_eq_of_mem_set hmem with hold | hnew
    · exact h.marked reachable' hold
    · cases hnew
  planned unreachable hmem action result hget hc d hd e he hhash := by
    rcases mem_or_eq_of_mem_set hmem with hold | hnew
    · exact h.planned unreachable hold action result hget hc d hd e he hhash
    cases hnew
    -- a listed digest with the hash has the size of the blob, and so has the one that is named
    obtain ⟨hlisted, hnot⟩ := mem_filter.1 he
    obtain ⟨bytes, hbytes, hsize⟩ := (h.cached action result hget hc).stored d hd
    obtain ⟨bytes', hbytes', hsize'⟩ := stored_of_listed hlisted
    rw [hhash] at hbytes'
    cases hbytes.symm.trans hbytes'
    have heq : e = d :=
      Digest.key_injective (toLex_inj.2 (Prod.ext hhash (hsize'.trans hsize.symm)))
    rw [heq] at hnot
    exact of_decide_eq_true hnot (h.marked reachable hr action result hget d hd)

theorem delete {d : Digest} {rest : List Digest}
    (hd : .deleting (d :: rest) ∈ s.sweeps) (j : ℕ) :
    Inv C { s with
      cas := (redbCas.deleteBlob s.cas d).2
      sweeps := s.sweeps.set j (.deleting rest) } where
  cached action result hget hc := by
    refine (h.cached action result hget hc).of_kept fun e he hheld => ?_
    -- no cached result names the blob that is deleted
    have hne : e.hash ≠ d.hash :=
      (h.planned _ hd action result hget hc e he d mem_cons_self).symm
    obtain ⟨bytes, hbytes, hsize⟩ := hheld
    exact ⟨bytes, (OrdMap.get?_erase_of_ne _ hne).trans hbytes, hsize⟩
  waiting p hp := absurd (h.apart (ne_nil_of_mem hp) _ hd) (by simp)
  apart hne := absurd (h.apart hne _ hd) (by simp)
  marked reachable hmem := by
    rcases mem_or_eq_of_mem_set hmem with hold | hnew
    · exact h.marked reachable hold
    · cases hnew
  planned unreachable hmem action result hget hc e he := by
    rcases mem_or_eq_of_mem_set hmem with hold | hnew
    · exact h.planned unreachable hold action result hget hc e he
    · cases hnew
      exact fun d' hd' => h.planned _ hd action result hget hc e he d' (mem_cons_of_mem d hd')

/-- **A step** that keeps results and sweeps apart. -/
theorem step (hC : C.Lawful) {a : GcStep} (hapart : s.Apart a)
    (hs : s.step C a = some s') : Inv C s' := by
  cases a with
  | upload blobs =>
    cases hs
    exact h.upload hapart
  | report source action result =>
    simp only [ControlPlane.step] at hs
    split at hs
    · rename_i hwrites
      cases hs
      exact h.arrive hwrites hapart
    · cases hs
      exact h
  | acquire =>
    simp only [ControlPlane.step] at hs
    split at hs
    · rename_i p hp
      split at hs
      · cases hs
        refine h.of_pending fun q hq => ?_
        rcases mem_or_eq_of_mem_set hq with hold | rfl
        · exact ⟨q, hold, rfl, rfl⟩
        · exact ⟨p, mem_of_getElem? hp, rfl, rfl⟩
      · cases hs
    · cases hs
  | write =>
    simp only [ControlPlane.step] at hs
    split at hs
    · rename_i p hp
      split at hs
      · cases hs
        exact (h.write hC (mem_of_getElem? hp)).of_pending fun q hq =>
          ⟨q, mem_of_mem_eraseIdx hq, rfl, rfl⟩
      · cases hs
    · cases hs
  | giveUp =>
    cases hs
    exact h.of_pending fun q hq => ⟨q, mem_of_mem_eraseIdx hq, rfl, rfl⟩
  | beginSweep =>
    simp only [ControlPlane.step] at hs
    split at hs
    · cases hs
      exact h.of_sweeps fun w hw => (mem_append.1 hw).imp_right mem_singleton.1
    · cases hs
  | mark j =>
    simp only [ControlPlane.step] at hs
    split at hs
    · cases hs
      exact h.mark hC hapart j
    · cases hs
  | list j =>
    simp only [ControlPlane.step] at hs
    split at hs
    · rename_i reachable hr
      cases hs
      exact h.list (mem_of_getElem? hr) j
    · cases hs
  | delete j =>
    simp only [ControlPlane.step] at hs
    split at hs
    · rename_i d rest hd
      cases hs
      exact h.delete (mem_of_getElem? hd) j
    · cases hs
  | endSweep =>
    cases hs
    exact h.of_sweeps fun w hw => Or.inl (mem_of_mem_eraseIdx hw)

theorem run (hC : C.Lawful) {steps : List GcStep} (hapart : s.ApartAlong C steps)
    (hs : s.run C steps = some s') : Inv C s' := by
  induction steps generalizing s with
  | nil =>
    cases hs
    exact h
  | cons a steps ih =>
    obtain ⟨t, ht, hrun⟩ := Option.bind_eq_some_iff.1 hs
    exact ih (h.step hC hapart.1 ht) (hapart.2 t ht) hrun

end Inv

/-! ## Runs, state by state -/

theorem run_cons {a : GcStep} {steps : List GcStep} {u : ControlPlane S}
    (ha : s.step C a = some s') (hrun : s'.run C steps = some u) :
    s.run C (a :: steps) = some u := by
  rw [run, ha]
  exact hrun

theorem apartAlong_cons {a : GcStep} {steps : List GcStep} (hapart : s.Apart a)
    (ha : s.step C a = some s') (hrest : s'.ApartAlong C steps) :
    s.ApartAlong C (a :: steps) := by
  refine ⟨hapart, fun t ht => ?_⟩
  cases ha.symm.trans ht
  exact hrest

/-- The empty blob. -/
def sampleDigest : Digest := Digest.of []

/-- A blob that no result names. -/
def strayDigest : Digest := Digest.of [0]

/-- A result whose standard output is the empty blob. -/
def sampleResult : ActionResult :=
  { stdoutDigest := some ⟨sampleDigest.hash, sampleDigest.sizeBytes⟩ }

/-- The store after the upload of the empty blob. -/
def oneBlob : RedbTable := (redbCas.batchUpdateBlobs ∅ [(sampleDigest, [])]).2

/-- The store after the upload of both blobs. -/
def twoBlobs : RedbTable :=
  (redbCas.batchUpdateBlobs ∅ [(sampleDigest, []), (strayDigest, [0])]).2

/-- The store without the empty blob, and without the stray one. -/
def noBlob : RedbTable := (redbCas.deleteBlob oneBlob sampleDigest).2

/-- The one-blob table left when the stray blob is deleted from `twoBlobs`. -/
def keptBlob : RedbTable := (redbCas.deleteBlob twoBlobs strayDigest).2

/-- The result has been reported, with all that it refers to in the store. -/
def reported (cas : RedbTable) (cache : S) (guarded : Bool) (sweeps : List Sweep) :
    ControlPlane S :=
  ⟨cas, cache, ∅, [⟨sampleDigest, sampleResult, true, guarded⟩], sweeps⟩

/-- The result has been written. -/
def recorded (C : ActionCache S) (cas : RedbTable) (cache : S) (sweeps : List Sweep) :
    ControlPlane S :=
  ⟨cas, C.updateActionResult cache sampleDigest sampleResult,
    (∅ : OrdMap String Bool).insert sampleDigest.hash true, [], sweeps⟩

/-- A sweep that deletes one blob, from its beginning to its end. -/
def sweepSteps : List GcStep := [.beginSweep, .mark 0, .list 0, .delete 0, .endSweep 0]

section Steps

variable (C) (cas : RedbTable) (cache : S)

theorem free_idle (hpending : s.pending.all (fun p => !p.guarded) = true)
    (hsweeps : s.sweeps = []) :
    s.free C = true := by
  rw [free, hpending, hsweeps]
  exact Bool.or_true _

theorem step_upload (blobs : List (Digest × Blobs.Bytes)) :
    (ControlPlane.init cache).step C (.upload blobs) =
      some ⟨(redbCas.batchUpdateBlobs ∅ blobs).2, cache, ∅, [], []⟩ := rfl

theorem step_report (hheld : holdsAll cas sampleResult = true) :
    (⟨cas, cache, ∅, [], []⟩ : ControlPlane S).step C
      (.report .worker sampleDigest sampleResult) = some (reported cas cache false []) := by
  simp only [step, hheld]
  rfl

theorem step_acquire :
    (reported cas cache false []).step C (.acquire 0) = some (reported cas cache true []) := by
  have hfree : (reported cas cache false []).free C = true := free_idle C rfl rfl
  exact if_pos hfree

theorem step_write :
    (reported cas cache true []).step C (.write 0) = some (recorded C cas cache []) := rfl

theorem holdsAll_of_noDangling (hC : C.Lawful)
    (h : (recorded C cas cache []).NoDangling C) : holdsAll cas sampleResult = true := by
  refine h rfl sampleDigest sampleResult ?_ (OrdMap.get?_insert_self _ _ _)
  exact (hC.get_update cache sampleDigest sampleResult sampleDigest).trans (if_pos rfl)

variable {C cas cache} {complete : OrdMap String Bool} {pending : List Pending} {d : Digest}

theorem apart_report (hsized : ∀ d ∈ directDigests sampleResult, sized cas d = true) :
    (⟨cas, cache, ∅, [], []⟩ : ControlPlane S).Apart
      (.report .worker sampleDigest sampleResult) :=
  fun _ => ⟨forall_mem_nil _, fun _ => hsized⟩

/-- **One sweep**, beside results that wait for the barrier: the blob that is planned is
deleted. -/
theorem run_sweep (hpending : pending.all (fun p => !p.guarded) = true)
    (hplan : (planOf (reachableFrom (C.listEntries cache)) (listed cas)).unreachable = [d])
    {steps : List GcStep} {u : ControlPlane S}
    (hrest : (⟨(redbCas.deleteBlob cas d).2, cache, complete, pending, []⟩ :
      ControlPlane S).run C steps = some u) :
    (⟨cas, cache, complete, pending, []⟩ : ControlPlane S).run C (sweepSteps ++ steps) =
      some u := by
  have hlist : (⟨cas, cache, complete, pending, [.marked (reachableFrom (C.listEntries cache))]⟩ :
      ControlPlane S).step C (.list 0) = some ⟨cas, cache, complete, pending, [.deleting [d]]⟩ := by
    rw [← hplan]
    rfl
  exact run_cons (if_pos (free_idle C hpending rfl)) (run_cons rfl (run_cons hlist
    (run_cons rfl (run_cons rfl hrest))))

theorem apartAlong_sweep
    (hplan : (planOf (reachableFrom (C.listEntries cache)) (listed cas)).unreachable = [d]) :
    (⟨cas, cache, complete, [], []⟩ : ControlPlane S).ApartAlong C sweepSteps := by
  have hlist : (⟨cas, cache, complete, [], [.marked (reachableFrom (C.listEntries cache))]⟩ :
      ControlPlane S).step C (.list 0) = some ⟨cas, cache, complete, [], [.deleting [d]]⟩ := by
    rw [← hplan]
    rfl
  exact apartAlong_cons trivial (if_pos (free_idle C rfl rfl)) (apartAlong_cons rfl rfl
    (apartAlong_cons trivial hlist (apartAlong_cons trivial rfl
      (apartAlong_cons trivial rfl trivial))))

end Steps

/-! ## A sweep between the report of a result and its write -/

/-- The blob is uploaded and the result reported; before the scheduler has taken the
barrier, a sweep runs from its beginning to its end; then the result is written. -/
def raceSteps : List GcStep :=
  [.upload [(sampleDigest, [])], .report .worker sampleDigest sampleResult] ++
    (sweepSteps ++ [.acquire 0, .write 0])

/-- **The race**, whatever cache it is that begins empty. -/
theorem race (hC : C.Lawful) (cache : S) (hempty : C.listEntries cache = []) :
    ∃ s, (ControlPlane.init cache).run C raceSteps = some s ∧ ¬ s.NoDangling C := by
  have hheld : holdsAll oneBlob sampleResult = true := by decide +kernel
  have hgone : holdsAll noBlob sampleResult = false := by decide +kernel
  have hplan : (planOf (reachableFrom []) (listed oneBlob)).unreachable = [sampleDigest] := by
    decide +kernel
  rw [← hempty] at hplan
  have hupload : (ControlPlane.init cache).step C (.upload [(sampleDigest, [])]) =
      some ⟨oneBlob, cache, ∅, [], []⟩ := step_upload C cache _
  have hwritten : (reported noBlob cache false []).run C [.acquire 0, .write 0] =
      some (recorded C noBlob cache []) :=
    run_cons (step_acquire C noBlob cache) (run_cons (step_write C noBlob cache) rfl)
  have hswept : (reported oneBlob cache false []).run C (sweepSteps ++ [.acquire 0, .write 0]) =
      some (recorded C noBlob cache []) := run_sweep rfl hplan hwritten
  refine ⟨recorded C noBlob cache [], ?_, fun hno => ?_⟩
  · exact run_cons hupload (run_cons (step_report C oneBlob cache hheld) hswept)
  · rw [holdsAll_of_noDangling C noBlob cache hC hno] at hgone
    cases hgone

/-! ## A sweep after the write of a result -/

/-- Two blobs are uploaded, a result that names one of them is reported and written, and then
a sweep deletes the other. -/
def orderlySteps : List GcStep :=
  [.upload [(sampleDigest, []), (strayDigest, [0])], .report .worker sampleDigest sampleResult,
    .acquire 0, .write 0] ++ sweepSteps

theorem orderly (cache : S) {action : Digest}
    (hlisted : C.listEntries (C.updateActionResult cache sampleDigest sampleResult) =
      [(action, sampleResult)]) :
    (ControlPlane.init cache).run C orderlySteps = some (recorded C keptBlob cache []) ∧
      (ControlPlane.init cache).ApartAlong C orderlySteps := by
  have hheld : holdsAll twoBlobs sampleResult = true := by decide +kernel
  have hsized : ∀ d ∈ directDigests sampleResult, sized twoBlobs d = true := by decide +kernel
  have hplan : (planOf (OrdSet.ofList (directDigests sampleResult)) (listed twoBlobs)).unreachable =
      [strayDigest] := by decide +kernel
  have hreach : reachableFrom (C.listEntries (C.updateActionResult cache sampleDigest
      sampleResult)) = OrdSet.ofList (directDigests sampleResult) := by
    rw [hlisted, reachableFrom, flatMap_singleton]
  rw [← hreach] at hplan
  have hupload : (ControlPlane.init cache).step C
      (.upload [(sampleDigest, []), (strayDigest, [0])]) = some ⟨twoBlobs, cache, ∅, [], []⟩ :=
    step_upload C cache _
  have hswept : (recorded C twoBlobs cache []).run C (sweepSteps ++ []) =
      some (recorded C keptBlob cache []) := run_sweep rfl hplan rfl
  have hreport := step_report C twoBlobs cache hheld
  have hacquire := step_acquire C twoBlobs cache
  have hwrite := step_write C twoBlobs cache
  constructor
  · exact run_cons hupload (run_cons hreport (run_cons hacquire (run_cons hwrite hswept)))
  · exact apartAlong_cons (fun _ _ _ => rfl) hupload (apartAlong_cons (apart_report hsized) hreport
      (apartAlong_cons trivial hacquire (apartAlong_cons trivial hwrite
        (apartAlong_sweep hplan))))

end ControlPlane

/-! ## Both caches -/

open ControlPlane

/-- **No dangling entries**: in every run, with either cache, in which no result waits to
be written while a sweep is between its mark and its end, and results name blobs by their
sizes, a result that is cached, and was complete when it was reported or submitted, is
complete when no sweep is running. -/
theorem cache_never_dangles (codec : ResultCodec) (steps : List GcStep) :
    (∀ s, (ControlPlane.init ∅).run (redbActionCache codec) steps = some s →
      (ControlPlane.init ∅).ApartAlong (redbActionCache codec) steps →
        s.NoDangling (redbActionCache codec)) ∧
    ∀ s, (ControlPlane.init ∅).run (metaKvActionCache codec) steps = some s →
      (ControlPlane.init ∅).ApartAlong (metaKvActionCache codec) steps →
        s.NoDangling (metaKvActionCache codec) := by
  refine ⟨fun s hs hapart _ action result hget hc => ?_,
    fun s hs hapart _ action result hget hc => ?_⟩
  · have hinv := (Inv.init _ _).run (redbActionCache_lawful codec) hapart hs
    exact (hinv.cached action result hget hc).all
  · have hinv := (Inv.init _ _).run (metaKvActionCache_lawful codec) hapart hs
    exact (hinv.cached action result hget hc).all

theorem redb_lists (codec : ResultCodec) (action : Digest) (result : ActionResult) : ∃ d,
    (redbActionCache codec).listEntries ((redbActionCache codec).updateActionResult ∅ action
      result) = [(d, result)] := by
  obtain ⟨d, hentry⟩ := listedEntry_of_decode (decodeResult_encode codec result) action
  have htable : ((∅ : OrdMap String Blobs.Bytes).insert action.hash (codec.encode result)).toList =
      [(action.hash, codec.encode result)] := rfl
  refine ⟨d, ?_⟩
  simp only [redbActionCache, htable, filterMap_cons, hentry, filterMap_nil]

theorem metaKv_lists (codec : ResultCodec) (action : Digest) (result : ActionResult) : ∃ d,
    (metaKvActionCache codec).listEntries ((metaKvActionCache codec).updateActionResult ∅ action
      result) = [(d, result)] := by
  obtain ⟨d, hentry⟩ := listedEntry_of_decode (decodeResult_encode codec result) action
  have hscan : ((∅ : KvMap).insert (acKey action) (codec.encode result)).startingWith acPrefix =
      [(acKey action, codec.encode result)] :=
    filter_cons_of_pos (List.isPrefixOf_iff_prefix.2 (List.prefix_append _ _))
  refine ⟨d, ?_⟩
  simp only [metaKvActionCache, RedbMetaKv.serve, RedbMetaKv.scan_eq, hscan, filterMap_cons,
    fromUTF8_acKey, hentry, filterMap_nil]

theorem cache_never_dangles_sample : ∃ codec,
    (ControlPlane.init ∅).run (redbActionCache codec) orderlySteps =
      some (recorded (redbActionCache codec) keptBlob ∅ []) ∧
    (ControlPlane.init ∅).run (metaKvActionCache codec) orderlySteps =
      some (recorded (metaKvActionCache codec) keptBlob ∅ []) ∧
    (twoBlobs.contains strayDigest.hash = true ∧ keptBlob.contains strayDigest.hash = false) ∧
    (recorded (redbActionCache codec) keptBlob ∅ []).NoDangling (redbActionCache codec) ∧
    (recorded (metaKvActionCache codec) keptBlob ∅ []).NoDangling (metaKvActionCache codec) := by
  obtain ⟨codec⟩ : Nonempty ResultCodec := inferInstance
  obtain ⟨_, hredb⟩ := redb_lists codec sampleDigest sampleResult
  obtain ⟨_, hmeta⟩ := metaKv_lists codec sampleDigest sampleResult
  obtain ⟨hrun, hapart⟩ := orderly ∅ hredb
  obtain ⟨hrun', hapart'⟩ := orderly ∅ hmeta
  exact ⟨codec, hrun, hrun', by decide +kernel,
    (cache_never_dangles codec orderlySteps).1 _ hrun hapart,
    (cache_never_dangles codec orderlySteps).2 _ hrun' hapart'⟩

/-- With either cache, and whatever the encoding, a sweep that runs between the report of
a result and its write leaves an entry whose blob is gone. -/
theorem cache_dangles : Nonempty ResultCodec ∧ ∀ codec,
    (∃ s, (ControlPlane.init ∅).run (redbActionCache codec) raceSteps = some s ∧
      ¬ s.NoDangling (redbActionCache codec)) ∧
    ∃ s, (ControlPlane.init ∅).run (metaKvActionCache codec) raceSteps = some s ∧
      ¬ s.NoDangling (metaKvActionCache codec) :=
  ⟨inferInstance, fun codec => ⟨race (redbActionCache_lawful codec) ∅ rfl,
    race (metaKvActionCache_lawful codec) ∅ rfl⟩⟩

end Brokkr.Gc
