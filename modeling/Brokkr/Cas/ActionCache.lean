import Brokkr.Reapi
import Brokkr.Cas.Store

/-!
# The action cache

The `ActionCache` trait of `brokkr-cas` (`action_cache.rs`), its redb backend, and the
plan of a garbage collection (`gc.rs`).

* `ActionCache` — a backend with states in `S`; `list_entries` and `gc_window` have the
  bodies that a backend inherits when it does not give its own.
* `redbActionCache` — encoded results by the hash of the action.
* `ActionCache.Lawful` — what a collection relies on: an update replaces what is stored
  under one hash, and whatever can be looked up is listed.
* `directDigests` — the digests that a result names; `mem_directDigests` says that none
  of them is left out.
* `GcPlan` — what a collection keeps and what it deletes.

The encoding of results is a parameter (`ResultCodec`) with its round trip.
-/

namespace Brokkr.Blobs

/-! ## The trait -/

/-- The encoding of results into the bytes that a cache stores. -/
structure ResultCodec where
  encode : ActionResult → Bytes
  decode : Bytes → Except String ActionResult
  decode_encode : ∀ r, decode (encode r) = .ok r

instance countable_char : Countable Char :=
  Function.Injective.countable fun _ _ h => Char.toNat_inj.1 h

instance countable_string : Countable String :=
  Function.Injective.countable fun _ _ h => String.toList_inj.1 h

instance : Countable RawDigest :=
  Function.Injective.countable (f := fun d : RawDigest => (d.hash, d.sizeBytes))
    (by rintro ⟨⟩ ⟨⟩ h; cases h; rfl)

instance : Countable OutputFile :=
  Function.Injective.countable (f := OutputFile.digest) (by rintro ⟨⟩ ⟨⟩ h; cases h; rfl)

instance : Countable OutputDirectory :=
  Function.Injective.countable
    (f := fun d : OutputDirectory => (d.treeDigest, d.rootDirectoryDigest))
    (by rintro ⟨⟩ ⟨⟩ h; cases h; rfl)

instance : Countable ActionResult :=
  Function.Injective.countable
    (f := fun r : ActionResult => (r.outputFiles, r.outputDirectories, r.stdoutDigest,
      r.stderrDigest, r.exitCode))
    (by rintro ⟨⟩ ⟨⟩ h; cases h; rfl)

/-- There are such encodings: there are no more results than byte strings. -/
instance : Nonempty ResultCodec := by
  classical
  obtain ⟨f, hf⟩ := exists_injective_nat ActionResult
  refine ⟨fun r => List.replicate (f r) 0, fun bytes =>
    if h : ∃ r, f r = bytes.length then .ok h.choose else .error "unknown", fun r => ?_⟩
  have h : ∃ r', f r' = (List.replicate (f r) (0 : UInt8)).length := ⟨r, List.length_replicate.symm⟩
  rw [dif_pos h, hf (h.choose_spec.trans List.length_replicate)]

/-- A cache of results with states in `S`. -/
structure ActionCache (S : Type) where
  getActionResult : S → Digest → Except CasError (Option ActionResult)
  updateActionResult : S → Digest → ActionResult → S
  listEntries : S → List (Digest × ActionResult) := fun _ => []
  gcWindow : Bool := false

/-- What a cache does that a collection relies on. -/
structure ActionCache.Lawful {S : Type} (C : ActionCache S) : Prop where
  get_update : ∀ s action result d, C.getActionResult (C.updateActionResult s action result) d =
      if d.hash = action.hash then .ok (some result) else C.getActionResult s d
  get_listed : ∀ {s action result}, C.getActionResult s action = .ok (some result) →
    ∃ d, (d, result) ∈ C.listEntries s

variable (codec : ResultCodec)

/-- A stored value, decoded. -/
def decodeResult (bytes : Bytes) : Except CasError (Option ActionResult) :=
  match codec.decode bytes with
  | .ok result => .ok (some result)
  | .error e => .error (.redb ("ActionResult decode: " ++ e))

/-- An entry as `list_entries` reports it; one that makes no sense is skipped. The size
of the digest is a stand-in: only the hash is known. -/
def listedEntry (hash : String) (bytes : Bytes) :
    Option (Digest × ActionResult) :=
  match Digest.new hash bytes.length with
  | .error _ => none
  | .ok action =>
    match codec.decode bytes with
    | .error _ => none
    | .ok result => some (action, result)

theorem listedEntry_of_decode {codec : ResultCodec} {bytes : Bytes} {result : ActionResult}
    (h : decodeResult codec bytes = .ok (some result)) (action : Digest) :
    ∃ d, listedEntry codec action.hash bytes = some (d, result) := by
  obtain ⟨d, hd⟩ : ∃ d, Digest.new action.hash bytes.length = .ok d := by
    rw [Digest.new, dif_pos action.length, dif_pos action.hex, dif_pos (Int.natCast_nonneg _)]
    exact ⟨_, rfl⟩
  refine ⟨d, ?_⟩
  rw [decodeResult] at h
  rw [listedEntry, hd]
  cases hdec : codec.decode bytes with
  | error =>
    rw [hdec] at h
    cases h
  | ok =>
    rw [hdec] at h
    cases h
    rfl

theorem decodeResult_encode (result : ActionResult) :
    decodeResult codec (codec.encode result) = .ok (some result) := by
  rw [decodeResult, codec.decode_encode]

/-! ## The redb backend -/

/-- `RedbActionCache`: encoded results by the hash of the action. -/
def redbActionCache : ActionCache (OrdMap String Bytes) where
  getActionResult table action :=
    match table.get? action.hash with
    | none => .ok none
    | some bytes => decodeResult codec bytes
  updateActionResult table action result := table.insert action.hash (codec.encode result)
  listEntries table := table.toList.filterMap fun entry => listedEntry codec entry.1 entry.2
  gcWindow := true

theorem redbActionCache_lawful : (redbActionCache codec).Lawful where
  get_update table action result d := by
    simp only [redbActionCache, OrdMap.get?_insert]
    by_cases hd : d.hash = action.hash
    · simp only [hd, if_true]
      exact decodeResult_encode codec result
    · simp only [hd, if_false]
  get_listed := by
    intro table action result h
    simp only [redbActionCache] at h
    split at h
    · cases h
    rename_i bytes hget
    obtain ⟨d, hd⟩ := listedEntry_of_decode h action
    exact ⟨d, List.mem_filterMap.2 ⟨(action.hash, bytes), OrdMap.get?_eq_some.1 hget, hd⟩⟩

/-! ## What a result refers to -/

/-- The digests in the fields of a result, as they came over the wire. -/
def rawDigests (ar : ActionResult) : List RawDigest :=
  ar.outputFiles.filterMap OutputFile.digest ++
    ar.outputDirectories.filterMap OutputDirectory.treeDigest ++
    ar.outputDirectories.filterMap OutputDirectory.rootDirectoryDigest ++
    ar.stdoutDigest.toList ++ ar.stderrDigest.toList

/-- All that a result refers to is in the store, which looks at hashes alone. -/
def holdsAll (cas : RedbTable) (ar : ActionResult) : Bool :=
  (rawDigests ar).all fun raw =>
    match Digest.ofRaw raw with
    | .ok d => cas.contains d.hash
    | .error _ => false

/-- A digest of a result, if there is one and it is valid. -/
def pushDigest : Option RawDigest → List Digest
  | none => []
  | some raw =>
    match Digest.ofRaw raw with
    | .ok d => [d]
    | .error _ => []

/-- Every digest that a result names; trees are not expanded. -/
def directDigests (ar : ActionResult) : List Digest :=
  ar.outputFiles.flatMap (fun f => pushDigest f.digest) ++ ar.outputDirectories.flatMap
      (fun dir => pushDigest dir.treeDigest ++ pushDigest dir.rootDirectoryDigest) ++
    pushDigest ar.stdoutDigest ++ pushDigest ar.stderrDigest

theorem mem_pushDigest {raw : Option RawDigest} {d : Digest} :
    d ∈ pushDigest raw ↔ ∃ r, raw = some r ∧ Digest.ofRaw r = .ok d := by
  cases raw with
  | none => simp [pushDigest]
  | some r =>
    simp only [pushDigest, Option.some.injEq, exists_eq_left']
    cases Digest.ofRaw r <;> simp [eq_comm]

/-- **No digest is left out.** -/
theorem mem_directDigests {ar : ActionResult} {d : Digest} :
    d ∈ directDigests ar ↔ ∃ raw ∈ rawDigests ar, Digest.ofRaw raw = .ok d := by
  simp only [directDigests, rawDigests, List.mem_append, List.mem_flatMap, mem_pushDigest,
    List.mem_filterMap, Option.mem_toList]
  constructor
  · rintro (((⟨f, hf, raw, hr, hd⟩ | ⟨dir, hdir, ⟨raw, hr, hd⟩ | ⟨raw, hr, hd⟩⟩) | ⟨raw, hr, hd⟩) |
      ⟨raw, hr, hd⟩)
    · exact ⟨raw, Or.inl (.inl (.inl (.inl ⟨f, hf, hr⟩))), hd⟩
    · exact ⟨raw, Or.inl (.inl (.inl (.inr ⟨dir, hdir, hr⟩))), hd⟩
    · exact ⟨raw, Or.inl (.inl (.inr ⟨dir, hdir, hr⟩)), hd⟩
    · exact ⟨raw, Or.inl (.inr hr), hd⟩
    · exact ⟨raw, Or.inr hr, hd⟩
  · rintro ⟨raw, (((⟨f, hf, hr⟩ | ⟨dir, hdir, hr⟩) | ⟨dir, hdir, hr⟩) | hr) | hr, hd⟩
    · exact .inl (.inl (.inl ⟨f, hf, raw, hr, hd⟩))
    · exact .inl (.inl (.inr ⟨dir, hdir, Or.inl ⟨raw, hr, hd⟩⟩))
    · exact .inl (.inl (.inr ⟨dir, hdir, Or.inr ⟨raw, hr, hd⟩⟩))
    · exact .inl (.inr ⟨raw, hr, hd⟩)
    · exact .inr ⟨raw, hr, hd⟩

/-- A digest has the size of the blob that is stored under its hash, if there is one. -/
def sized (cas : RedbTable) (d : Digest) : Bool :=
  match cas.get? d.hash with
  | some bytes => decide (d.sizeBytes = bytes.length)
  | none => true

/-- A blob with this digest is in the store. -/
def Stored (cas : RedbTable) (d : Digest) : Prop :=
  ∃ bytes, cas.get? d.hash = some bytes ∧ d.sizeBytes = bytes.length

/-- All that a result refers to is in the store, under the sizes that it names. -/
structure Holds (cas : RedbTable) (ar : ActionResult) : Prop where
  all : holdsAll cas ar = true
  stored : ∀ d ∈ directDigests ar, Stored cas d

theorem contains_of_holdsAll {cas : RedbTable} {ar : ActionResult} (h : holdsAll cas ar = true)
    {d : Digest} (hd : d ∈ directDigests ar) : cas.contains d.hash = true := by
  obtain ⟨raw, hraw, hof⟩ := mem_directDigests.1 hd
  have hheld := List.all_eq_true.1 h raw hraw
  rwa [hof] at hheld

theorem holds_of_sized {cas : RedbTable} {ar : ActionResult} (h : holdsAll cas ar = true)
    (hsized : ∀ d ∈ directDigests ar, sized cas d = true) : Holds cas ar := by
  refine ⟨h, fun d hd => ?_⟩
  obtain ⟨bytes, hbytes⟩ := Option.isSome_iff_exists.1 (contains_of_holdsAll h hd)
  have hsize := hsized d hd
  rw [sized, hbytes] at hsize
  exact ⟨bytes, hbytes, of_decide_eq_true hsize⟩

theorem Holds.of_kept {cas cas' : RedbTable} {ar : ActionResult} (h : Holds cas ar)
    (hkept : ∀ d ∈ directDigests ar, Stored cas d → Stored cas' d) : Holds cas' ar := by
  refine ⟨List.all_eq_true.2 fun raw hraw => ?_, fun d hd => hkept d hd (h.stored d hd)⟩
  have hheld := List.all_eq_true.1 h.all raw hraw
  cases hof : Digest.ofRaw raw with
  | error =>
    rw [hof] at hheld
    cases hheld
  | ok d =>
    have hd := mem_directDigests.2 ⟨raw, hraw, hof⟩
    obtain ⟨bytes, hbytes, -⟩ := hkept d hd (h.stored d hd)
    exact Option.isSome_iff_exists.2 ⟨bytes, hbytes⟩

/-! ## The plan of a collection -/

/-- What a collection would do. -/
structure GcPlan where
  reachable : OrdSet Digest
  unreachable : List Digest
  localCount : ℕ

/-- The digests that the listed results name. -/
def reachableFrom (entries : List (Digest × ActionResult)) : OrdSet Digest :=
  OrdSet.ofList (entries.flatMap fun entry => directDigests entry.2)

/-- The plan, from what is reachable and what is held. -/
def planOf (reachable : OrdSet Digest) (held : List Digest) : GcPlan where
  reachable := reachable
  unreachable := held.filter fun d => decide (d ∉ reachable)
  localCount := held.length

end Brokkr.Blobs
