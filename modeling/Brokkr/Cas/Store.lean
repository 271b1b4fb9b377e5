import Brokkr.Common

/-!
# Content-addressable stores

The `Cas` trait of `brokkr-cas` (`traits.rs`) and its two local backends
(`in_memory.rs`, `redb_backend.rs`).

* `Cas` — a backend with states in `S`; `list_digests`, `delete_blob` and `stats`
  have the bodies that a backend inherits when it does not give its own.
* `inMemoryCas` — blobs by digest.
* `redbCas` — blobs by the hash of their digest; sizes are rebuilt from the blobs.
* `backends_agree` — the two give the same answers, and every read returns bytes
  that verify, as long as no call names a stored hash with another size.
* `read_of_other_size` — what happens to a call that does.
-/

namespace Brokkr.Blobs

open OrdMap

open List

/-- The bytes of a blob. -/
abbrev Bytes := List UInt8

/-! ## The trait -/

/-- Why a call on a store failed. -/
inductive CasError where
  | notFound (digest : Digest)
  | digest (error : DigestError)
  | io (reason : String)
  | redb (reason : String)
  | other (reason : String)
  | throughputLimit (limit : ℕ)
  | notLeader (leader leaderAddr : Option String)
  deriving DecidableEq

/-- `{:?}` of an optional string. -/
def debugOption : Option String → String
  | some s => "Some(" ++ s.quote ++ ")"
  | none => "None"

/-- The text of an error. -/
def CasError.toString : CasError → String
  | .notFound d => "blob not found: " ++ d.hash ++ "/" ++ ToString.toString d.sizeBytes
  | .digest error => error.toString
  | .io reason => reason
  | .redb reason => "redb error: " ++ reason
  | .other reason => reason
  | .throughputLimit limit =>
    "concurrent request limit exceeded (limit = " ++ ToString.toString limit ++ ")"
  | .notLeader leader leaderAddr =>
    "not the metadata leader (leader hint: " ++ debugOption leader ++ " at " ++
      debugOption leaderAddr ++ ")"

/-- The result of writing one blob of a batch. -/
structure UpdateResult where
  digest : Digest
  status : Except String Unit
  deriving DecidableEq

/-- The size of a store. -/
structure CasStats where
  objects : ℕ
  bytes : ℕ
  deriving DecidableEq

/-- A content-addressable store with states in `S`. -/
structure Cas (S : Type) where
  findMissingBlobs : S → List Digest → Except CasError (List Digest) × S
  batchUpdateBlobs : S → List (Digest × Bytes) → Except CasError (List UpdateResult) × S
  batchReadBlobs : S → List Digest → Except CasError (List (Except CasError Bytes)) × S
  listDigests : S → Except CasError (List Digest) × S := fun s => (.ok [], s)
  deleteBlob : S → Digest → Except CasError Unit × S := fun s _ => (.ok (), s)
  stats : S → Except CasError CasStats × S := fun s =>
    match listDigests s with
    | (.error e, s) => (.error e, s)
    | (.ok digests, s) => (.ok ⟨digests.length, (digests.map fun d => d.sizeBytes.toNat).sum⟩, s)

/-- A call on a store. -/
inductive CasCall where
  | findMissingBlobs (digests : List Digest)
  | batchUpdateBlobs (blobs : List (Digest × Bytes))
  | batchReadBlobs (digests : List Digest)
  | listDigests
  | deleteBlob (digest : Digest)
  | stats
  deriving DecidableEq

/-- What a call returns. -/
inductive CasAnswer where
  | missing (r : Except CasError (List Digest))
  | updates (r : Except CasError (List UpdateResult))
  | reads (r : Except CasError (List (Except CasError Bytes)))
  | digests (r : Except CasError (List Digest))
  | deleted (r : Except CasError Unit)
  | stats (r : Except CasError CasStats)
  deriving DecidableEq

namespace Cas

variable {S : Type} (C : Cas S)

/-- One call: what it returns, and the state after it. -/
def serve (s : S) : CasCall → CasAnswer × S
  | .findMissingBlobs ds => ((C.findMissingBlobs s ds).map .missing id)
  | .batchUpdateBlobs blobs => ((C.batchUpdateBlobs s blobs).map .updates id)
  | .batchReadBlobs ds => ((C.batchReadBlobs s ds).map .reads id)
  | .listDigests => ((C.listDigests s).map .digests id)
  | .deleteBlob d => ((C.deleteBlob s d).map .deleted id)
  | .stats => ((C.stats s).map .stats id)

/-- The state after a sequence of calls. -/
def after (s : S) (calls : List CasCall) : S := calls.foldl (fun s c => (C.serve s c).2) s

/-- What the calls of a sequence return. -/
def answers (s : S) : List CasCall → List CasAnswer
  | [] => []
  | c :: calls => (C.serve s c).1 :: answers (C.serve s c).2 calls

@[simp] theorem length_answers (s : S) (calls : List CasCall) :
    (C.answers s calls).length = calls.length := by
  induction calls generalizing s with
  | nil => rfl
  | cons c calls ih => rw [answers, length_cons, ih, length_cons]

theorem answers_append (s : S) (pre calls : List CasCall) :
    C.answers s (pre ++ calls) = C.answers s pre ++ C.answers (C.after s pre) calls := by
  induction pre generalizing s with
  | nil => rfl
  | cons c pre ih => exact congrArg _ (ih (C.serve s c).2)

end Cas

/-- The loop of `batch_update_blobs` in both backends: each blob is checked on its
own, and stored when it passes. -/
def updateLoop {S : Type} (store : S → Digest → Bytes → S) :
    S → List (Digest × Bytes) → List UpdateResult × S
  | s, [] => ([], s)
  | s, (digest, bytes) :: blobs =>
    match digest.verify bytes with
    | .ok () =>
      let (results, s) := updateLoop store (store s digest bytes) blobs
      (⟨digest, .ok ()⟩ :: results, s)
    | .error e =>
      let (results, s) := updateLoop store s blobs
      (⟨digest, .error e.toString⟩ :: results, s)

/-- One entry of a batch read: what was found under a digest. -/
def readEntry (d : Digest) : Option Bytes → Except CasError Bytes
  | some bytes => .ok bytes
  | none => .error (.notFound d)

@[simp] theorem readEntry_some (d : Digest) (b : Bytes) : readEntry d (some b) = .ok b := rfl

@[simp] theorem readEntry_none (d : Digest) : readEntry d none = .error (.notFound d) := rfl

/-! ## The two backends -/

/-- The in-memory store: blobs by digest. -/
abbrev MemStore := OrdMap Digest Bytes

/-- `InMemoryCas`. Its `stats` is the inherited one. -/
def inMemoryCas : Cas MemStore where
  findMissingBlobs blobs ds := (.ok (ds.filter fun d => !blobs.contains d), blobs)
  batchUpdateBlobs blobs batch :=
    let (results, blobs) := updateLoop (fun m d b => m.insert d b) blobs batch
    (.ok results, blobs)
  batchReadBlobs blobs ds := (.ok (ds.map fun d => readEntry d (blobs.get? d)), blobs)
  listDigests blobs := (.ok blobs.keys, blobs)
  deleteBlob blobs d := (.ok (), blobs.erase d)

/-- The table of the redb store: blobs by the hash of their digest. -/
abbrev RedbTable := OrdMap String Bytes

variable {d : Digest} {b : Bytes} {blobs : List (Digest × Bytes)} {m : MemStore} {t : RedbTable}

/-- `RedbCas`. -/
def redbCas : Cas RedbTable where
  findMissingBlobs table ds := (.ok (ds.filter fun d => !table.contains d.hash), table)
  batchUpdateBlobs table batch :=
    let (results, table) := updateLoop (fun t d b => t.insert d.hash b) table batch
    (.ok results, table)
  batchReadBlobs table ds := (.ok (ds.map fun d => readEntry d (table.get? d.hash)), table)
  stats table := (.ok ⟨table.toList.length, (table.toList.map fun e => e.2.length).sum⟩, table)
  listDigests table :=
    (.ok (table.toList.filterMap fun e => (Digest.new e.1 e.2.length).toOption), table)
  deleteBlob table d := (.ok (), table.erase d.hash)

/-! ## What the two hold -/

/-- The two stores hold the same blobs, each under its own digest and its own hash. -/
structure Agree (m : MemStore) (t : RedbTable) : Prop where
  memory : ∀ d b, m.get? d = some b → d = Digest.of b ∧ t.get? d.hash = some b
  table : ∀ h b, t.get? h = some b → (Digest.of b).hash = h ∧ m.get? (Digest.of b) = some b

/-- No blob is stored under the hash of `d` with another size. -/
def Fits (m : MemStore) (d : Digest) : Prop := ∀ e ∈ m.keys, e.hash = d.hash → e = d

instance (m : MemStore) (d : Digest) : Decidable (Fits m d) :=
  inferInstanceAs (Decidable (∀ e ∈ m.keys, e.hash = d.hash → e = d))

theorem agree_empty : Agree ∅ ∅ := ⟨fun _ _ h => (by cases h), fun _ _ h => (by cases h)⟩

namespace Agree

variable {m : MemStore} {t : RedbTable} (h : Agree m t)
include h

theorem get? (hd : Fits m d) : t.get? d.hash = m.get? d := by
  cases ht : t.get? d.hash with
  | some b =>
    obtain ⟨hhash, hm⟩ := h.table _ _ ht
    have heq : Digest.of b = d := hd _ (mem_keys.2 ⟨b, hm⟩) hhash
    rw [← heq, hm]
  | none =>
    cases hm : m.get? d with
    | none => rfl
    | some b =>
      rw [(h.memory d b hm).2] at ht
      cases ht

theorem insert (hd : Fits m (Digest.of b)) :
    Agree (m.insert (Digest.of b) b) (t.insert (Digest.of b).hash b) := by
  constructor
  · intro e c he
    rw [get?_insert] at he
    by_cases hed : e = Digest.of b
    · rw [if_pos hed] at he
      cases he
      rw [hed, get?_insert_self]
      exact ⟨rfl, rfl⟩
    rw [if_neg hed] at he
    have hhash : e.hash ≠ (Digest.of b).hash :=
      fun heq => hed (hd e (mem_keys.2 ⟨c, he⟩) heq)
    rw [get?_insert_of_ne t b hhash]
    exact h.memory e c he
  · intro k c hk
    rw [get?_insert] at hk
    by_cases hkd : k = (Digest.of b).hash
    · rw [if_pos hkd] at hk
      cases hk
      exact ⟨hkd.symm, get?_insert_self _ _ _⟩
    rw [if_neg hkd] at hk
    obtain ⟨hhash, hm⟩ := h.table k c hk
    have hne : Digest.of c ≠ Digest.of b := fun heq => hkd (by rw [← hhash, heq])
    exact ⟨hhash, by rw [get?_insert_of_ne m b hne, hm]⟩

theorem erase (hd : Fits m d) : Agree (m.erase d) (t.erase d.hash) := by
  constructor
  · intro e b he
    obtain ⟨hed, he⟩ := of_get?_erase he
    have hhash : e.hash ≠ d.hash := fun heq => hed (hd e (mem_keys.2 ⟨b, he⟩) heq)
    rw [get?_erase_of_ne t hhash]
    exact h.memory e b he
  intro k b hk
  obtain ⟨hkd, hk⟩ := of_get?_erase hk
  obtain ⟨hhash, hm⟩ := h.table k b hk
  have hne : Digest.of b ≠ d := fun heq => hkd (by rw [← hhash, heq])
  exact ⟨hhash, by rw [get?_erase_of_ne m hne, hm]⟩

theorem perm : (m.toList.map fun e => (e.1.hash, e.2)).Perm t.toList := by
  refine (perm_ext_iff_of_nodup ?_ t.nodup).2 ?_
  · refine List.Nodup.map_on ?_ m.nodup
    rintro ⟨d, b⟩ hd ⟨e, c⟩ he heq
    cases (h.memory d b (get?_eq_some.2 hd)).1
    cases (h.memory e c (get?_eq_some.2 he)).1
    cases (Prod.mk.inj heq).2
    rfl
  rintro ⟨k, b⟩
  rw [mem_map, ← get?_eq_some]
  constructor
  · rintro ⟨⟨d, c⟩, hd, heq⟩
    cases heq
    exact (h.memory d c (get?_eq_some.2 hd)).2
  intro hk
  obtain ⟨hhash, hm⟩ := h.table k b hk
  exact ⟨(Digest.of b, b), get?_eq_some.1 hm, by rw [hhash]⟩

theorem stats_eq : (redbCas.stats t).1 = (inMemoryCas.stats m).1 := by
  have hlen : t.toList.length = m.keys.length := by
    rw [← h.perm.length_eq, length_map, OrdMap.keys, length_map]
  have hsum : (t.toList.map fun e => e.2.length).sum =
      (m.keys.map fun d => d.sizeBytes.toNat).sum := by
    rw [← (h.perm.map _).sum_eq, OrdMap.keys, map_map, map_map]
    refine congrArg List.sum (map_congr_left ?_)
    rintro ⟨d, b⟩ hd
    rw [(h.memory d b (get?_eq_some.2 hd)).1]
    rfl
  show Except.ok _ = Except.ok _
  rw [hlen, hsum]

theorem mem_digests (d : Digest) :
    d ∈ t.toList.filterMap (fun e => (Digest.new e.1 e.2.length).toOption) ↔ d ∈ m.keys := by
  rw [mem_filterMap, OrdMap.mem_keys]
  have hnew : ∀ b : Bytes,
      (Digest.new (Digest.of b).hash b.length).toOption = some (Digest.of b) := by
    intro b
    rw [Digest.new, dif_pos (Digest.of b).length, dif_pos (Digest.of b).hex,
      dif_pos (Int.natCast_nonneg _)]
    rfl
  constructor
  · rintro ⟨⟨k, b⟩, hk, hd⟩
    obtain ⟨hhash, hm⟩ := h.table k b (get?_eq_some.2 hk)
    rw [← hhash, hnew] at hd
    cases hd
    exact ⟨b, hm⟩
  rintro ⟨b, hb⟩
  obtain ⟨hof, ht⟩ := h.memory d b hb
  refine ⟨(d.hash, b), get?_eq_some.1 ht, ?_⟩
  rw [hof]
  exact hnew b

end Agree

/-! ## Calls on the two -/

/-- The blob passes the check of its digest. -/
def Valid (p : Digest × Bytes) : Prop := p.1.verify p.2 = .ok ()

instance (p : Digest × Bytes) : Decidable (Valid p) :=
  inferInstanceAs (Decidable (p.1.verify p.2 = .ok ()))

/-- No digest of the call names a hash that is stored with another size, or that a
valid blob of the same batch has with another size. -/
def CasCall.Plain (m : MemStore) : CasCall → Prop
  | .findMissingBlobs ds => ∀ d ∈ ds, Fits m d
  | .batchReadBlobs ds => ∀ d ∈ ds, Fits m d
  | .deleteBlob d => Fits m d
  | .batchUpdateBlobs blobs => ∀ p ∈ blobs, Valid p → Fits m p.1 ∧
      ∀ q ∈ blobs, Valid q → q.1.hash = p.1.hash → q.1 = p.1
  | .listDigests | .stats => True

instance (m : MemStore) (c : CasCall) : Decidable (c.Plain m) := by
  cases c <;> unfold CasCall.Plain <;> infer_instance

/-- Every call of the sequence is plain in the state it is made in. -/
def Plain (m : MemStore) : List CasCall → Prop
  | [] => True
  | c :: calls => c.Plain m ∧ Plain (inMemoryCas.serve m c).2 calls

instance (calls : List CasCall) : (m : MemStore) → Decidable (Plain m calls) :=
  calls.rec (fun _ => .isTrue trivial) fun c _ ih m =>
    @instDecidableAnd (c.Plain m) _ _ (ih (inMemoryCas.serve m c).2)

/-- The same answer; lists of digests are compared as sets. -/
def CasAnswer.Same : CasAnswer → CasAnswer → Prop
  | .digests (.ok l), .digests (.ok l') => ∀ d, d ∈ l ↔ d ∈ l'
  | a, a' => a = a'

/-- Every read of the call that returned bytes returned bytes of its digest. -/
def ReadsVerify (c : CasCall) (a : CasAnswer) : Prop :=
  ∀ ds rs, c = .batchReadBlobs ds → a = .reads (.ok rs) →
    ∀ d b, (d, Except.ok b) ∈ ds.zip rs → d.verify b = .ok ()

theorem updateLoop_cons_valid {S : Type} {store : S → Digest → Bytes → S} {s : S} :
    updateLoop store s ((Digest.of b, b) :: blobs) =
      (⟨Digest.of b, .ok ()⟩ :: (updateLoop store (store s (Digest.of b) b) blobs).1,
        (updateLoop store (store s (Digest.of b) b) blobs).2) := by
  rw [updateLoop, Digest.verify_eq_ok.2 rfl]

theorem updateLoop_cons_invalid {S : Type} {store : S → Digest → Bytes → S} {s : S}
    {e : DigestError} (h : d.verify b = .error e) :
    updateLoop store s ((d, b) :: blobs) =
      (⟨d, .error e.toString⟩ :: (updateLoop store s blobs).1, (updateLoop store s blobs).2) := by
  rw [updateLoop, h]

theorem fits_insert {e : Digest} (h : Fits m e) (hde : d.hash = e.hash → d = e) :
    Fits (m.insert d b) e := by
  intro k hk
  obtain ⟨c, hc⟩ := mem_keys.1 hk
  rw [get?_insert] at hc
  split at hc
  · rename_i hkd
    rw [hkd]
    exact hde
  · exact h k (mem_keys.2 ⟨c, hc⟩)

theorem updateLoop_agree (h : Agree m t) (hp : (CasCall.batchUpdateBlobs blobs).Plain m) :
    (updateLoop (fun m d b => m.insert d b) m blobs).1 =
        (updateLoop (fun (t : RedbTable) d b => t.insert d.hash b) t blobs).1 ∧
      Agree (updateLoop (fun m d b => m.insert d b) m blobs).2
        (updateLoop (fun (t : RedbTable) d b => t.insert d.hash b) t blobs).2 := by
  induction blobs generalizing m t with
  | nil => exact ⟨rfl, h⟩
  | cons p blobs ih =>
    obtain ⟨d, b⟩ := p
    cases hv : d.verify b with
    | ok =>
      have hd : d = Digest.of b := Digest.verify_eq_ok.1 hv
      subst hd
      obtain ⟨hfits, hbatch⟩ := hp _ mem_cons_self hv
      have hnext : (CasCall.batchUpdateBlobs blobs).Plain (m.insert (Digest.of b) b) := by
        intro q hq hvq
        obtain ⟨hfq, hbq⟩ := hp q (mem_cons_of_mem _ hq) hvq
        refine ⟨fits_insert hfq ?_, fun r hr => hbq r (mem_cons_of_mem _ hr)⟩
        exact hbq _ mem_cons_self hv
      obtain ⟨hres, hagree⟩ := ih (h.insert hfits) hnext
      rw [updateLoop_cons_valid, updateLoop_cons_valid]
      exact ⟨by rw [hres], hagree⟩
    | error =>
      have hnext : (CasCall.batchUpdateBlobs blobs).Plain m := by
        intro q hq hvq
        obtain ⟨hfq, hbq⟩ := hp q (mem_cons_of_mem _ hq) hvq
        exact ⟨hfq, fun r hr => hbq r (mem_cons_of_mem _ hr)⟩
      obtain ⟨hres, hagree⟩ := ih h hnext
      rw [updateLoop_cons_invalid hv, updateLoop_cons_invalid hv]
      exact ⟨by rw [hres], hagree⟩

theorem serve_agree (h : Agree m t) {c : CasCall} (hc : c.Plain m) :
    CasAnswer.Same (inMemoryCas.serve m c).1 (redbCas.serve t c).1 ∧
      Agree (inMemoryCas.serve m c).2 (redbCas.serve t c).2 := by
  cases c with
  | findMissingBlobs ds =>
    refine ⟨?_, h⟩
    have heq : (ds.filter fun d => !m.contains d) = ds.filter fun d => !t.contains d.hash := by
      refine filter_congr fun d hd => ?_
      rw [OrdMap.contains, OrdMap.contains, h.get? (hc d hd)]
    exact congrArg (fun l => CasAnswer.missing (.ok l)) heq
  | batchUpdateBlobs =>
    obtain ⟨hres, hagree⟩ := updateLoop_agree h hc
    refine ⟨?_, hagree⟩
    exact congrArg (fun l => CasAnswer.updates (.ok l)) hres
  | batchReadBlobs ds =>
    refine ⟨?_, h⟩
    have heq : (ds.map fun d => readEntry d (m.get? d)) =
        ds.map fun d => readEntry d (t.get? d.hash) := by
      refine map_congr_left fun d hd => ?_
      rw [h.get? (hc d hd)]
    exact congrArg (fun l => CasAnswer.reads (.ok l)) heq
  | listDigests => exact ⟨fun d => (h.mem_digests d).symm, h⟩
  | deleteBlob => exact ⟨rfl, h.erase hc⟩
  | stats =>
    refine ⟨?_, h⟩
    exact congrArg CasAnswer.stats h.stats_eq.symm

theorem mem_zip_map {α β : Type} {f : α → β} {l : List α} {a : α} {b : β}
    (h : (a, b) ∈ l.zip (l.map f)) : b = f a := by
  induction l with
  | nil => cases h
  | cons c l ih =>
    rw [map_cons, zip_cons_cons, mem_cons] at h
    rcases h with heq | h
    · cases heq
      rfl
    · exact ih h

theorem inMemoryCas_verifies (h : Agree m t) (c : CasCall) :
    ReadsVerify c (inMemoryCas.serve m c).1 := by
  intro ds rs hc ha d b hmem
  subst hc
  cases ha
  have hentry := mem_zip_map hmem
  cases hget : m.get? d with
  | none =>
    rw [hget] at hentry
    cases hentry
  | some =>
    rw [hget] at hentry
    cases hentry
    exact Digest.verify_eq_ok.2 (h.memory d b hget).1

theorem ReadsVerify.of_same {c : CasCall} {a a' : CasAnswer} (h : ReadsVerify c a)
    (hs : CasAnswer.Same a a') : ReadsVerify c a' := by
  intro ds rs hc ha
  subst ha
  have heq : a = .reads (.ok rs) := by
    unfold CasAnswer.Same at hs
    split at hs
    · rename_i hno
      cases hno
    · exact hs
  exact h ds rs hc heq

theorem answers_agree (h : Agree m t) {calls : List CasCall} (hp : Plain m calls) :
    List.Forall₂ CasAnswer.Same (inMemoryCas.answers m calls) (redbCas.answers t calls) ∧
      List.Forall₂ ReadsVerify calls (inMemoryCas.answers m calls) ∧
      List.Forall₂ ReadsVerify calls (redbCas.answers t calls) := by
  induction calls generalizing m t with
  | nil => exact ⟨.nil, .nil, .nil⟩
  | cons c calls ih =>
    obtain ⟨hc, hrest⟩ := hp
    obtain ⟨hsame, hagree⟩ := serve_agree h hc
    obtain ⟨hall, hmem, hredb⟩ := ih hagree hrest
    have hverify := inMemoryCas_verifies h c
    exact ⟨.cons hsame hall, .cons hverify hmem, .cons (hverify.of_same hsame) hredb⟩

/-- The two backends give the same answers to every sequence of plain calls, and the
bytes that a read returns are those of its digest. -/
theorem backends_agree (calls : List CasCall) (h : Plain ∅ calls) :
    List.Forall₂ CasAnswer.Same (inMemoryCas.answers ∅ calls) (redbCas.answers ∅ calls) ∧
      List.Forall₂ ReadsVerify calls (inMemoryCas.answers ∅ calls) ∧
      List.Forall₂ ReadsVerify calls (redbCas.answers ∅ calls) :=
  answers_agree agree_empty h

namespace Sample

/-- The digest of the empty blob. -/
def emptyDigest : Digest := Digest.of []

/-- The hash of the empty blob, with another size. -/
def otherSize : Digest := { emptyDigest with sizeBytes := 1, nonneg := by decide }

/-- Writes, one of them refused, and reads of what is there and what is not. -/
def plainCalls : List CasCall :=
  [.batchUpdateBlobs [(emptyDigest, []), (emptyDigest, [1])],
    .batchUpdateBlobs [(Digest.of [7], [7])],
    .findMissingBlobs [emptyDigest, Digest.of [8]], .deleteBlob emptyDigest, .listDigests, .stats,
    .batchReadBlobs [Digest.of [7], emptyDigest]]

end Sample

open Sample

theorem backends_agree_sample :
    List.Forall₂ CasAnswer.Same (inMemoryCas.answers ∅ plainCalls)
      (redbCas.answers ∅ plainCalls) :=
  (backends_agree plainCalls (by decide +kernel)).1

/-- The empty blob is stored, and then its hash is read with the size 1: the in-memory
store does not find it, the redb store returns the empty blob, which does not verify. -/
theorem read_of_other_size :
    (inMemoryCas.answers ∅ [.batchUpdateBlobs [(emptyDigest, [])],
        .batchReadBlobs [otherSize]])[1]? =
        some (.reads (.ok [.error (.notFound otherSize)])) ∧
      (redbCas.answers ∅ [.batchUpdateBlobs [(emptyDigest, [])],
        .batchReadBlobs [otherSize]])[1]? = some (.reads (.ok [.ok []])) ∧
      otherSize.verify [] = .error (.sizeMismatch 1 0) := by
  decide +kernel

end Brokkr.Blobs
