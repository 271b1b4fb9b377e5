import Brokkr.Lib.WordSet
import Brokkr.Cas.Store

/-!
# A filter in front of a store

`Bloom` (`bloom.rs`) remembers digests in a few bits each, and `BloomCas` (`bloom_cas.rs`)
asks it before it asks the store: a digest that the filter does not know is reported
missing without a look at the store.

* `Bloom` — the filter; `Bloom.contains_insert_self`, `Bloom.contains_insert` — it knows
  what was inserted.
* `BloomSystem.step` — calls on clones of one decorated store, one step of one call after
  another, with listings of the store, rebuilds from them, and changes of the store by
  others.
* `Known` — what holds of a digest on its way through an update: the filter knows it, or
  is about to; and so does the listing for the next rebuild, or it was inserted since.
* `forgotten` — an update between a listing and the rebuild from it is forgotten.
-/

namespace Brokkr.Blobs

open List

/-! ## The filter -/

/-- The value of a hexadecimal digit. -/
def hexDigit? (c : Char) : Option ℕ :=
  if '0' ≤ c ∧ c ≤ '9' then some (c.toNat - '0'.toNat)
  else if 'a' ≤ c ∧ c ≤ 'f' then some (c.toNat - 'a'.toNat + 10)
  else if 'A' ≤ c ∧ c ≤ 'F' then some (c.toNat - 'A'.toNat + 10)
  else none

/-- A number in hexadecimal. -/
def fromHex? (digits : List Char) : Option ℕ :=
  digits.foldl (fun n c => do return 16 * (← n) + (← hexDigit? c)) (some 0)

/-- Two words of the hash of a digest. -/
def derivePair (d : Digest) : BitVec 64 × BitVec 64 :=
  let hex := d.hash.toList
  let half := fun digits => BitVec.ofNat 64 ((fromHex? digits).getD 0)
  (half (hex.take 16), half ((hex.drop 16).take 16))

/-- A filter over digests. -/
structure Bloom where
  bits : List (BitVec 64)
  k : ℕ
  items : ℕ
  ne_nil : bits ≠ []

namespace Bloom

/-- An empty filter. -/
def new (words k : ℕ) (h : 0 < words) : Bloom where
  bits := List.replicate words 0#64
  k := k
  items := 0
  ne_nil := by simpa using h.ne'

/-- The number of bits. -/
def bitLen (b : Bloom) : ℕ := b.bits.length * 64

/-- One of the bits of a digest. -/
def bitIndex (b : Bloom) (h1 h2 : BitVec 64) (i : ℕ) : ℕ :=
  (h1 + BitVec.ofNat 64 i * h2).toNat % b.bitLen

/-- The bits of a digest. -/
def bitsOf (b : Bloom) (d : Digest) : List ℕ :=
  (List.range b.k).map (b.bitIndex (derivePair d).1 (derivePair d).2)

/-- Record a digest. -/
def insert (b : Bloom) (d : Digest) : Bloom where
  bits := (b.bitsOf d).foldl WordSet.setBit b.bits
  k := b.k
  items := U64.saturatingAdd b.items 1
  ne_nil := by
    rw [← length_pos_iff, WordSet.length_foldl_setBit, length_pos_iff]
    exact b.ne_nil

/-- Is the digest probably there?  If not, it is definitely absent. -/
def contains (b : Bloom) (d : Digest) : Bool := (b.bitsOf d).all (WordSet.testBit b.bits)

/-- Forget everything. -/
def clear (b : Bloom) : Bloom where
  bits := List.replicate b.bits.length 0#64
  k := b.k
  items := 0
  ne_nil := by simpa using b.ne_nil

/-- Start over with the given digests. -/
def rebuildFrom (b : Bloom) (digests : List Digest) : Bloom := digests.foldl insert b.clear

variable {b : Bloom} {d e : Digest}

theorem div_lt_of_mem_bitsOf {bit : ℕ} (h : bit ∈ b.bitsOf d) : bit / 64 < b.bits.length := by
  obtain ⟨i, -, rfl⟩ := mem_map.1 h
  have hpos : 0 < b.bits.length := length_pos_iff.2 b.ne_nil
  have hlt : b.bitIndex (derivePair d).1 (derivePair d).2 i < b.bits.length * 64 :=
    Nat.mod_lt _ (by simpa [bitLen] using hpos)
  omega

@[simp] theorem bitsOf_insert (b : Bloom) (d e : Digest) : (b.insert e).bitsOf d = b.bitsOf d := by
  have hlen : (b.insert e).bitLen = b.bitLen := by
    rw [bitLen, bitLen, insert, WordSet.length_foldl_setBit]
  refine map_congr_left fun i _ => ?_
  rw [bitIndex, bitIndex, hlen]

theorem contains_insert_self (b : Bloom) (d : Digest) : (b.insert d).contains d = true := by
  rw [contains, bitsOf_insert, all_eq_true]
  intro bit hbit
  exact WordSet.testBit_foldl_setBit hbit (div_lt_of_mem_bitsOf hbit)

theorem contains_insert (h : b.contains d = true) (e : Digest) :
    (b.insert e).contains d = true := by
  rw [contains, all_eq_true] at h
  rw [contains, bitsOf_insert, all_eq_true]
  intro bit hbit
  exact WordSet.testBit_foldl_of_testBit _ (h bit hbit)

theorem contains_foldl_insert_of_contains (h : b.contains d = true) (digests : List Digest) :
    (digests.foldl insert b).contains d = true := by
  induction digests generalizing b with
  | nil => exact h
  | cons e digests ih => exact ih (contains_insert h e)

theorem contains_rebuildFrom (b : Bloom) {digests : List Digest} (h : d ∈ digests) :
    (b.rebuildFrom digests).contains d = true := by
  rw [rebuildFrom]
  generalize b.clear = b'
  induction digests generalizing b' with
  | nil => cases h
  | cons e digests ih =>
    rcases mem_cons.1 h with rfl | hmem
    · exact contains_foldl_insert_of_contains (contains_insert_self b' d) digests
    · exact ih hmem (b'.insert e)

end Bloom

/-! ## The decorated store -/

/-- A store with the digests it holds in each state: what it reports missing it does not
hold, and a listing has all that it holds. -/
structure Backend (S : Type) where
  cas : Cas S
  holds : S → Digest → Bool
  find_sound : ∀ s ds missing, (cas.findMissingBlobs s ds).1 = .ok missing →
    ∀ d ∈ missing, holds s d = false
  list_complete : ∀ s ds, (cas.listDigests s).1 = .ok ds → ∀ d, holds s d = true → d ∈ ds

/-- The digests that were stored. -/
def okDigests (results : List UpdateResult) : List Digest :=
  (results.filter fun r => r.status.isOk).map UpdateResult.digest

theorem okDigests_cons (r : UpdateResult) (results : List UpdateResult) :
    okDigests (r :: results) =
      if r.status.isOk then r.digest :: okDigests results else okDigests results := by
  cases h : r.status.isOk <;> simp [okDigests, h]

/-- A call on a clone, between two of its steps. -/
inductive BloomCall where
  | updating (blobs : List (Digest × Bytes))
  | inserting (todo results : List UpdateResult) (kept : List Digest)
  | finding (todo missing maybe owed : List Digest)

/-- Forget obligations for digests that the store does not hold any more. -/
def BloomCall.keep (held : Digest → Bool) : BloomCall → BloomCall
  | .updating blobs => .updating blobs
  | .inserting todo results kept => .inserting todo results (kept.filter held)
  | .finding todo missing maybe owed => .finding todo missing maybe (owed.filter held)

/-- What a call returned; for a search, with the digests that it must not report. -/
inductive BloomAnswer where
  | updated (r : Except CasError (List UpdateResult))
  | found (owed : List Digest) (r : Except CasError (List Digest))
  deriving DecidableEq

/-- No digest is reported that must not be. -/
def BloomAnswer.Clean : BloomAnswer → Prop
  | .updated _ => True
  | .found _ (.error _) => True
  | .found owed (.ok missing) => ∀ d ∈ owed, d ∉ missing

/-- Clones of a decorated store, with the calls on them.  The last three fields are kept
for the statements. -/
structure BloomSystem (S : Type) where
  backend : S
  bloom : Bloom
  calls : ℕ → Option BloomCall
  listing : Option (List Digest)
  since : List Digest
  acked : List Digest
  answers : List BloomAnswer

/-- One step. -/
inductive BloomEvent (S : Type) where
  | update (id : ℕ) (blobs : List (Digest × Bytes))
  | find (id : ℕ) (digests : List Digest)
  | proceed (id : ℕ)
  | list
  | rebuild
  | other (s : S)

namespace BloomSystem

variable {S : Type} (B : Backend S)

/-- A new decorator in front of a store. -/
def start (s : S) (bloom : Bloom) : BloomSystem S where
  backend := s
  bloom := bloom
  calls := fun _ => none
  listing := none
  since := []
  acked := []
  answers := []

/-- The store has changed. -/
def setBackend (sys : BloomSystem S) (s : S) : BloomSystem S :=
  { sys with
    backend := s
    calls := fun id => (sys.calls id).map (BloomCall.keep (B.holds s))
    acked := sys.acked.filter (B.holds s) }

/-- Replace a call. -/
def setCall (sys : BloomSystem S) (id : ℕ) (call : Option BloomCall) : BloomSystem S :=
  { sys with calls := Function.update sys.calls id call }

/-- A call returns. -/
def answer (sys : BloomSystem S) (id : ℕ) (a : BloomAnswer) : BloomSystem S :=
  { sys.setCall id none with answers := a :: sys.answers }

/-- An update asks the store. -/
def store (sys : BloomSystem S) (id : ℕ) (blobs : List (Digest × Bytes)) : BloomSystem S :=
  match B.cas.batchUpdateBlobs sys.backend blobs with
  | (.error e, s) => (sys.setBackend B s).answer id (.updated (.error e))
  | (.ok results, s) =>
    (sys.setBackend B s).setCall id
      (some (.inserting results results ((okDigests results).filter (B.holds s))))

/-- An update inserts the next digest that was stored, or returns. -/
def insertNext (sys : BloomSystem S) (id : ℕ) (results : List UpdateResult) (kept : List Digest) :
    List UpdateResult → BloomSystem S
  | [] => { sys.answer id (.updated (.ok results)) with acked := kept ++ sys.acked }
  | r :: todo =>
    let sys := sys.setCall id (some (.inserting todo results kept))
    if r.status.isOk then
      { sys with bloom := sys.bloom.insert r.digest, since := r.digest :: sys.since }
    else sys

/-- A search looks up the next digest in the filter, or asks the store and returns. -/
def findNext (sys : BloomSystem S) (id : ℕ) (missing maybe owed : List Digest) :
    List Digest → BloomSystem S
  | d :: todo =>
    if sys.bloom.contains d then
      sys.setCall id (some (.finding todo missing (maybe ++ [d]) owed))
    else sys.setCall id (some (.finding todo (missing ++ [d]) maybe owed))
  | [] =>
    if maybe.isEmpty then sys.answer id (.found owed (.ok missing))
    else
      match B.cas.findMissingBlobs sys.backend maybe with
      | (.error e, s) => (sys.setBackend B s).answer id (.found owed (.error e))
      | (.ok backendMissing, s) =>
        (sys.setBackend B s).answer id (.found owed (.ok (missing ++ backendMissing)))

/-- The next step of a call. -/
def proceed (sys : BloomSystem S) (id : ℕ) : BloomSystem S :=
  match sys.calls id with
  | none => sys
  | some (.updating blobs) => sys.store B id blobs
  | some (.inserting todo results kept) => sys.insertNext id results kept todo
  | some (.finding todo missing maybe owed) => sys.findNext B id missing maybe owed todo

/-- List the store. -/
def list (sys : BloomSystem S) : BloomSystem S :=
  match B.cas.listDigests sys.backend with
  | (.error _, s) => sys.setBackend B s
  | (.ok digests, s) => { sys.setBackend B s with listing := some digests, since := [] }

/-- Rebuild the filter from the listing that was taken since the last rebuild. -/
def rebuild (sys : BloomSystem S) : BloomSystem S :=
  match sys.listing with
  | none => sys
  | some digests =>
    { sys with bloom := sys.bloom.rebuildFrom digests, listing := none, since := [] }

/-- One step. -/
def step (sys : BloomSystem S) : BloomEvent S → BloomSystem S
  | .update id blobs =>
    if (sys.calls id).isSome then sys else sys.setCall id (some (.updating blobs))
  | .find id digests =>
    if (sys.calls id).isSome then sys
    else sys.setCall id (some (.finding digests [] [] sys.acked))
  | .proceed id => sys.proceed B id
  | .list => sys.list B
  | .rebuild => sys.rebuild
  | .other s => sys.setBackend B s

/-- Steps one after the other. -/
def after (sys : BloomSystem S) (events : List (BloomEvent S)) : BloomSystem S :=
  events.foldl (step B) sys

/-- What updates inserted since the listing, and the store still holds, is in the listing. -/
def Covers (sys : BloomSystem S) : Prop :=
  ∀ digests, sys.listing = some digests →
    ∀ d ∈ sys.since, B.holds sys.backend d = true → d ∈ digests

/-- So it is at every rebuild of a run. -/
def CoversAll (sys : BloomSystem S) : List (BloomEvent S) → Prop
  | [] => True
  | .rebuild :: events => sys.Covers B ∧ (sys.step B .rebuild).CoversAll events
  | event :: events => (sys.step B event).CoversAll events

end BloomSystem

/-! ## What the filter knows -/

section Known

variable {S : Type} {B : Backend S} {sys : BloomSystem S} {todo : List Digest} {d : Digest}

/-- A digest that an update stored, while some digests are still to be inserted. -/
structure Known (B : Backend S) (sys : BloomSystem S) (todo : List Digest) (d : Digest) :
    Prop where
  held : B.holds sys.backend d = true
  inFilter : sys.bloom.contains d = true ∨ d ∈ todo
  listed : ∀ digests, sys.listing = some digests → d ∈ digests ∨ d ∈ sys.since ∨ d ∈ todo

theorem Known.setBackend (h : Known B sys todo d) {s : S} (hd : B.holds s d = true) :
    Known B (sys.setBackend B s) todo d :=
  ⟨hd, h.inFilter, h.listed⟩

theorem Known.list (h : Known B sys todo d) {digests : List Digest} {s : S}
    (hlist : B.cas.listDigests sys.backend = (.ok digests, s)) (hd : B.holds s d = true) :
    Known B { sys.setBackend B s with listing := some digests, since := [] } todo d := by
  refine ⟨hd, h.inFilter, fun digests' heq => Or.inl ?_⟩
  cases heq
  exact B.list_complete _ _ (congrArg Prod.fst hlist) d h.held

theorem Known.rebuild (h : Known B sys todo d) (hcovers : sys.Covers B) {digests : List Digest}
    (hlisting : sys.listing = some digests) :
    Known B { sys with bloom := sys.bloom.rebuildFrom digests, listing := none, since := [] }
      todo d := by
  refine ⟨h.held, ?_, nofun⟩
  rcases h.listed digests hlisting with hmem | hsince | htodo
  · exact .inl (sys.bloom.contains_rebuildFrom hmem)
  · exact .inl (sys.bloom.contains_rebuildFrom (hcovers digests hlisting d hsince h.held))
  · exact .inr htodo

theorem Known.insert {e : Digest} (h : Known B sys (e :: todo) d) :
    Known B { sys with bloom := sys.bloom.insert e, since := e :: sys.since } todo d := by
  refine ⟨h.held, ?_, fun digests hlisting => ?_⟩
  · rcases h.inFilter with hin | hmem
    · exact .inl (Bloom.contains_insert hin e)
    · rcases mem_cons.1 hmem with rfl | htodo
      · exact .inl (sys.bloom.contains_insert_self d)
      · exact .inr htodo
  rcases h.listed digests hlisting with hmem | hsince | hmem
  · exact .inl hmem
  · exact .inr (.inl (mem_cons_of_mem _ hsince))
  rcases mem_cons.1 hmem with rfl | htodo
  · exact .inr (.inl mem_cons_self)
  · exact .inr (.inr htodo)

theorem Known.mono (h : Known B sys todo d) {todo' : List Digest} (hsub : ∀ e ∈ todo, e ∈ todo') :
    Known B sys todo' d :=
  ⟨h.held, h.inFilter.imp_right (hsub d),
    fun digests hlisting => (h.listed digests hlisting).imp_right (Or.imp_right (hsub d))⟩

theorem Known.ofFields (h : Known B sys todo d) {sys' : BloomSystem S}
    (hbackend : sys'.backend = sys.backend) (hbloom : sys'.bloom = sys.bloom)
    (hlisting : sys'.listing = sys.listing) (hsince : sys'.since = sys.since) :
    Known B sys' todo d := by
  refine ⟨?_, ?_, ?_⟩
  · rw [hbackend]
    exact h.held
  · rw [hbloom]
    exact h.inFilter
  · rw [hlisting, hsince]
    exact h.listed

theorem Known.setCall (h : Known B sys todo d) (id : ℕ) (call : Option BloomCall) :
    Known B (sys.setCall id call) todo d :=
  h.ofFields rfl rfl rfl rfl

end Known

/-- The obligations of a call are met. -/
def BloomCall.Meets {S : Type} (B : Backend S) (sys : BloomSystem S) : BloomCall → Prop
  | .updating _ => True
  | .inserting todo _ kept => ∀ d ∈ kept, Known B sys (okDigests todo) d
  | .finding _ missing _ owed => ∀ d ∈ owed, d ∈ sys.acked ∧ d ∉ missing

theorem BloomCall.Meets.of_known {S : Type} {B : Backend S} {sys sys' : BloomSystem S}
    {call : BloomCall} (h : call.Meets B sys)
    (hknown : ∀ todo d, Known B sys todo d → Known B sys' todo d)
    (hacked : ∀ d ∈ sys.acked, d ∈ sys'.acked) : call.Meets B sys' := by
  cases call with
  | updating => trivial
  | inserting => exact fun d hd => hknown _ d (h d hd)
  | finding => exact fun d hd => ⟨hacked d (h d hd).1, (h d hd).2⟩

/-- The filter knows every digest whose update has returned, calls meet their obligations,
and so did those that have returned. -/
structure Faithful {S : Type} (B : Backend S) (sys : BloomSystem S) : Prop where
  acked : ∀ d ∈ sys.acked, Known B sys [] d
  calls : ∀ id call, sys.calls id = some call → call.Meets B sys
  answers : ∀ a ∈ sys.answers, a.Clean

namespace Faithful

variable {S : Type} {B : Backend S} {sys : BloomSystem S}

theorem start (B : Backend S) (s : S) (bloom : Bloom) : Faithful B (.start s bloom) :=
  ⟨nofun, nofun, nofun⟩

variable (h : Faithful B sys)

include h

theorem of_known {sys' : BloomSystem S} {held : Digest → Bool}
    (hacked : sys'.acked = sys.acked.filter held)
    (hcalls : ∀ id, sys'.calls id = (sys.calls id).map (BloomCall.keep held))
    (hanswers : sys'.answers = sys.answers)
    (hknown : ∀ todo d, held d = true → Known B sys todo d → Known B sys' todo d) :
    Faithful B sys' where
  acked d hd := by
    rw [hacked] at hd
    obtain ⟨hmem, hheld⟩ := mem_filter.1 hd
    exact hknown [] d hheld (h.acked d hmem)
  calls id call hcall := by
    rw [hcalls id] at hcall
    obtain ⟨call', hcall', rfl⟩ := Option.map_eq_some_iff.1 hcall
    have hmeets := h.calls id call' hcall'
    cases call' with
    | updating => trivial
    | inserting =>
      intro d hd
      obtain ⟨hmem, hheld⟩ := mem_filter.1 hd
      exact hknown _ d hheld (hmeets d hmem)
    | finding =>
      intro d hd
      obtain ⟨hmem, hheld⟩ := mem_filter.1 hd
      obtain ⟨hacked', hmissing⟩ := hmeets d hmem
      refine ⟨?_, hmissing⟩
      rw [hacked]
      exact mem_filter.2 ⟨hacked', hheld⟩
  answers a ha := h.answers a (hanswers ▸ ha)

theorem of_known_all {sys' : BloomSystem S} (hacked : sys'.acked = sys.acked)
    (hcalls : sys'.calls = sys.calls) (hanswers : sys'.answers = sys.answers)
    (hknown : ∀ todo d, Known B sys todo d → Known B sys' todo d) : Faithful B sys' where
  acked d hd := hknown [] d (h.acked d (hacked ▸ hd))
  calls id call hcall := by
    rw [hcalls] at hcall
    exact (h.calls id call hcall).of_known hknown fun d hd => hacked ▸ hd
  answers a ha := h.answers a (hanswers ▸ ha)

theorem setBackend (s : S) : Faithful B (sys.setBackend B s) :=
  h.of_known rfl (fun _ => rfl) rfl fun _ _ hd hknown => hknown.setBackend hd

theorem list : Faithful B (sys.list B) := by
  rw [BloomSystem.list]
  split
  · exact h.setBackend _
  · rename_i digests s hlist
    exact h.of_known rfl (fun _ => rfl) rfl fun _ _ hd hknown => hknown.list hlist hd

theorem rebuild (hcovers : sys.Covers B) : Faithful B sys.rebuild := by
  rw [BloomSystem.rebuild]
  split
  · exact h
  · rename_i digests hlisting
    exact h.of_known_all rfl rfl rfl fun _ _ hknown => hknown.rebuild hcovers hlisting

variable (id : ℕ)

theorem setCall {call : Option BloomCall}
    (hcall : ∀ c, call = some c → c.Meets B sys) : Faithful B (sys.setCall id call) where
  acked d hd := (h.acked d hd).setCall id call
  calls id' c hc := by
    refine BloomCall.Meets.of_known ?_ (fun _ _ hknown => hknown.setCall id call) fun _ hd => hd
    by_cases hid : id' = id
    · subst hid
      exact hcall c (by simpa [BloomSystem.setCall] using hc)
    · exact h.calls id' c (by simpa [BloomSystem.setCall, hid] using hc)
  answers := h.answers

theorem ack {kept : List Digest} (hkept : ∀ d ∈ kept, Known B sys [] d) :
    Faithful B { sys with acked := kept ++ sys.acked } where
  acked d hd := ((mem_append.1 hd).elim (hkept d) (h.acked d)).ofFields rfl rfl rfl rfl
  calls id c hc := (h.calls id c hc).of_known (fun _ _ hknown => hknown.ofFields rfl rfl rfl rfl)
    fun _ hd => mem_append_right _ hd
  answers := h.answers

theorem answer {a : BloomAnswer} (ha : a.Clean) :
    Faithful B (sys.answer id a) := by
  have hcall : Faithful B (sys.setCall id none) := h.setCall id fun _ hc => nomatch hc
  refine ⟨fun d hd => (hcall.acked d hd).ofFields rfl rfl rfl rfl, fun id' c hc => ?_, ?_⟩
  · exact (hcall.calls id' c hc).of_known (fun _ _ hknown => hknown.ofFields rfl rfl rfl rfl)
      fun _ hd => hd
  intro a' ha'
  rcases mem_cons.1 ha' with rfl | hmem
  · exact ha
  · exact h.answers a' hmem

theorem store (blobs : List (Digest × Bytes)) :
    Faithful B (sys.store B id blobs) := by
  rw [BloomSystem.store]
  split
  · exact (h.setBackend _).answer id trivial
  refine (h.setBackend _).setCall id ?_
  rintro c ⟨⟩ d hd
  obtain ⟨hmem, hheld⟩ := mem_filter.1 hd
  exact ⟨hheld, Or.inr hmem, fun _ _ => Or.inr (.inr hmem)⟩

theorem insertNext {todo results : List UpdateResult}
    {kept : List Digest} (hkept : ∀ d ∈ kept, Known B sys (okDigests todo) d) :
    Faithful B (sys.insertNext id results kept todo) := by
  cases todo with
  | nil => exact (h.ack hkept).answer id trivial
  | cons r =>
    rw [BloomSystem.insertNext]
    cases hr : r.status.isOk with
    | false =>
      refine h.setCall id ?_
      rintro c ⟨⟩ d hd
      exact (hkept d hd).mono (by simp [okDigests_cons, hr])
    | true =>
      have hinsert : Faithful B
          { sys with bloom := sys.bloom.insert r.digest, since := r.digest :: sys.since } :=
        h.of_known_all rfl rfl rfl fun _ _ hknown =>
          (hknown.mono fun e he => mem_cons_of_mem _ he).insert
      refine hinsert.setCall id ?_
      rintro c ⟨⟩ d hd
      refine Known.insert ((hkept d hd).mono ?_)
      simp [okDigests_cons, hr]

theorem findNext {todo missing maybe owed : List Digest}
    (howed : ∀ d ∈ owed, d ∈ sys.acked ∧ d ∉ missing) :
    Faithful B (sys.findNext B id missing maybe owed todo) := by
  cases todo with
  | cons =>
    rw [BloomSystem.findNext]
    split
    · refine h.setCall id ?_
      rintro c ⟨⟩
      exact howed
    rename_i hunknown
    refine h.setCall id ?_
    rintro c ⟨⟩ d hd
    refine ⟨(howed d hd).1, fun hmem => ?_⟩
    rcases mem_append.1 hmem with hmissing | he
    · exact (howed d hd).2 hmissing
    rw [← mem_singleton.1 he] at hunknown
    rcases (h.acked d (howed d hd).1).inFilter with hin | htodo
    · exact hunknown hin
    · cases htodo
  | nil =>
    rw [BloomSystem.findNext]
    split
    · exact h.answer id fun d hd => (howed d hd).2
    split
    · exact (h.setBackend _).answer id trivial
    rename_i backendMissing s hfind
    refine (h.setBackend s).answer id fun d hd hmem => ?_
    rcases mem_append.1 hmem with hmissing | hbackend
    · exact (howed d hd).2 hmissing
    have hgone := B.find_sound _ _ _ (congrArg Prod.fst hfind) d hbackend
    have hheld := (h.acked d (howed d hd).1).held
    rw [hgone] at hheld
    cases hheld

theorem proceed : Faithful B (sys.proceed B id) := by
  rw [BloomSystem.proceed]
  split
  · exact h
  · exact h.store id _
  · rename_i hcall
    exact h.insertNext id (h.calls id _ hcall)
  · rename_i hcall
    exact h.findNext id (h.calls id _ hcall)

theorem step (event : BloomEvent S)
    (hcovers : event = .rebuild → sys.Covers B) : Faithful B (sys.step B event) := by
  cases event with
  | update id =>
    rw [BloomSystem.step]
    split
    · exact h
    refine h.setCall id ?_
    rintro c ⟨⟩
    trivial
  | find id =>
    rw [BloomSystem.step]
    split
    · exact h
    refine h.setCall id ?_
    rintro c ⟨⟩ d hd
    exact ⟨hd, not_mem_nil⟩
  | proceed id => exact h.proceed id
  | list => exact h.list
  | rebuild => exact h.rebuild (hcovers rfl)
  | other s => exact h.setBackend s

theorem after {events : List (BloomEvent S)}
    (hcovers : sys.CoversAll B events) : Faithful B (sys.after B events) := by
  induction events generalizing sys with
  | nil => exact h
  | cons event events ih =>
    cases event with
    | rebuild => exact ih (h.step .rebuild fun _ => hcovers.1) hcovers.2
    | _ => exact ih (h.step _ nofun) hcovers

end Faithful

/-- No search reports a digest whose update had returned and that the store still holds,
as long as each listing has what was inserted between it and the rebuild. -/
theorem no_false_negative {S : Type} (B : Backend S) (s : S) (bloom : Bloom)
    (events : List (BloomEvent S))
    (hcovers : (BloomSystem.start s bloom).CoversAll B events) (owed missing : List Digest)
    (hfound : BloomAnswer.found owed (.ok missing) ∈
      ((BloomSystem.start s bloom).after B events).answers) :
    ∀ d ∈ owed, d ∉ missing :=
  ((Faithful.start B s bloom).after hcovers).answers _ hfound

/-! ## A store in memory -/

/-- The in-memory store behind a filter. -/
def memBackend : Backend MemStore where
  cas := inMemoryCas
  holds blobs d := blobs.contains d
  find_sound blobs ds missing h d hd := by
    cases h
    simpa using (mem_filter.1 hd).2
  list_complete blobs ds h d hd := by
    cases h
    exact OrdMap.mem_keys.2 (Option.isSome_iff_exists.1 hd)

namespace Sample

/-- A filter of one word. -/
def bloom : Bloom := .new 1 1 Nat.one_pos

/-- An update of one blob. -/
def updateEmpty : List (BloomEvent MemStore) :=
  [.update 0 [(emptyDigest, [])], .proceed 0, .proceed 0, .proceed 0]

/-- A search for it. -/
def findEmpty : List (BloomEvent MemStore) := [.find 1 [emptyDigest], .proceed 1, .proceed 1]

end Sample

open Sample

/-- The store is listed after the update. -/
theorem no_false_negative_sample :
    BloomAnswer.found [emptyDigest] (.ok []) ∈ ((BloomSystem.start ∅ bloom).after memBackend
        (updateEmpty ++ [.list, .rebuild] ++ findEmpty)).answers ∧
    ∀ d ∈ [emptyDigest], d ∉ ([] : List Digest) := by
  have hfound : BloomAnswer.found [emptyDigest] (.ok []) ∈
      ((BloomSystem.start ∅ bloom).after memBackend
        (updateEmpty ++ [.list, .rebuild] ++ findEmpty)).answers := by
    decide +kernel
  refine ⟨hfound, no_false_negative memBackend ∅ bloom _ ?_ _ _ hfound⟩
  refine ⟨fun _ _ d hd => absurd hd not_mem_nil, trivial⟩

/-- The store is listed, an update of a blob returns, and the filter is rebuilt from the
listing: a search reports the blob missing, and the store holds it. -/
theorem forgotten :
    BloomAnswer.found [emptyDigest] (.ok [emptyDigest]) ∈
      ((BloomSystem.start ∅ bloom).after memBackend
        ([.list] ++ updateEmpty ++ [.rebuild] ++ findEmpty)).answers ∧
    memBackend.holds ((BloomSystem.start ∅ bloom).after memBackend
        ([.list] ++ updateEmpty ++ [.rebuild] ++ findEmpty)).backend
      emptyDigest = true := by
  constructor <;> decide +kernel

end Brokkr.Blobs
