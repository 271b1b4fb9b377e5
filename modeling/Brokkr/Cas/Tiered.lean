import Brokkr.Cas.HotTier

/-!
# A hot tier in front of a store

`TieredCas` (`tiered.rs`): an in-memory LRU of bounded size in front of a warm store.

* `tieredCas` — the store. It gives its own `find_missing_blobs`,
  `batch_update_blobs` and `batch_read_blobs` and inherits the rest.
* `Keeps` — a warm store that keeps what it is given, under a key of the digest: the
  in-memory store by the digest itself, the redb store by its hash.
* `Under` — what the hot tier holds is in the warm store.
* `tiering_transparent` — the answers are those of the warm store as long as the
  calls that are inherited have nothing to answer; `tiering_hides_blobs` — what
  happens otherwise.
-/

namespace Brokkr.Blobs

open OrdMap

open Function

open List

variable {κ : Type} [DecidableEq κ] {key : Digest → κ} {d : Digest} {hot : HotTier}
  {calls : List CasCall}

/-! ## The store -/

/-- The loop of `batch_update_blobs` over the results: what was stored becomes hot. -/
def promoteLoop (hot : HotTier) (pairs : List (UpdateResult × (Digest × Bytes))) : HotTier :=
  pairs.foldl (fun hot p =>
    match p.1.status with
    | .ok _ => hot.put p.2.1 p.2.2
    | .error _ => hot) hot

/-- The first pass of `batch_read_blobs`: what the hot tier has, and the indices and
digests that are left to fetch. -/
def hotPass : ℕ → HotTier → List Digest →
    List (Option (Except CasError Bytes)) × List (ℕ × Digest) × HotTier
  | _, hot, [] => ([], [], hot)
  | i, hot, d :: ds =>
    match hot.get d with
    | (some b, hot) =>
      let (out, toFetch, hot) := hotPass (i + 1) hot ds
      (some (.ok b) :: out, toFetch, hot)
    | (none, hot) =>
      let (out, toFetch, hot) := hotPass (i + 1) hot ds
      (none :: out, (i, d) :: toFetch, hot)

/-- The warm pass: fetched blobs become hot, every fetched result goes to its index. -/
def warmPass : List (Option (Except CasError Bytes)) → HotTier →
    List ((ℕ × Digest) × Except CasError Bytes) →
    List (Option (Except CasError Bytes)) × HotTier
  | out, hot, [] => (out, hot)
  | out, hot, ((i, d), res) :: rest =>
    match res with
    | .ok bytes => warmPass (out.set i (some res)) (hot.put d bytes) rest
    | .error _ => warmPass (out.set i (some res)) hot rest

/-- `TieredCas`. `list_digests`, `delete_blob` and `stats` are the inherited ones. -/
def tieredCas {S : Type} (warm : Cas S) : Cas (S × HotTier) where
  findMissingBlobs s ds :=
    let (r, w) := warm.findMissingBlobs s.1 ds
    (r, (w, s.2))
  batchUpdateBlobs s blobs :=
    match warm.batchUpdateBlobs s.1 blobs with
    | (.error e, w) => (.error e, (w, s.2))
    | (.ok results, w) => (.ok results, (w, promoteLoop s.2 (results.zip blobs)))
  batchReadBlobs s ds :=
    let (out, toFetch, hot) := hotPass 0 s.2 ds
    if toFetch.isEmpty then (.ok (out.filterMap id), (s.1, hot))
    else
      match warm.batchReadBlobs s.1 (toFetch.map Prod.snd) with
      | (.error e, w) => (.error e, (w, hot))
      | (.ok results, w) =>
        let (out, hot) := warmPass out hot (toFetch.zip results)
        (.ok (out.filterMap id), (w, hot))

/-! ## Stores that keep what they are given -/

/-- What a batch of updates leaves under each key: the last blob stored there. -/
def written (key : Digest → κ) (held : κ → Option Bytes)
    (pairs : List (UpdateResult × (Digest × Bytes))) : κ → Option Bytes :=
  pairs.foldl (fun f p =>
    match p.1.status with
    | .ok _ => update f (key p.2.1) (some p.2.2)
    | .error _ => f) held

/-- A store that keeps what it is given under a key of the digest: `held` says what a state
has under each key. Reads answer each digest on its own and leave the state alone, and what
is held under a key changes only when a digest with this key is stored. -/
structure Keeps {S : Type} (C : Cas S) (key : Digest → κ) (held : S → κ → Option Bytes) :
    Prop where
  read : ∀ s ds, C.batchReadBlobs s ds = (.ok (ds.map fun d => readEntry d (held s (key d))), s)
  findMissing : ∀ s ds, held (C.findMissingBlobs s ds).2 = held s
  updateError : ∀ s blobs e s', C.batchUpdateBlobs s blobs = (.error e, s') → held s' = held s
  updateOk : ∀ s blobs results s', C.batchUpdateBlobs s blobs = (.ok results, s') →
    held s' = written key (held s) (results.zip blobs)
  listEmpty : ∀ s, (∀ k, held s k = none) → C.listDigests s = (.ok [], s)
  statsEmpty : ∀ s, (∀ k, held s k = none) → C.stats s = (.ok ⟨0, 0⟩, s)
  deleteAbsent : ∀ s d, held s (key d) = none → C.deleteBlob s d = (.ok (), s)

theorem get?_updateLoop [LinearOrder κ] (key : Digest → κ) (blobs : List (Digest × Bytes))
    (m : OrdMap κ Bytes) :
    (updateLoop (fun m d b => m.insert (key d) b) m blobs).2.get? = written key m.get?
      ((updateLoop (fun m d b => m.insert (key d) b) m blobs).1.zip blobs) := by
  induction blobs generalizing m with
  | nil => rfl
  | cons p blobs ih =>
    obtain ⟨d, b⟩ := p
    cases hv : d.verify b with
    | ok =>
      have hd : d = Digest.of b := Digest.verify_eq_ok.1 hv
      subst hd
      have hins : (m.insert (key (Digest.of b)) b).get? =
          update m.get? (key (Digest.of b)) (some b) := by
        funext e
        by_cases he : e = key (Digest.of b) <;> simp [get?_insert, he]
      rw [updateLoop_cons_valid, ih, hins, zip_cons_cons, written, written, foldl_cons]
    | error =>
      rw [updateLoop_cons_invalid hv, ih]
      rfl

omit [DecidableEq κ] in
theorem toList_eq_nil [LinearOrder κ] {m : OrdMap κ Bytes} (h : ∀ k, m.get? k = none) :
    m.toList = [] := by
  refine eq_nil_iff_forall_not_mem.2 fun p hp => ?_
  have hget := get?_eq_some.2 hp
  rw [h] at hget
  cases hget

theorem inMemoryCas_keeps : Keeps inMemoryCas id get? where
  read _ _ := rfl
  findMissing _ _ := rfl
  updateError s blobs e s' h := by cases h
  updateOk s blobs results s' h := by
    cases h
    exact get?_updateLoop id blobs s
  listEmpty s h := by
    show (Except.ok (s.toList.map Prod.fst), s) = _
    rw [toList_eq_nil h]
    rfl
  statsEmpty s h := by
    show (Except.ok (CasStats.mk (s.toList.map Prod.fst).length
      ((s.toList.map Prod.fst).map fun d => d.sizeBytes.toNat).sum), s) = _
    rw [toList_eq_nil h]
    rfl
  deleteAbsent s d h := by
    show (Except.ok (), s.erase (id d)) = _
    rw [erase_eq_self h]

theorem redbCas_keeps : Keeps redbCas Digest.hash get? where
  read _ _ := rfl
  findMissing _ _ := rfl
  updateError s blobs e s' h := by cases h
  updateOk s blobs results s' h := by
    cases h
    exact get?_updateLoop Digest.hash blobs s
  listEmpty s h := by
    show (Except.ok (s.toList.filterMap _), s) = _
    rw [toList_eq_nil h]
    rfl
  statsEmpty s h := by
    show (Except.ok (CasStats.mk s.toList.length (s.toList.map _).sum), s) = _
    rw [toList_eq_nil h]
    rfl
  deleteAbsent s d h := by
    show (Except.ok (), s.erase d.hash) = _
    rw [erase_eq_self h]

/-! ## The hot tier is under the content of the warm store -/

/-- The tier is good, and all it holds is in the store. -/
structure Under (hot : HotTier) (key : Digest → κ) (held : κ → Option Bytes) : Prop where
  good : ∃ order, hot.Good order
  sub : ∀ d b, hot.lookup d = some b → held (key d) = some b

/-- Storing a blob replaces no other bytes that are read under another digest: what is held
under its key is the same blob, or the key is that of its digest only. -/
def Free (key : Digest → κ) (held : κ → Option Bytes) (d : Digest) (b : Bytes) : Prop :=
  (∀ c, held (key d) = some c → c = b) ∨ ∀ e, key e = key d → e = d

/-- So it is with every blob that a batch stores. -/
def AllFree (key : Digest → κ) : (κ → Option Bytes) → List (UpdateResult × (Digest × Bytes)) → Prop
  | _, [] => True
  | held, p :: pairs =>
    (p.1.status = .ok () → Free key held p.2.1 p.2.2) ∧ AllFree key (written key held [p]) pairs

namespace Under

variable {held : κ → Option Bytes}

omit [DecidableEq κ] in
theorem new (capacityBytes : ℕ) : Under (HotTier.new capacityBytes) key held where
  good := ⟨[], HotTier.good_new capacityBytes⟩
  sub d b h := by cases h

variable (h : Under hot key held)

include h

omit [DecidableEq κ] in
theorem get (d : Digest) :
    (∀ b, (hot.get d).1 = some b → held (key d) = some b) ∧ Under (hot.get d).2 key held := by
  obtain ⟨order, hgood⟩ := h.good
  obtain ⟨hres, hgood', hsame⟩ := hgood.get d
  refine ⟨fun b hb => h.sub d b (hres ▸ hb), hgood', ?_⟩
  intro e c hc
  exact h.sub e c ((hsame e).symm.trans hc)

theorem put {b : Bytes} (hfree : Free key held d b) :
    Under (hot.put d b) key (update held (key d) (some b)) := by
  obtain ⟨order, hgood⟩ := h.good
  obtain ⟨hgood', hsub⟩ := hgood.put d b
  refine ⟨hgood', ?_⟩
  intro e c hc
  have hheld := hsub e c hc
  by_cases he : e = d
  · rw [if_pos he] at hheld
    rw [he, hheld, update_self]
  rw [if_neg he] at hheld
  by_cases hkey : key e = key d
  · -- the tier holds the same bytes under another digest
    have hold := h.sub e c hheld
    rw [hkey] at hold ⊢
    rcases hfree with hsame | hone
    · rw [update_self, hsame c hold]
    · exact absurd (hone e hkey) he
  · rw [update_of_ne hkey]
    exact h.sub e c hheld

theorem put_stored {b : Bytes} (hd : held (key d) = some b) :
    Under (hot.put d b) key held := by
  have hfree : Free key held d b := .inl fun c hc => Option.some.inj (hc.symm.trans hd)
  have := h.put hfree
  rwa [← hd, update_eq_self] at this

theorem promoteLoop {pairs : List (UpdateResult × (Digest × Bytes))}
    (hfree : AllFree key held pairs) :
    Under (Blobs.promoteLoop hot pairs) key (written key held pairs) := by
  induction pairs generalizing hot held with
  | nil => exact h
  | cons p pairs ih =>
    obtain ⟨hp, hrest⟩ := hfree
    have hone : written key held [p] = match p.1.status with
        | .ok _ => update held (key p.2.1) (some p.2.2)
        | .error _ => held := rfl
    rw [Blobs.promoteLoop, written, foldl_cons, foldl_cons]
    refine ih ?_ hrest
    cases hstatus : p.1.status with
    | ok => exact h.put (hp hstatus)
    | error => exact h

end Under

/-- What the first pass leaves of a batch that starts at index `i`: answers that are
right, and the others to fetch. -/
inductive Passed (content : Digest → Option Bytes) : ℕ → List Digest →
    List (Option (Except CasError Bytes)) → List (ℕ × Digest) → Prop where
  | nil (i : ℕ) : Passed content i [] [] []
  | hit {i d ds out toFetch} {b : Bytes} : content d = some b →
      Passed content (i + 1) ds out toFetch →
      Passed content i (d :: ds) (some (.ok b) :: out) toFetch
  | miss {i d ds out toFetch} : Passed content (i + 1) ds out toFetch →
      Passed content i (d :: ds) (none :: out) ((i, d) :: toFetch)

omit [DecidableEq κ] in
theorem hotPass_passed {held : κ → Option Bytes} (h : Under hot key held) (i : ℕ)
    (ds : List Digest) :
    Passed (fun d => held (key d)) i ds (hotPass i hot ds).1 (hotPass i hot ds).2.1 ∧
      Under (hotPass i hot ds).2.2 key held := by
  induction ds generalizing i hot with
  | nil => exact ⟨.nil i, h⟩
  | cons d ds ih =>
    obtain ⟨hres, hunder⟩ := h.get d
    rw [hotPass]
    rcases hget : hot.get d with ⟨res, hot'⟩
    rw [hget] at hres hunder
    obtain ⟨hpass, hunder'⟩ := ih hunder (i + 1)
    cases res with
    | some b => exact ⟨.hit (hres b rfl) hpass, hunder'⟩
    | none => exact ⟨.miss hpass, hunder'⟩

theorem warmPass_passed {held : κ → Option Bytes} {i : ℕ} {ds : List Digest}
    {out : List (Option (Except CasError Bytes))} {toFetch : List (ℕ × Digest)}
    (hp : Passed (fun d => held (key d)) i ds out toFetch)
    {done : List (Option (Except CasError Bytes))}
    (hdone : done.length = i) (h : Under hot key held) :
    (warmPass (done ++ out) hot
        (toFetch.zip ((toFetch.map Prod.snd).map fun d => readEntry d (held (key d))))).1 =
        done ++ ds.map (fun d => some (readEntry d (held (key d)))) ∧
      Under (warmPass (done ++ out) hot
        (toFetch.zip ((toFetch.map Prod.snd).map fun d => readEntry d (held (key d))))).2
        key held := by
  induction hp generalizing done hot with
  | nil => exact ⟨rfl, h⟩
  | @hit i d ds out toFetch b hb _ ih =>
    have hlen : (done ++ [some (Except.ok b)]).length = i + 1 := by simp [hdone]
    have hstep := ih hlen h
    rw [append_assoc] at hstep
    rw [map_cons, hb]
    rw [append_assoc] at hstep
    exact hstep
  | @miss i d ds out toFetch _ ih =>
    have hset : (done ++ none :: out).set i (some (readEntry d (held (key d)))) =
        (done ++ [some (readEntry d (held (key d)))]) ++ out := by
      rw [← hdone, set_append_right _ _ le_rfl]
      simp
    have hlen : (done ++ [some (readEntry d (held (key d)))]).length = i + 1 := by simp [hdone]
    simp only [map_cons, zip_cons_cons]
    cases hd : held (key d) with
    | none =>
      rw [hd] at hset hlen
      simp only [readEntry_none] at hset hlen
      simp only [readEntry_none, warmPass]
      obtain ⟨hout, hunder⟩ := ih hlen h
      rw [hset]
      refine ⟨?_, hunder⟩
      rw [hout, append_assoc]
      rfl
    | some =>
      rw [hd] at hset hlen
      simp only [readEntry_some] at hset hlen
      simp only [readEntry_some, warmPass]
      obtain ⟨hout, hunder⟩ := ih hlen (h.put_stored hd)
      rw [hset]
      refine ⟨?_, hunder⟩
      rw [hout, append_assoc]
      rfl

/-! ## The tier does not show -/

section Transparent

variable {S : Type} {warm : Cas S} {held : S → κ → Option Bytes}

variable (hk : Keeps warm key held)

include hk

theorem read_through {s : S} (h : Under hot key (held s))
    (ds : List Digest) :
    ∃ hot', (tieredCas warm).batchReadBlobs (s, hot) ds =
        (.ok (ds.map fun d => readEntry d (held s (key d))), (s, hot')) ∧
      Under hot' key (held s) := by
  obtain ⟨hpass, hunder⟩ := hotPass_passed h 0 ds
  have hflat : (ds.map fun d => some (readEntry d (held s (key d)))).filterMap id =
      ds.map fun d => readEntry d (held s (key d)) := by
    rw [filterMap_map]
    exact congrFun filterMap_eq_map ds
  rcases hout : hotPass 0 hot ds with ⟨out, toFetch, hot'⟩
  rw [hout] at hpass hunder
  obtain ⟨hfill, hunder'⟩ := warmPass_passed hpass length_nil hunder
  rw [nil_append, nil_append] at hfill
  rw [nil_append] at hunder'
  simp only [tieredCas, hout, hk.read]
  cases toFetch with
  | nil =>
    refine ⟨hot', ?_, hunder⟩
    obtain rfl : out = _ := hfill
    rw [isEmpty_nil, if_pos rfl, hflat]
  | cons =>
    refine ⟨_, ?_, hunder'⟩
    rw [isEmpty_cons, if_neg Bool.false_ne_true, hfill, hflat]

theorem update_through {s : S} (h : Under hot key (held s)) {blobs : List (Digest × Bytes)}
    (hfree : ∀ results s', warm.batchUpdateBlobs s blobs = (.ok results, s') →
      AllFree key (held s) (results.zip blobs)) :
    ∃ hot', (tieredCas warm).batchUpdateBlobs (s, hot) blobs =
        ((warm.batchUpdateBlobs s blobs).1, ((warm.batchUpdateBlobs s blobs).2, hot')) ∧
      Under hot' key (held (warm.batchUpdateBlobs s blobs).2) := by
  rcases hw : warm.batchUpdateBlobs s blobs with ⟨r, s'⟩
  simp only [tieredCas, hw]
  cases r with
  | error e =>
    refine ⟨hot, rfl, ?_⟩
    rw [hk.updateError s blobs e s' hw]
    exact h
  | ok results =>
    refine ⟨_, rfl, ?_⟩
    rw [hk.updateOk s blobs results s' hw]
    exact h.promoteLoop (hfree results s' hw)

/-- The calls that the tier inherits have nothing to answer: nothing is stored when
digests or sizes are asked for, and what is to be deleted is not there.  And no blob is
stored over another one that is read under a digest of its own. -/
def Harmless (warm : Cas S) (key : Digest → κ) (held : S → κ → Option Bytes) (s : S) :
    CasCall → Prop
  | .listDigests | .stats => ∀ k, held s k = none
  | .deleteBlob d => held s (key d) = none
  | .batchUpdateBlobs blobs => ∀ results s', warm.batchUpdateBlobs s blobs = (.ok results, s') →
    AllFree key (held s) (results.zip blobs)
  | .findMissingBlobs _ | .batchReadBlobs _ => True

/-- Every call of the sequence is harmless in the state it is made in. -/
def AllHarmless (warm : Cas S) (key : Digest → κ) (held : S → κ → Option Bytes) (s : S) :
    List CasCall → Prop
  | [] => True
  | c :: calls =>
    Harmless warm key held s c ∧ AllHarmless warm key held (warm.serve s c).2 calls

theorem serve_through {s : S} (h : Under hot key (held s)) {c : CasCall}
    (hc : Harmless warm key held s c) :
    ∃ hot', (tieredCas warm).serve (s, hot) c = ((warm.serve s c).1, ((warm.serve s c).2, hot')) ∧
      Under hot' key (held (warm.serve s c).2) := by
  cases c with
  | findMissingBlobs ds =>
    refine ⟨hot, rfl, ?_⟩
    show Under hot key (held (warm.findMissingBlobs s ds).2)
    rw [hk.findMissing]
    exact h
  | batchUpdateBlobs blobs =>
    obtain ⟨hot', heq, hunder⟩ := update_through hk h hc
    refine ⟨hot', ?_, hunder⟩
    rw [Cas.serve, heq]
    rfl
  | batchReadBlobs ds =>
    obtain ⟨hot', heq, hunder⟩ := read_through hk h ds
    refine ⟨hot', ?_, ?_⟩
    · rw [Cas.serve, heq, Cas.serve, hk.read]
      rfl
    · rw [Cas.serve, hk.read]
      exact hunder
  | listDigests =>
    refine ⟨hot, ?_, ?_⟩
    · rw [Cas.serve, Cas.serve, hk.listEmpty s hc]
      rfl
    · rw [Cas.serve, hk.listEmpty s hc]
      exact h
  | deleteBlob d =>
    refine ⟨hot, ?_, ?_⟩
    · rw [Cas.serve, Cas.serve, hk.deleteAbsent s d hc]
      rfl
    · rw [Cas.serve, hk.deleteAbsent s d hc]
      exact h
  | stats =>
    refine ⟨hot, ?_, ?_⟩
    · rw [Cas.serve, Cas.serve, hk.statsEmpty s hc]
      rfl
    · rw [Cas.serve, hk.statsEmpty s hc]
      exact h

theorem answers_through {s : S} (h : Under hot key (held s))
    (hc : AllHarmless warm key held s calls) :
    (tieredCas warm).answers (s, hot) calls = warm.answers s calls := by
  induction calls generalizing s hot with
  | nil => rfl
  | cons c calls ih =>
    obtain ⟨hot', heq, hunder⟩ := serve_through hk h hc.1
    rw [Cas.answers, Cas.answers, heq]
    exact congrArg _ (ih hunder hc.2)

/-! ## Deleted blobs -/

/-- The call writes a blob under the key of the digest. -/
def CasCall.Writes (key : Digest → κ) (d : Digest) : CasCall → Prop
  | .batchUpdateBlobs blobs => key d ∈ blobs.map fun p => key p.1
  | _ => False

omit hk

theorem written_of_not_mem {f : κ → Option Bytes} {k : κ}
    {pairs : List (UpdateResult × (Digest × Bytes))} (h : ∀ p ∈ pairs, key p.2.1 ≠ k) :
    written key f pairs k = f k := by
  induction pairs generalizing f with
  | nil => rfl
  | cons p pairs ih =>
    have hp : k ≠ key p.2.1 := (h p mem_cons_self).symm
    have hrest : ∀ q ∈ pairs, key q.2.1 ≠ k := fun q hq => h q (mem_cons_of_mem _ hq)
    rw [written, foldl_cons]
    cases p.1.status with
    | ok => exact (ih hrest).trans (update_of_ne hp _ _)
    | error => exact ih hrest

theorem absent_serve (hk : Keeps warm key held) {s : S} (h : held s (key d) = none) {c : CasCall}
    (hc : Harmless warm key held s c) (hw : ¬ c.Writes key d) :
    held (warm.serve s c).2 (key d) = none := by
  cases c with
  | findMissingBlobs ds =>
    show held (warm.findMissingBlobs s ds).2 (key d) = none
    rw [hk.findMissing, h]
  | batchUpdateBlobs blobs =>
    show held (warm.batchUpdateBlobs s blobs).2 (key d) = none
    rcases heq : warm.batchUpdateBlobs s blobs with ⟨r, s'⟩
    cases r with
    | error e => rw [hk.updateError s blobs e s' heq, h]
    | ok results =>
      rw [hk.updateOk s blobs results s' heq, written_of_not_mem, h]
      intro p hp hkey
      have hmem : p.2 ∈ blobs := (of_mem_zip hp).2
      exact hw (mem_map.2 ⟨p.2, hmem, hkey⟩)
  | batchReadBlobs => rw [Cas.serve, hk.read]; exact h
  | listDigests => rw [Cas.serve, hk.listEmpty s hc]; exact h
  | deleteBlob e => rw [Cas.serve, hk.deleteAbsent s e hc]; exact h
  | stats => rw [Cas.serve, hk.statsEmpty s hc]; exact h

theorem absent_after (hk : Keeps warm key held) {s : S} (h : held s (key d) = none)
    {mid : List CasCall}
    (hc : AllHarmless warm key held s (mid ++ calls)) (hw : ∀ c ∈ mid, ¬ c.Writes key d) :
    held (warm.after s mid) (key d) = none ∧
      AllHarmless warm key held (warm.after s mid) calls := by
  induction mid generalizing s with
  | nil => exact ⟨h, hc⟩
  | cons c mid ih =>
    have habsent := absent_serve hk h hc.1 (hw c mem_cons_self)
    exact ih habsent hc.2 fun c' hc' => hw c' (mem_cons_of_mem _ hc')

theorem allHarmless_after {s : S} {pre : List CasCall}
    (hc : AllHarmless warm key held s (pre ++ calls)) :
    AllHarmless warm key held (warm.after s pre) calls := by
  induction pre generalizing s with
  | nil => exact hc
  | cons c pre ih => exact ih hc.2

theorem read_after_delete (hk : Keeps warm key held) {s : S} {pre mid post : List CasCall}
    {ds : List Digest}
    (hc : AllHarmless warm key held s (pre ++ .deleteBlob d :: (mid ++ .batchReadBlobs ds :: post)))
    (hw : ∀ c ∈ mid, ¬ c.Writes key d) :
    ∃ rs, (warm.answers s (pre ++ .deleteBlob d :: (mid ++ .batchReadBlobs ds :: post)))[
        pre.length + 1 + mid.length]? = some (.reads (.ok rs)) ∧
      ∀ k : ℕ, ds[k]? = some d → rs[k]? = some (.error (.notFound d)) := by
  obtain ⟨hdel, hrest⟩ := allHarmless_after hc
  have hgone : held (warm.after s pre) (key d) = none := hdel
  have hstate : (warm.serve (warm.after s pre) (.deleteBlob d)).2 = warm.after s pre := by
    rw [Cas.serve, hk.deleteAbsent _ d hgone]
    rfl
  rw [hstate] at hrest
  obtain ⟨habsent, -⟩ := absent_after hk hgone hrest hw
  refine ⟨ds.map fun e => readEntry e (held (warm.after (warm.after s pre) mid) (key e)),
    ?_, ?_⟩
  · have hidx : pre.length + 1 + mid.length - pre.length = mid.length + 1 := by omega
    rw [Cas.answers_append, getElem?_append_right (by simp; omega), Cas.length_answers, hidx,
      Cas.answers, getElem?_cons_succ, hstate, Cas.answers_append,
      getElem?_append_right (by simp), Cas.length_answers, Nat.sub_self, Cas.answers,
      getElem?_cons_zero, Cas.serve, hk.read]
    rfl
  · intro k hk'
    rw [getElem?_map, hk']
    show some (readEntry d (held (warm.after (warm.after s pre) mid) (key d))) = _
    rw [habsent, readEntry_none]

end Transparent

/-- Calls through a hot tier of any size return what they would return on the warm
store, and what was deleted is not found until it is written again. -/
theorem tiering_transparent {S : Type} (warm : Cas S) (key : Digest → κ)
    (held : S → κ → Option Bytes) (hk : Keeps warm key held) (s : S) (capacityBytes : ℕ)
    (calls : List CasCall) (hc : AllHarmless warm key held s calls) :
    (tieredCas warm).answers (s, HotTier.new capacityBytes) calls = warm.answers s calls ∧
      ∀ pre d mid ds post, calls = pre ++ .deleteBlob d :: (mid ++ .batchReadBlobs ds :: post) →
        (∀ c ∈ mid, ¬ c.Writes key d) →
        ∃ rs, ((tieredCas warm).answers (s, HotTier.new capacityBytes) calls)[
            pre.length + 1 + mid.length]? = some (.reads (.ok rs)) ∧
          ∀ k : ℕ, ds[k]? = some d → rs[k]? = some (.error (.notFound d)) := by
  have hanswers := answers_through hk (Under.new capacityBytes) hc
  refine ⟨hanswers, ?_⟩
  rintro pre d mid ds post rfl hw
  rw [hanswers]
  exact read_after_delete hk hc hw

namespace Sample

/-- The digest of the blob `[7]`, but for its size. -/
def sevenOfTwo : Digest :=
  ⟨(Digest.of [7]).hash, 2, (Digest.of [7]).length, (Digest.of [7]).hex, by decide⟩

/-- An empty store listed, blobs that push each other out of a tier of one byte, one of them
read under another size, and an absent blob deleted. -/
def harmlessCalls : List CasCall :=
  [.listDigests, .batchUpdateBlobs [(Digest.of [7], [7]), (Digest.of [8], [8])],
    .batchReadBlobs [sevenOfTwo, Digest.of [8]], .deleteBlob (Digest.of [9]),
    .batchReadBlobs [Digest.of [9], sevenOfTwo]]

theorem harmless_pair {x y : Bytes} (hne : (Digest.of x).hash ≠ (Digest.of y).hash) :
    Harmless redbCas Digest.hash get? ∅
      (.batchUpdateBlobs [(Digest.of x, x), (Digest.of y, y)]) := by
  intro results s' heq
  have hresults : results = [⟨Digest.of x, .ok ()⟩, ⟨Digest.of y, .ok ()⟩] := by
    simp only [redbCas, updateLoop_cons_valid, Prod.mk.injEq, Except.ok.injEq] at heq
    exact heq.1.symm
  rw [hresults]
  refine ⟨fun _ => .inl ?_, fun _ => .inl ?_, trivial⟩
  · rintro c ⟨⟩
  · intro c hc
    rw [written_of_not_mem] at hc
    · cases hc
    · intro p hp
      cases mem_singleton.1 hp
      exact hne

theorem harmlessCalls_harmless : AllHarmless redbCas Digest.hash get? ∅ harmlessCalls := by
  have hgone : (redbCas.after ∅ (harmlessCalls.take 3)).get? (Digest.of [9]).hash = none := by
    decide +kernel
  have hpair := harmless_pair (x := [7]) (y := [8]) (by decide +kernel)
  exact ⟨fun _ => rfl, hpair, trivial, hgone, trivial, trivial⟩

end Sample

theorem tiering_transparent_sample :
    (tieredCas redbCas).answers (∅, HotTier.new 1) Sample.harmlessCalls =
      redbCas.answers ∅ Sample.harmlessCalls :=
  (tiering_transparent redbCas Digest.hash get? redbCas_keeps ∅ 1 Sample.harmlessCalls
    Sample.harmlessCalls_harmless).1

/-- A blob is stored through the tier: it is not listed and not counted, and after it
is deleted it can still be read. -/
theorem tiering_hides_blobs : (tieredCas inMemoryCas).answers (∅, HotTier.new 1)
        [.batchUpdateBlobs [(Digest.of [7], [7])], .listDigests, .stats,
          .deleteBlob (Digest.of [7]), .batchReadBlobs [Digest.of [7]]] =
        [.updates (.ok [⟨Digest.of [7], .ok ()⟩]), .digests (.ok []), .stats (.ok ⟨0, 0⟩),
          .deleted (.ok ()), .reads (.ok [.ok [7]])] ∧
      inMemoryCas.answers ∅
        [.batchUpdateBlobs [(Digest.of [7], [7])], .listDigests, .stats,
          .deleteBlob (Digest.of [7]), .batchReadBlobs [Digest.of [7]]] =
        [.updates (.ok [⟨Digest.of [7], .ok ()⟩]), .digests (.ok [Digest.of [7]]),
          .stats (.ok ⟨1, 1⟩), .deleted (.ok ()),
          .reads (.ok [.error (.notFound (Digest.of [7]))])] := by
  decide +kernel

end Brokkr.Blobs
