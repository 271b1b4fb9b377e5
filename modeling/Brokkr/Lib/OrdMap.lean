import Mathlib

/-!
# Ordered sets and maps

Finite sets and maps over a linear order, kept as strictly increasing lists.
Iteration runs in key order, so a value of these types is determined by what it
contains and can be compared and evaluated.

* `OrdSet` — a set; `insert`, `erase`, `filter`, `union`, `ofList`, with one
  membership lemma each (`mem_insert`, `mem_erase`, …).
* `OrdMap` — a map; `insert`, `orInsert`, `filter`, `erase`, `mapValues` and
  `get?`, with one lookup lemma each (`get?_insert`, `get?_filter`, …).
* `OrdSet.ext`, `OrdMap.ext` — members and lookups determine a set and a map.
-/

namespace Brokkr

open List

variable {α β : Type} [LinearOrder α]

/-! ## Sets -/

/-- A finite set, kept as a strictly increasing list. -/
structure OrdSet (α : Type) [LinearOrder α] where
  toList : List α
  sorted : toList.Pairwise (· < ·)
  deriving DecidableEq

namespace OrdSet

instance : Membership α (OrdSet α) := ⟨fun s a => a ∈ s.toList⟩

instance (s : OrdSet α) (a : α) : Decidable (a ∈ s) := inferInstanceAs (Decidable (a ∈ s.toList))

instance : EmptyCollection (OrdSet α) := ⟨⟨[], List.Pairwise.nil⟩⟩

instance : Inhabited (OrdSet α) := ⟨∅⟩

variable {s : OrdSet α}

theorem mem_def {a : α} : a ∈ s ↔ a ∈ s.toList := Iff.rfl

@[simp] theorem not_mem_empty (a : α) : a ∉ (∅ : OrdSet α) := not_mem_nil

/-- Insertion into an increasing list, leaving an element that is already there. -/
def insertList (a : α) : List α → List α
  | [] => [a]
  | b :: l => if a < b then a :: b :: l else if a = b then b :: l else b :: insertList a l

theorem mem_insertList {a b : α} {l : List α} : b ∈ insertList a l ↔ b = a ∨ b ∈ l := by
  induction l with
  | nil => simp [insertList]
  | cons c l ih =>
    rw [insertList]
    split_ifs with h1 h2
    · simp
    · subst h2; simp
    · simp only [mem_cons, ih]; tauto

theorem pairwise_insertList (a : α) {l : List α} (h : l.Pairwise (· < ·)) :
    (insertList a l).Pairwise (· < ·) := by
  induction l with
  | nil => simp [insertList]
  | cons c l ih =>
    obtain ⟨hc, hl⟩ := pairwise_cons.1 h
    rw [insertList]
    split_ifs with h1 h2
    · refine pairwise_cons.2 ⟨?_, h⟩
      intro b hb
      rcases mem_cons.1 hb with rfl | hb
      · exact h1
      · exact h1.trans (hc b hb)
    · exact h
    · refine pairwise_cons.2 ⟨?_, ih hl⟩
      intro b hb
      rcases mem_insertList.1 hb with rfl | hb
      · exact lt_of_le_of_ne (not_lt.1 h1) (Ne.symm h2)
      · exact hc b hb

/-- Add an element. -/
def insert (s : OrdSet α) (a : α) : OrdSet α :=
  ⟨insertList a s.toList, pairwise_insertList a s.sorted⟩

@[simp] theorem mem_insert {a b : α} : b ∈ s.insert a ↔ b = a ∨ b ∈ s :=
  mem_insertList

/-- Keep the elements that satisfy `p`. -/
def filter (s : OrdSet α) (p : α → Bool) : OrdSet α := ⟨s.toList.filter p, s.sorted.filter p⟩

@[simp] theorem mem_filter {p : α → Bool} {a : α} :
    a ∈ s.filter p ↔ a ∈ s ∧ p a = true := List.mem_filter

/-- Remove an element. -/
def erase (s : OrdSet α) (a : α) : OrdSet α := s.filter (fun b => decide (b ≠ a))

@[simp] theorem mem_erase {a b : α} : b ∈ s.erase a ↔ b ∈ s ∧ b ≠ a := by
  simp [erase]

/-- The set of the elements of a list. -/
def ofList (l : List α) : OrdSet α := l.foldr (fun a s => s.insert a) ∅

@[simp] theorem mem_ofList {l : List α} {a : α} : a ∈ ofList l ↔ a ∈ l := by
  induction l with
  | nil => simp [ofList]
  | cons b l ih => rw [ofList, foldr_cons, mem_insert, mem_cons, ← ih]; rfl

/-- The elements of either set. -/
def union (s t : OrdSet α) : OrdSet α := t.toList.foldr (fun a s => s.insert a) s

@[simp] theorem mem_union {s t : OrdSet α} {a : α} : a ∈ s.union t ↔ a ∈ s ∨ a ∈ t := by
  have key : ∀ l : List α, a ∈ l.foldr (fun a s => s.insert a) s ↔ a ∈ s ∨ a ∈ l := by
    intro l
    induction l with
    | nil => simp
    | cons b l ih => rw [foldr_cons, mem_insert, ih, mem_cons]; tauto
  exact key t.toList

/-- The one-element set. -/
def singleton (a : α) : OrdSet α := (∅ : OrdSet α).insert a

@[simp] theorem mem_singleton {a b : α} : b ∈ singleton a ↔ b = a := by simp [singleton]

/-- Is the set empty? -/
def isEmpty (s : OrdSet α) : Bool := s.toList.isEmpty

theorem nodup (s : OrdSet α) : s.toList.Nodup := s.sorted.imp (fun h => ne_of_lt h)

theorem ext {s t : OrdSet α} (h : ∀ a, a ∈ s ↔ a ∈ t) : s = t := by
  have hperm := (perm_ext_iff_of_nodup s.nodup t.nodup).2 h
  have hlist : s.toList = t.toList :=
    hperm.eq_of_pairwise (fun _ _ _ _ h1 h2 => absurd h1 h2.asymm) s.sorted t.sorted
  cases s
  cases t
  cases hlist
  rfl

end OrdSet

/-! ## Maps -/

/-- A finite map, kept as a list of bindings with strictly increasing keys. -/
structure OrdMap (α β : Type) [LinearOrder α] where
  toList : List (α × β)
  sorted : toList.Pairwise (fun a b => a.1 < b.1)

namespace OrdMap

instance [DecidableEq β] : DecidableEq (OrdMap α β) := fun m m' =>
  decidable_of_iff (m.toList = m'.toList) (by cases m; cases m'; simp)

instance : EmptyCollection (OrdMap α β) := ⟨⟨[], List.Pairwise.nil⟩⟩

instance : Inhabited (OrdMap α β) := ⟨∅⟩

variable (m : OrdMap α β)

/-- The value bound to a key. -/
def get? (k : α) : Option β :=
  (m.toList.find? (fun p => decide (p.1 = k))).map Prod.snd

@[simp] theorem get?_empty (k : α) : (∅ : OrdMap α β).get? k = none := rfl

theorem pairwise_key_unique {l : List (α × β)} (h : l.Pairwise (fun a b => a.1 < b.1))
    {k : α} {v w : β} (hv : (k, v) ∈ l) (hw : (k, w) ∈ l) : v = w := by
  induction l with
  | nil => exact absurd hv not_mem_nil
  | cons p l ih =>
    obtain ⟨hp, hl⟩ := pairwise_cons.1 h
    rcases mem_cons.1 hv with rfl | hv'
    · rcases mem_cons.1 hw with hw' | hw'
      · exact (congrArg Prod.snd hw').symm
      · exact absurd (hp _ hw') (lt_irrefl _)
    rcases mem_cons.1 hw with rfl | hw'
    · exact absurd (hp _ hv') (lt_irrefl _)
    · exact ih hl hv' hw'

theorem get?_eq_some {m : OrdMap α β} {k : α} {v : β} :
    m.get? k = some v ↔ (k, v) ∈ m.toList := by
  constructor
  · intro h
    obtain ⟨p, hp, rfl⟩ := Option.map_eq_some_iff.1 h
    have hk : p.1 = k := by simpa using find?_some hp
    rw [← hk]
    exact mem_of_find?_eq_some hp
  intro h
  have hsome : (m.toList.find? (fun p => decide (p.1 = k))).isSome := by
    rw [find?_isSome]
    exact ⟨(k, v), h, by simp⟩
  obtain ⟨p, hp⟩ := Option.isSome_iff_exists.1 hsome
  have hk : p.1 = k := by simpa using find?_some hp
  have hmem : (k, p.2) ∈ m.toList := by
    rw [← hk]
    exact mem_of_find?_eq_some hp
  rw [get?, hp, Option.map_some, pairwise_key_unique m.sorted hmem h]

theorem get?_eq_none {m : OrdMap α β} {k : α} :
    m.get? k = none ↔ ∀ v, (k, v) ∉ m.toList := by
  constructor
  · intro h v hv
    rw [get?_eq_some.2 hv] at h
    exact absurd h (by simp)
  intro h
  cases hk : m.get? k with
  | none => rfl
  | some v => exact absurd (get?_eq_some.1 hk) (h v)

theorem get?_congr {m m' : OrdMap α β} {k : α}
    (h : ∀ v, (k, v) ∈ m.toList ↔ (k, v) ∈ m'.toList) : m.get? k = m'.get? k := by
  cases hk : m'.get? k with
  | none => exact get?_eq_none.2 fun v hv => get?_eq_none.1 hk v ((h v).1 hv)
  | some v => exact get?_eq_some.2 ((h v).2 (get?_eq_some.1 hk))

theorem nodup : m.toList.Nodup :=
  m.sorted.imp fun h heq => absurd (heq ▸ h) (lt_irrefl _)

theorem ext {m m' : OrdMap α β} (h : ∀ k, m.get? k = m'.get? k) : m = m' := by
  have hmem : ∀ p, p ∈ m.toList ↔ p ∈ m'.toList := by
    rintro ⟨k, v⟩
    rw [← get?_eq_some, ← get?_eq_some, h]
  have hperm := (perm_ext_iff_of_nodup m.nodup m'.nodup).2 hmem
  have hlist : m.toList = m'.toList :=
    hperm.eq_of_pairwise (fun _ _ _ _ h1 h2 => absurd h1 h2.asymm) m.sorted m'.sorted
  cases m
  cases m'
  cases hlist
  rfl

/-- Insertion into an increasing list of bindings, replacing an existing binding. -/
def insertList (k : α) (v : β) : List (α × β) → List (α × β)
  | [] => [(k, v)]
  | p :: l =>
    if k < p.1 then (k, v) :: p :: l
    else if k = p.1 then (k, v) :: l
    else p :: insertList k v l

theorem mem_insertList {k : α} {v : β} {q : α × β} {l : List (α × β)}
    (hl : l.Pairwise (fun a b => a.1 < b.1)) :
    q ∈ insertList k v l ↔ q = (k, v) ∨ (q ∈ l ∧ q.1 ≠ k) := by
  induction l with
  | nil => simp [insertList]
  | cons p l ih =>
    obtain ⟨hp, hl'⟩ := pairwise_cons.1 hl
    rw [insertList]
    split_ifs with h1 h2
    · -- everything that was there has a larger key
      have hne : ∀ r ∈ p :: l, r.1 ≠ k := by
        intro r hr
        rcases mem_cons.1 hr with rfl | hr
        · exact ne_of_gt h1
        · exact ne_of_gt (h1.trans (hp r hr))
      rw [mem_cons]
      exact ⟨fun h => h.imp_right fun h' => ⟨h', hne q h'⟩, fun h => h.imp_right And.left⟩
    · -- the binding of `k` itself is replaced
      have hne : ∀ r ∈ l, r.1 ≠ k := fun r hr => h2 ▸ ne_of_gt (hp r hr)
      rw [mem_cons, mem_cons]
      constructor
      · exact fun h => h.imp_right fun h' => ⟨Or.inr h', hne q h'⟩
      rintro (h | ⟨rfl | h, hk⟩)
      · exact .inl h
      · exact absurd h2.symm hk
      · exact .inr h
    · rw [mem_cons, ih hl', mem_cons]
      constructor
      · rintro (rfl | h | h)
        · exact .inr ⟨Or.inl rfl, fun h => h2 h.symm⟩
        · exact .inl h
        · exact .inr ⟨Or.inr h.1, h.2⟩
      rintro (h | ⟨h | h, hk⟩)
      · exact .inr (.inl h)
      · exact .inl h
      · exact .inr (.inr ⟨h, hk⟩)

theorem pairwise_insertList (k : α) (v : β) {l : List (α × β)}
    (h : l.Pairwise (fun a b => a.1 < b.1)) :
    (insertList k v l).Pairwise (fun a b => a.1 < b.1) := by
  induction l with
  | nil => simp [insertList]
  | cons p l ih =>
    obtain ⟨hp, hl⟩ := pairwise_cons.1 h
    rw [insertList]
    split_ifs with h1 h2
    · refine pairwise_cons.2 ⟨?_, h⟩
      intro q hq
      rcases mem_cons.1 hq with rfl | hq
      · exact h1
      · exact h1.trans (hp q hq)
    · exact pairwise_cons.2 ⟨fun q hq => h2 ▸ hp q hq, hl⟩
    · refine pairwise_cons.2 ⟨?_, ih hl⟩
      intro q hq
      rcases (mem_insertList hl).1 hq with rfl | ⟨hq, -⟩
      · exact lt_of_le_of_ne (not_lt.1 h1) (Ne.symm h2)
      · exact hp q hq

/-- Bind `k` to `v`, replacing an existing binding. -/
def insert (k : α) (v : β) : OrdMap α β :=
  ⟨insertList k v m.toList, pairwise_insertList k v m.sorted⟩

theorem get?_insert (k : α) (v : β) (j : α) :
    (m.insert k v).get? j = if j = k then some v else m.get? j := by
  split_ifs with h
  · subst h
    exact get?_eq_some.2 ((mem_insertList m.sorted).2 (Or.inl rfl))
  refine get?_congr fun w => ?_
  rw [insert, mem_insertList m.sorted]
  constructor
  · rintro (hw | hw)
    · exact absurd (congrArg Prod.fst hw) h
    · exact hw.1
  · exact fun hw => Or.inr ⟨hw, h⟩

@[simp] theorem get?_insert_self (k : α) (v : β) :
    (m.insert k v).get? k = some v := by rw [get?_insert, if_pos rfl]

theorem get?_insert_of_ne {k j : α} (v : β) (h : j ≠ k) :
    (m.insert k v).get? j = m.get? j := by rw [get?_insert, if_neg h]

theorem of_get?_insert {m : OrdMap α β} {k j : α} {v w : β} (h : (m.insert k v).get? j = some w) :
    j = k ∧ w = v ∨ j ≠ k ∧ m.get? j = some w := by
  rw [get?_insert] at h
  split at h
  · rename_i hj
    exact .inl ⟨hj, (Option.some.inj h).symm⟩
  · rename_i hj
    exact .inr ⟨hj, h⟩

/-- Keep the bindings that satisfy `p`. -/
def filter (p : α → β → Bool) : OrdMap α β :=
  ⟨m.toList.filter (fun q => p q.1 q.2), m.sorted.filter _⟩

theorem get?_filter (p : α → β → Bool) (k : α) :
    (m.filter p).get? k = (m.get? k).filter (p k) := by
  cases hk : m.get? k with
  | none =>
    exact get?_eq_none.2 fun v hv => get?_eq_none.1 hk v (mem_of_mem_filter hv)
  | some v =>
    by_cases hp : p k v = true
    · rw [Option.filter_some, if_pos hp]
      exact get?_eq_some.2 (List.mem_filter.2 ⟨get?_eq_some.1 hk, hp⟩)
    rw [Option.filter_some, if_neg hp]
    refine get?_eq_none.2 fun w hw => hp ?_
    obtain ⟨hw, hpw⟩ := List.mem_filter.1 hw
    rwa [pairwise_key_unique m.sorted hw (get?_eq_some.1 hk)] at hpw

/-- Remove the binding of `k`. -/
def erase (k : α) : OrdMap α β := m.filter (fun j _ => decide (j ≠ k))

theorem get?_erase (k j : α) :
    (m.erase k).get? j = if j = k then none else m.get? j := by
  rw [erase, get?_filter]
  by_cases h : j = k
  · simp [h]
  · cases m.get? j <;> simp [h]

theorem of_get?_erase {m : OrdMap α β} {k j : α} {v : β} (h : (m.erase k).get? j = some v) :
    j ≠ k ∧ m.get? j = some v := by
  rw [get?_erase] at h
  split at h
  · cases h
  · rename_i hj
    exact ⟨hj, h⟩

@[simp] theorem get?_erase_self (k : α) : (m.erase k).get? k = none := by
  rw [get?_erase, if_pos rfl]

theorem get?_erase_of_ne {k j : α} (h : j ≠ k) :
    (m.erase k).get? j = m.get? j := by rw [get?_erase, if_neg h]

theorem erase_eq_self {m : OrdMap α β} {k : α} (h : m.get? k = none) : m.erase k = m := by
  refine ext fun j => ?_
  rw [get?_erase]
  split
  · rename_i hj
    rw [hj, h]
  · rfl

theorem toList_perm {m : OrdMap α β} {k : α} {v : β} (h : m.get? k = some v) :
    m.toList.Perm ((k, v) :: (m.erase k).toList) := by
  refine (perm_ext_iff_of_nodup m.nodup ?_).2 ?_
  · refine nodup_cons.2 ⟨?_, (m.erase k).nodup⟩
    intro hmem
    have := get?_eq_some.2 hmem
    rw [get?_erase_self] at this
    cases this
  rintro ⟨j, w⟩
  rw [mem_cons, ← get?_eq_some, ← get?_eq_some, get?_erase]
  by_cases hj : j = k
  · subst hj
    rw [if_pos rfl, h]
    simp [eq_comm]
  · simp [hj]

theorem toList_insert_perm (k : α) (v : β) :
    (m.insert k v).toList.Perm ((k, v) :: (m.erase k).toList) := by
  have herase : (m.insert k v).erase k = m.erase k := by
    refine ext fun j => ?_
    rw [get?_erase, get?_erase, get?_insert]
    split <;> rfl
  rw [← herase]
  exact toList_perm (get?_insert_self m k v)

/-- The keys, in increasing order. -/
def keys : List α := m.toList.map Prod.fst

theorem mem_keys {m : OrdMap α β} {k : α} : k ∈ m.keys ↔ ∃ v, m.get? k = some v := by
  rw [keys, mem_map]
  constructor
  · rintro ⟨p, hp, rfl⟩
    exact ⟨p.2, get?_eq_some.2 hp⟩
  · rintro ⟨v, hv⟩
    exact ⟨(k, v), get?_eq_some.1 hv, rfl⟩

/-- Is a key bound? -/
def contains (k : α) : Bool := (m.get? k).isSome

/-- Change the values. -/
def mapValues (f : β → β) : OrdMap α β :=
  ⟨m.toList.map fun p => (p.1, f p.2), by
    rw [pairwise_map]
    exact m.sorted⟩

theorem get?_mapValues (f : β → β) (k : α) :
    (m.mapValues f).get? k = (m.get? k).map f := by
  cases hk : m.get? k with
  | none =>
    refine get?_eq_none.2 fun v hv => ?_
    obtain ⟨p, hp, heq⟩ := mem_map.1 hv
    cases heq
    exact get?_eq_none.1 hk p.2 hp
  | some v => refine get?_eq_some.2 (mem_map.2 ⟨(k, v), get?_eq_some.1 hk, rfl⟩)

/-- Bind `k` to `v` unless it is bound already. -/
def orInsert (k : α) (v : β) : OrdMap α β :=
  if (m.get? k).isSome then m else m.insert k v

theorem get?_orInsert (k : α) (v : β) (j : α) :
    (m.orInsert k v).get? j = if j = k then some ((m.get? k).getD v) else m.get? j := by
  rw [orInsert]
  cases hk : m.get? k with
  | none => simp [get?_insert]
  | some =>
    by_cases hj : j = k
    · subst hj; simp [hk]
    · simp [hj]

theorem get?_foldl {f : OrdMap α β → α → OrdMap α β} {v : β}
    (hf : ∀ m k j w, (f m k).get? j = some w → m.get? j = some w ∨ w = v) {l : List α}
    {m : OrdMap α β} {j : α} {w : β} (h : (l.foldl f m).get? j = some w) :
    m.get? j = some w ∨ w = v := by
  induction l generalizing m with
  | nil => exact .inl h
  | cons k l ih =>
    rcases ih h with h | h
    · exact hf m k j w h
    · exact .inr h

theorem get?_foldl_insert {l : List α} {m : OrdMap α β} {v w : β} {j : α}
    (h : (l.foldl (fun m k => m.insert k v) m).get? j = some w) :
    m.get? j = some w ∨ w = v := by
  refine get?_foldl (fun m k j w hw => ?_) h
  rw [get?_insert] at hw
  split at hw
  · exact .inr (Option.some.inj hw).symm
  · exact .inl hw

theorem get?_foldl_orInsert {l : List α} {m : OrdMap α β} {v w : β} {j : α}
    (h : (l.foldl (fun m k => m.orInsert k v) m).get? j = some w) :
    m.get? j = some w ∨ w = v := by
  refine get?_foldl (fun m k j w hw => ?_) h
  rw [get?_orInsert] at hw
  split at hw
  · rename_i hj
    subst hj
    cases hm : m.get? j with
    | none =>
      rw [hm] at hw
      exact .inr (Option.some.inj hw).symm
    | some =>
      rw [hm] at hw
      exact .inl hw
  · exact .inl hw

end OrdMap

end Brokkr
