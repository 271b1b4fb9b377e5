import Brokkr.Lib.OrdMap

/-!
# Byte strings

Byte strings in lexicographic order, scans of ordered maps by a common start of
the keys, and byte strings written behind their length.

* `not_lt_of_isPrefix`, `isPrefix_of_between` — in the lexicographic order the
  sequences that start with `p` form one run, and `p` is below all of them.
* `OrdMap.range`, `OrdMap.startingWith` — the bindings from a key on, and the
  bindings whose key starts with `p`; `OrdMap.takeWhile_range` says that reading the
  first until a key does not start with `p` gives the second.
* `OrdMap.foldl_insert_toList` — a map is rebuilt from its bindings.
* `leBytes`, `ofLeBytes` — a number as little-endian bytes.
* `chunk`, `takeChunk` — a byte string behind its 32-bit length, and back.
-/

namespace Brokkr

open List

/-! ## Order -/

instance linearOrderUInt8 : LinearOrder UInt8 where
  le_refl := UInt8.le_refl
  le_trans _ _ _ := UInt8.le_trans
  le_antisymm _ _ := UInt8.le_antisymm
  le_total := UInt8.le_total
  lt_iff_le_not_ge a b := by
    rw [UInt8.not_le]
    exact ⟨fun h => ⟨UInt8.le_of_lt h, h⟩, And.right⟩
  toDecidableLE := inferInstance
  toDecidableLT := inferInstance
  toDecidableEq := inferInstance

section Sequences

variable {α β : Type} [LinearOrder α]

theorem not_lt_of_isPrefix {p l : List α} (h : p <+: l) : ¬ l < p := by
  induction p generalizing l with
  | nil => exact not_lt_nil l
  | cons a p ih =>
    obtain ⟨m, rfl⟩ := h
    rw [cons_append, cons_lt_cons_iff]
    rintro (hlt | ⟨-, hlt⟩)
    · exact lt_irrefl a hlt
    · exact ih (List.prefix_append p m) hlt

theorem isPrefix_of_between {p l m : List α} (hl : ¬ l < p) (hlm : l < m) (hm : p <+: m) :
    p <+: l := by
  induction p generalizing l m with
  | nil => exact List.nil_prefix
  | cons a p ih =>
    obtain ⟨t, rfl⟩ := hm
    cases l with
    | nil => exact absurd (nil_lt_cons a p) hl
    | cons b l =>
      rw [cons_lt_cons_iff, not_or] at hl
      rw [cons_append, cons_lt_cons_iff] at hlm
      have hab : b = a := by
        rcases hlm with hlt | ⟨heq, -⟩
        · exact absurd hlt hl.1
        · exact heq
      subst hab
      have hlt : l < p ++ t := hlm.elim (fun h => absurd h (lt_irrefl b)) And.right
      have hnot : ¬ l < p := fun h => hl.2 ⟨rfl, h⟩
      obtain ⟨s, rfl⟩ := ih hnot hlt (List.prefix_append p t)
      exact ⟨s, rfl⟩

/-! ## Scans -/

namespace OrdMap

/-- Skip the bindings whose key is below `start`. -/
def fromKey (start : α) (l : List (α × β)) : List (α × β) := l.filter fun e => !decide (e.1 < start)

theorem fromKey_cons_of_lt {start : α} {e : α × β} (h : e.1 < start) (l : List (α × β)) :
    fromKey start (e :: l) = fromKey start l := filter_cons_of_neg (by simp [h])

theorem fromKey_cons_of_not_lt {start : α} {e : α × β} (h : ¬ e.1 < start) (l : List (α × β)) :
    fromKey start (e :: l) = e :: fromKey start l := filter_cons_of_pos (by simp [h])

/-- The bindings whose key is not below `start`, in increasing order of their keys. -/
def range (m : OrdMap α β) (start : α) : List (α × β) := fromKey start m.toList

/-- The bindings whose key starts with `p`, in increasing order of their keys. -/
def startingWith (m : OrdMap (List α) β) (p : List α) : List (List α × β) :=
  m.toList.filter fun e => p.isPrefixOf e.1

theorem mem_startingWith {m : OrdMap (List α) β} {p k : List α} {v : β} :
    (k, v) ∈ m.startingWith p ↔ m.get? k = some v ∧ p <+: k := by
  rw [startingWith, mem_filter, get?_eq_some, List.isPrefixOf_iff_prefix]

theorem startingWith_sorted (m : OrdMap (List α) β) (p : List α) :
    (m.startingWith p).Pairwise fun a b => a.1 < b.1 := m.sorted.filter _

theorem takeWhile_fromKey {l : List (List α × β)} (p : List α)
    (hl : l.Pairwise fun a b => a.1 < b.1) : (fromKey p l).takeWhile (fun e => p.isPrefixOf e.1) =
      l.filter fun e => p.isPrefixOf e.1 := by
  induction l with
  | nil => rfl
  | cons e l ih =>
    obtain ⟨he, hl'⟩ := pairwise_cons.1 hl
    by_cases hp : p.isPrefixOf e.1 = true
    · have hnot : ¬ e.1 < p := not_lt_of_isPrefix (List.isPrefixOf_iff_prefix.1 hp)
      rw [fromKey_cons_of_not_lt hnot, takeWhile_cons, filter_cons, if_pos hp, if_pos hp, ih hl']
    rw [filter_cons, if_neg hp]
    by_cases hlt : e.1 < p
    · rw [fromKey_cons_of_lt hlt]
      exact ih hl'
    -- the run of `p` is over: a later key that starts with `p` would put `e` into it
    rw [fromKey_cons_of_not_lt hlt, takeWhile_cons, if_neg hp]
    refine (filter_eq_nil_iff.2 fun f hf hpf => hp ?_).symm
    refine List.isPrefixOf_iff_prefix.2 ?_
    exact isPrefix_of_between hlt (he f hf) (List.isPrefixOf_iff_prefix.1 hpf)

theorem takeWhile_range (m : OrdMap (List α) β) (p : List α) :
    (m.range p).takeWhile (fun e => p.isPrefixOf e.1) = m.startingWith p :=
  takeWhile_fromKey p m.sorted

theorem get?_foldl_insert_pairs {l : List (α × β)} (hl : l.Pairwise fun a b => a.1 < b.1)
    (m : OrdMap α β) (k : α) (v : β) : (l.foldl (fun m e => m.insert e.1 e.2) m).get? k = some v ↔
      (k, v) ∈ l ∨ (m.get? k = some v ∧ ∀ e ∈ l, e.1 ≠ k) := by
  induction l generalizing m with
  | nil => simp
  | cons e l ih =>
    obtain ⟨he, hl'⟩ := pairwise_cons.1 hl
    rw [foldl_cons, ih hl', get?_insert, mem_cons]
    by_cases hk : k = e.1
    · subst hk
      have hno : (e.1, v) ∉ l := fun hmem => lt_irrefl e.1 (he (e.1, v) hmem)
      have hne : ∀ e' ∈ l, e'.1 ≠ e.1 := fun e' he' => ne_of_gt (he e' he')
      rw [if_pos rfl]
      constructor
      · rintro (hmem | ⟨hv, -⟩)
        · exact absurd hmem hno
        · cases hv
          exact .inl (.inl rfl)
      rintro ((heq | hmem) | ⟨-, hall⟩)
      · exact .inr ⟨by rw [← heq], hne⟩
      · exact absurd hmem hno
      · exact absurd rfl (hall e mem_cons_self)
    · rw [if_neg hk]
      have hpair : (k, v) ≠ e := fun heq => hk (by rw [← heq])
      constructor
      · rintro (hmem | ⟨hv, hall⟩)
        · exact .inl (.inr hmem)
        · refine .inr ⟨hv, ?_⟩
          intro e' he'
          rcases mem_cons.1 he' with rfl | he'
          · exact fun heq => hk heq.symm
          · exact hall e' he'
      · rintro ((heq | hmem) | ⟨hv, hall⟩)
        · exact absurd heq hpair
        · exact .inl hmem
        · exact .inr ⟨hv, fun e' he' => hall e' (mem_cons_of_mem _ he')⟩

theorem foldl_insert_toList (m : OrdMap α β) :
    m.toList.foldl (fun m e => m.insert e.1 e.2) ∅ = m := by
  refine ext fun k => Option.ext fun v => ?_
  rw [get?_foldl_insert_pairs m.sorted, get?_empty, get?_eq_some]
  simp

end OrdMap

end Sequences

/-! ## Numbers as bytes -/

/-- The `w` low bytes of a number, the lowest first. -/
def leBytes : ℕ → ℕ → List UInt8
  | 0, _ => []
  | w + 1, n => UInt8.ofNat n :: leBytes w (n / 256)

/-- The number with the given bytes, the lowest first. -/
def ofLeBytes : List UInt8 → ℕ
  | [] => 0
  | b :: l => b.toNat + 256 * ofLeBytes l

@[simp] theorem length_leBytes (w n : ℕ) : (leBytes w n).length = w := by
  induction w generalizing n with
  | zero => rfl
  | succ w ih => rw [leBytes, length_cons, ih]

theorem ofLeBytes_leBytes (w n : ℕ) : ofLeBytes (leBytes w n) = n % 256 ^ w := by
  induction w generalizing n with
  | zero => simp [leBytes, ofLeBytes, Nat.mod_one]
  | succ w ih =>
    have hbyte : (UInt8.ofNat n).toNat = n % 256 := UInt8.toNat_ofNat'
    rw [leBytes, ofLeBytes, ih, hbyte, pow_succ', Nat.mod_mul]

/-! ## Chunks -/

/-- A byte string behind its length. The length has 32 bits; what a longer one has
above them is lost. -/
def chunk (bytes : List UInt8) : List UInt8 := leBytes 4 bytes.length ++ bytes

/-- Read one chunk; the rest of the input comes second. -/
def takeChunk (bytes : List UInt8) : Option (List UInt8 × List UInt8) :=
  if bytes.length < 4 then none
  else
    let len := ofLeBytes (bytes.take 4)
    let rest := bytes.drop 4
    if rest.length < len then none else some (rest.take len, rest.drop len)

theorem takeChunk_chunk {bytes : List UInt8} (h : bytes.length < 2 ^ 32) (rest : List UInt8) :
    takeChunk (chunk bytes ++ rest) = some (bytes, rest) := by
  have hlen : ¬ (chunk bytes ++ rest).length < 4 := by simp [chunk]
  have htake : (chunk bytes ++ rest).take 4 = leBytes 4 bytes.length := by
    exact take_left' (length_leBytes 4 _)
  have hdrop : (chunk bytes ++ rest).drop 4 = bytes ++ rest := by
    exact drop_left' (length_leBytes 4 _)
  have hn : ofLeBytes (leBytes 4 bytes.length) = bytes.length := by
    rw [ofLeBytes_leBytes]
    exact Nat.mod_eq_of_lt h
  rw [takeChunk, if_neg hlen]
  simp only [htake, hdrop, hn]
  rw [if_neg (by simp), take_left' rfl, drop_left' rfl]

theorem takeChunk_length {bytes c rest : List UInt8} (h : takeChunk bytes = some (c, rest)) :
    rest.length + 4 ≤ bytes.length := by
  rw [takeChunk] at h
  split at h
  · cases h
  simp only at h
  split at h
  · cases h
  cases h
  rw [length_drop, length_drop]
  omega

end Brokkr
