import Mathlib

/-!
# Doubly linked lists

The links of an intrusive doubly linked list: every node has a link to the node
before it and to the node after it, and the list has a head and a tail.

* `Links.Linked` — the links are those of the list `order`: the neighbours of a node
  are the last node before it and the first one after it.
* `Linked.pushFront`, `Linked.unlink` — what the two operations do to the list.
* `Linked.congr` — only the links of the nodes in the list matter.
-/

namespace Brokkr

open Function

open List

/-- The links of a doubly linked list with nodes in `ι`. -/
@[ext]
structure Links (ι : Type) where
  prev : ι → Option ι
  next : ι → Option ι
  head : Option ι
  tail : Option ι

namespace Links

variable {ι : Type}

section Operations

variable [DecidableEq ι]

/-- Put a node in front of the others. -/
def pushFront (L : Links ι) (i : ι) : Links ι where
  prev := match L.head with
    | some h => update (update L.prev i none) h (some i)
    | none => update L.prev i none
  next := update L.next i L.head
  head := some i
  tail := if L.tail = none then some i else L.tail

/-- Take a node out: its neighbours are linked to each other. -/
def unlink (L : Links ι) (i : ι) : Links ι where
  prev := match L.next i with
    | some n => update L.prev n (L.prev i)
    | none => L.prev
  next := match L.prev i with
    | some p => update L.next p (L.next i)
    | none => L.next
  head := if L.prev i = none then L.next i else L.head
  tail := if L.next i = none then L.prev i else L.tail

end Operations

/-- The links are those of the list `order`. -/
structure Linked (L : Links ι) (order : List ι) : Prop where
  nodup : order.Nodup
  head : L.head = order.head?
  tail : L.tail = order.getLast?
  /-- The neighbours of a node. -/
  neighbours : ∀ l i r, order = l ++ i :: r → L.prev i = l.getLast? ∧ L.next i = r.head?

theorem linked_nil {L : Links ι} (hhead : L.head = none) (htail : L.tail = none) :
    L.Linked [] where
  nodup := nodup_nil
  head := hhead
  tail := htail
  neighbours l i r h := by simp at h

namespace Linked

variable {L L' : Links ι} {order l r : List ι} {i : ι}

theorem congr (h : L.Linked order) (hhead : L'.head = L.head) (htail : L'.tail = L.tail)
    (hprev : ∀ i ∈ order, L'.prev i = L.prev i) (hnext : ∀ i ∈ order, L'.next i = L.next i) :
    L'.Linked order where
  nodup := h.nodup
  head := hhead.trans h.head
  tail := htail.trans h.tail
  neighbours l i r horder := by
    have hi : i ∈ order := by simp [horder]
    rw [hprev i hi, hnext i hi]
    exact h.neighbours l i r horder

variable [DecidableEq ι]

theorem pushFront (h : L.Linked order) (hi : i ∉ order) : (L.pushFront i).Linked (i :: order) where
  nodup := nodup_cons.2 ⟨hi, h.nodup⟩
  head := rfl
  tail := by
    rw [Links.pushFront, h.tail]
    cases order with
    | nil => rfl
    | cons => simp [getLast?_cons_cons]
  neighbours l j r horder := by
    cases l with
    | nil =>
      -- the new node: nothing is before it, the old head is after it
      obtain ⟨rfl, rfl⟩ : i = j ∧ order = r := by simpa using horder
      have hne : L.head ≠ some i := by
        rw [h.head]
        exact fun heq => hi (mem_of_mem_head? heq)
      constructor
      · rw [Links.pushFront]
        cases hhead : L.head with
        | none => simp
        | some a =>
          have hia : i ≠ a := fun heq => hne (by rw [hhead, heq])
          simp [update_of_ne hia]
      · simp [Links.pushFront, h.head]
    | cons a l =>
      obtain ⟨rfl, rfl⟩ : i = a ∧ order = l ++ j :: r := by simpa using horder
      obtain ⟨hprev, hnext⟩ := h.neighbours l j r rfl
      have hji : j ≠ i := fun heq => hi (by simp [heq])
      have hnodup := h.nodup
      constructor
      · cases l with
        | nil =>
          -- the old head: the new node is before it
          have hhead : L.head = some j := h.head
          rw [Links.pushFront, hhead]
          simp
        | cons b =>
          have hhead : L.head = some b := h.head
          have hjb : j ≠ b := by
            rintro rfl
            simp at hnodup
          rw [Links.pushFront, hhead]
          simp only [update_of_ne hjb, update_of_ne hji, hprev]
          rw [getLast?_cons_cons]
      · simp only [Links.pushFront, update_of_ne hji, hnext]

theorem unlink_after {m : List ι} {j : ι} (h : L.Linked (l ++ i :: (m ++ j :: r))) :
    (L.unlink i).prev j = (l ++ m).getLast? ∧ (L.unlink i).next j = r.head? := by
  obtain ⟨hprev, hnext⟩ := h.neighbours l i (m ++ j :: r) rfl
  obtain ⟨hprevj, hnextj⟩ := h.neighbours (l ++ i :: m) j r (by simp)
  have hnodup := h.nodup
  constructor
  · cases m with
    | nil =>
      -- it was the next one: it takes over the link to the one before
      have hj : L.next i = some j := hnext
      simp [Links.unlink, hj, hprev]
    | cons a =>
      have ha : L.next i = some a := hnext
      have hja : j ≠ a := by
        rintro rfl
        have := (nodup_cons.1 (nodup_cons.1 (List.Nodup.of_append_right hnodup)).2).1
        simp at this
      simp [Links.unlink, ha, update_of_ne hja, hprevj, getLast?_append]
  · cases hp : l.getLast? with
    | none => simp [Links.unlink, hprev, hp, hnextj]
    | some p =>
      have hpl : p ∈ l := mem_of_getLast? hp
      have hjp : j ≠ p := by
        rintro rfl
        have := disjoint_of_nodup_append hnodup hpl
        simp at this
      simp [Links.unlink, hprev, hp, update_of_ne hjp, hnextj]

theorem unlink_before {m : List ι} {j : ι} (h : L.Linked (l ++ j :: (m ++ i :: r))) :
    (L.unlink i).prev j = l.getLast? ∧ (L.unlink i).next j = (m ++ r).head? := by
  obtain ⟨hprev, hnext⟩ := h.neighbours (l ++ j :: m) i r (by simp)
  obtain ⟨hprevj, hnextj⟩ := h.neighbours l j (m ++ i :: r) rfl
  have hnodup := h.nodup
  constructor
  · cases hn : r.head? with
    | none => simp [Links.unlink, hnext, hn, hprevj]
    | some n =>
      have hnr : n ∈ r := mem_of_mem_head? hn
      have hjn : j ≠ n := by
        rintro rfl
        have := (nodup_cons.1 (List.Nodup.of_append_right hnodup)).1
        simp [hnr] at this
      simp [Links.unlink, hnext, hn, update_of_ne hjn, hprevj]
  · cases hm : m.getLast? with
    | none =>
      -- it was the one before: it takes over the link to the next one
      have hnil : m = [] := getLast?_eq_none_iff.1 hm
      subst hnil
      have hj : L.prev i = some j := by simpa using hprev
      simp [Links.unlink, hj, hnext]
    | some a =>
      have ham : a ∈ m := mem_of_getLast? hm
      have ha : L.prev i = some a := by
        rw [hprev, getLast?_append, getLast?_cons, hm]
        simp
      have hja : j ≠ a := by
        rintro rfl
        have := (nodup_cons.1 (List.Nodup.of_append_right hnodup)).1
        simp [ham] at this
      have hne : m ≠ [] := ne_nil_of_mem ham
      obtain ⟨b, m', rfl⟩ := exists_cons_of_ne_nil hne
      simp [Links.unlink, ha, update_of_ne hja, hnextj]

theorem unlink (h : L.Linked (l ++ i :: r)) : (L.unlink i).Linked (l ++ r) := by
  obtain ⟨hprev, hnext⟩ := h.neighbours l i r rfl
  have hnodup : (i :: (l ++ r)).Nodup := nodup_middle.1 h.nodup
  refine ⟨(nodup_cons.1 hnodup).2, ?_, ?_, ?_⟩
  · rw [Links.unlink, hprev, hnext, h.head]
    cases l with
    | nil => simp
    | cons => simp [getLast?_cons]
  · rw [Links.unlink, hprev, hnext, h.tail]
    cases r with
    | nil => simp
    | cons => simp [getLast?_append]
  intro l' j r' horder
  rcases append_eq_append_iff.1 horder with ⟨m, rfl, rfl⟩ | ⟨m, rfl, hr⟩
  · exact h.unlink_after
  cases m with
  | nil =>
    obtain rfl : j :: r' = r := hr
    rw [append_nil] at h
    have := unlink_after (m := []) h
    rwa [append_nil] at this
  | cons a m =>
    obtain ⟨rfl, rfl⟩ : j = a ∧ r' = m ++ r := by simpa using hr
    rw [append_assoc, cons_append] at h
    exact h.unlink_before

end Linked

end Links

end Brokkr
