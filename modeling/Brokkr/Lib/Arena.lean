import Mathlib.Data.List.Induction
import Mathlib.Data.Option.Basic
import Mathlib.Data.Nat.Notation
import Mathlib.Tactic.Common

/-!
# Trees in an arena

Nodes are numbered from one in the order in which they are made, and a node is linked
under a key from a node that was made before it.

* `Arena` — how many nodes there are, and the links.
* `Arena.resolve` — follow keys from a node.
* `Grown A₀ A p` — `A` has the nodes of `A₀` and new ones, each of them linked from exactly
  one place, `p` or a new node; no other node of `A₀` has changed.
* `Grown.child` — a new node is linked from `p` and has grown itself.
* `Grown.existsUnique_path` — from the root there is exactly one path to each node.
-/

/-- Numbered nodes and their links. -/
structure Arena (κ : Type) where
  size : ℕ
  edge : ℕ → κ → Option ℕ

namespace Arena

variable {i j : ℕ}

variable {κ : Type}

/-- Follow keys from a node. -/
def resolve (A : Arena κ) : ℕ → List κ → Option ℕ
  | i, [] => some i
  | i, k :: path => (A.edge i k).bind fun j => A.resolve j path

theorem resolve_append_singleton (A : Arena κ) (i : ℕ) (path : List κ) (k : κ) :
    A.resolve i (path ++ [k]) = (A.resolve i path).bind fun j => A.edge j k := by
  induction path generalizing i with
  | nil =>
    show (A.edge i k).bind some = A.edge i k
    cases A.edge i k <;> rfl
  | cons k' path ih =>
    rw [List.cons_append, resolve, resolve]
    cases A.edge i k' with
    | none => rfl
    | some j => exact ih j

theorem resolve_congr {A B : Arena κ} {S : ℕ → Prop}
    (hagree : ∀ i, S i → ∀ k, B.edge i k = A.edge i k)
    (hclosed : ∀ i k j, S i → A.edge i k = some j → S j) (hi : S i) (path : List κ) :
    B.resolve i path = A.resolve i path ∧ ∀ j, A.resolve i path = some j → S j := by
  induction path generalizing i with
  | nil =>
    refine ⟨rfl, ?_⟩
    rintro j ⟨⟩
    exact hi
  | cons k path ih =>
    rw [resolve, resolve, hagree i hi k]
    cases hedge : A.edge i k with
    | none => exact ⟨rfl, nofun⟩
    | some j => exact ih (hclosed i k j hi hedge)

variable {A₀ A A' : Arena κ} {p : ℕ} {k : κ}

/-- An arena has grown below one of its nodes. -/
structure Grown (A₀ A : Arena κ) (p : ℕ) : Prop where
  size_le : A₀.size ≤ A.size
  frame : ∀ i, i ≤ A₀.size → i ≠ p → ∀ k, A.edge i k = A₀.edge i k
  target : ∀ i k j, i = p ∨ A₀.size < i → A.edge i k = some j → A₀.size < j ∧ i < j ∧ j ≤ A.size
  linked : ∀ j, A₀.size < j → j ≤ A.size → ∃ i k, (i = p ∨ A₀.size < i) ∧ A.edge i k = some j
  once : ∀ {j i k i' k'}, i = p ∨ A₀.size < i → A.edge i k = some j →
    i' = p ∨ A₀.size < i' → A.edge i' k' = some j → i' = i ∧ k' = k

theorem Grown.refl (hnone : ∀ k, A.edge p k = none)
    (hbeyond : ∀ i k, A.size < i → A.edge i k = none) : Grown A A p := by
  have hno : ∀ i k j, i = p ∨ A.size < i → A.edge i k ≠ some j := by
    rintro i k j (rfl | hi) hedge
    · rw [hnone k] at hedge
      cases hedge
    · rw [hbeyond i k hi] at hedge
      cases hedge
  exact ⟨Nat.le_refl _, fun _ _ _ _ => rfl, fun i k j hi hedge => absurd hedge (hno i k j hi),
    fun j hlt hle => absurd hlt (Nat.not_lt.2 hle),
    fun hi hedge => absurd hedge (hno _ _ _ hi)⟩

section Link

variable [DecidableEq κ]

/-- Make a node and link it. -/
def link (A : Arena κ) (p : ℕ) (k : κ) : Arena κ where
  size := A.size + 1
  edge i k' := if i = p ∧ k' = k then some (A.size + 1) else A.edge i k'

theorem edge_link_of_ne (A : Arena κ) (hi : i ≠ p) (k' : κ) :
    (A.link p k).edge i k' = A.edge i k' :=
  if_neg fun h => hi h.1

theorem edge_link_self {k' : κ} (h : (A.link p k).edge p k' = some j) :
    (k' = k ∧ j = A.size + 1) ∨ A.edge p k' = some j := by
  rw [link] at h
  dsimp only at h
  split at h
  · rename_i hk
    exact .inl ⟨hk.2, (Option.some.inj h).symm⟩
  · exact .inr h

theorem Grown.edge_cases (h : Grown A₀ A p) (hp : p ≤ A₀.size)
    (h' : Grown (A.link p k) A' (A.size + 1)) {k' : κ} (hi : i = p ∨ A₀.size < i)
    (hedge : A'.edge i k' = some j) : (i = p ∧ k' = k ∧ j = A.size + 1) ∨
    ((i = p ∨ A₀.size < i) ∧ i ≤ A.size ∧ A.edge i k' = some j) ∨
    ((i = A.size + 1 ∨ A.size + 1 < i) ∧ A.size + 1 < j) := by
  by_cases hnew : i = A.size + 1 ∨ A.size + 1 < i
  · exact .inr (.inr ⟨hnew, (h'.target i k' j hnew hedge).1⟩)
  have hsmall : i ≤ A.size := by omega
  have hframe := h'.frame i (show i ≤ A.size + 1 by omega) (by omega) k'
  rw [hframe] at hedge
  by_cases hip : i = p
  · subst hip
    rcases edge_link_self hedge with ⟨rfl, rfl⟩ | hold
    · exact .inl ⟨rfl, rfl, rfl⟩
    · exact .inr (.inl ⟨Or.inl rfl, hsmall, hold⟩)
  · rw [edge_link_of_ne A hip] at hedge
    exact .inr (.inl ⟨hi, hsmall, hedge⟩)

theorem Grown.edge_of_old (hfresh : A.edge p k = none) (h' : Grown (A.link p k) A' (A.size + 1))
    {k' : κ} (hi : i ≤ A.size) (hedge : A.edge i k' = some j) : A'.edge i k' = some j := by
  rw [h'.frame i (show i ≤ A.size + 1 by omega) (by omega) k']
  by_cases hip : i = p ∧ k' = k
  · rw [hip.1, hip.2, hfresh] at hedge
    cases hedge
  · exact (if_neg hip).trans hedge

/-- **A new node is linked and grows.** -/
theorem Grown.child (h : Grown A₀ A p) (hp : p ≤ A₀.size) (hfresh : A.edge p k = none)
    (h' : Grown (A.link p k) A' (A.size + 1)) : Grown A₀ A' p := by
  have hle := h.size_le
  have hle' : A.size + 1 ≤ A'.size := h'.size_le
  have hlinked : A'.edge p k = some (A.size + 1) := by
    rw [h'.frame p (show p ≤ A.size + 1 by omega) (by omega)]
    exact if_pos ⟨rfl, rfl⟩
  refine ⟨by omega, fun i hi hne k' => ?_, fun i k' j hi hedge => ?_, fun j hlt hj => ?_, ?_⟩
  · rw [h'.frame i (show i ≤ A.size + 1 by omega) (by omega), edge_link_of_ne A hne]
    exact h.frame i hi hne k'
  · rcases h.edge_cases hp h' hi hedge with ⟨rfl, -, rfl⟩ | ⟨hi, -, hold⟩ | ⟨hnew, -⟩
    · omega
    · have := h.target i k' j hi hold
      omega
    · have htarget := h'.target i k' j hnew hedge
      omega
  · -- a new node is the linked one, one made before it, or one made after it
    rcases Nat.lt_trichotomy j (A.size + 1) with hold | rfl | hnew
    · obtain ⟨i, k', hi, hedge⟩ := h.linked j hlt (by omega)
      have hij := h.target i k' j hi hedge
      exact ⟨i, k', hi, h'.edge_of_old hfresh (by omega) hedge⟩
    · exact ⟨p, k, Or.inl rfl, hlinked⟩
    · obtain ⟨i, k', hi, hedge⟩ := h'.linked j hnew hj
      have hsize : (A.link p k).size = A.size + 1 := rfl
      exact ⟨i, k', by omega, hedge⟩
  · intro j i k₁ i' k₂ hi hedge hi' hedge'
    rcases h.edge_cases hp h' hi hedge with ⟨rfl, rfl, rfl⟩ | ⟨hi, -, hold⟩ | ⟨hnew, hj⟩
    · rcases h.edge_cases hp h' hi' hedge' with ⟨rfl, rfl, -⟩ | ⟨hi', -, hold'⟩ | ⟨-, hj'⟩
      · exact ⟨rfl, rfl⟩
      · have := h.target i' k₂ _ hi' hold'
        omega
      · omega
    · have hj := h.target i k₁ j hi hold
      rcases h.edge_cases hp h' hi' hedge' with ⟨-, -, rfl⟩ | ⟨hi', -, hold'⟩ | ⟨-, hj'⟩
      · omega
      · exact h.once hi hold hi' hold'
      · omega
    · rcases h.edge_cases hp h' hi' hedge' with ⟨-, -, rfl⟩ | ⟨hi', -, hold'⟩ | ⟨hnew', -⟩
      · omega
      · have := h.target i' k₂ j hi' hold'
        omega
      · exact h'.once hnew hedge hnew' hedge'

end Link

/-! ## Paths from the root -/

/-- The arena with a root only. -/
def root (κ : Type) : Arena κ := ⟨1, fun _ _ => none⟩

theorem Grown.mem_of_resolve (h : Grown (root κ) A 1) {path : List κ}
    (hpath : A.resolve 1 path = some i) : 1 ≤ i ∧ i ≤ A.size := by
  induction path using List.reverseRecOn generalizing i with
  | nil =>
    cases hpath
    exact ⟨Nat.le_refl 1, h.size_le⟩
  | append_singleton path k ih =>
    rw [resolve_append_singleton] at hpath
    obtain ⟨i', hi', hedge⟩ := Option.bind_eq_some_iff.1 hpath
    have htarget := h.target i' k i ((Nat.eq_or_lt_of_le (ih hi').1).imp_left Eq.symm) hedge
    exact ⟨Nat.le_of_lt htarget.1, htarget.2.2⟩

/-- **There is exactly one path to each node.** -/
theorem Grown.existsUnique_path (h : Grown (root κ) A 1) (hpos : 1 ≤ j) (hj : j ≤ A.size) :
    ∃! path, A.resolve 1 path = some j := by
  induction j using Nat.strongRecOn with
  | ind j ih =>
    -- a path that is not empty ends with the one link to its node
    have hlast : ∀ path k, A.resolve 1 (path ++ [k]) = some j →
        ∃ i, A.resolve 1 path = some i ∧ A.edge i k = some j := by
      intro path k hpath
      rw [resolve_append_singleton] at hpath
      exact Option.bind_eq_some_iff.1 hpath
    have hreached : ∀ path i, A.resolve 1 path = some i → i = 1 ∨ 1 < i :=
      fun path i hi => (Nat.eq_or_lt_of_le (h.mem_of_resolve hi).1).imp_left Eq.symm
    rcases Nat.eq_or_lt_of_le hpos with rfl | hlt
    · refine ⟨[], rfl, fun path hpath => ?_⟩
      cases path using List.reverseRecOn with
      | nil => rfl
      | append_singleton path k =>
        obtain ⟨i, hi, hedge⟩ := hlast path k hpath
        have := (h.target i k 1 (hreached path i hi) hedge).1
        exact absurd this (Nat.lt_irrefl 1)
    obtain ⟨i, k, hi, hedge⟩ := h.linked j hlt hj
    have hij := h.target i k j hi hedge
    obtain ⟨path, hpath, huniq⟩ := ih i hij.2.1 (by omega) (by omega)
    refine ⟨path ++ [k], ?_, fun path' hpath' => ?_⟩
    · show A.resolve 1 (path ++ [k]) = some j
      rw [resolve_append_singleton, hpath]
      exact hedge
    cases path' using List.reverseRecOn with
    | nil =>
      have heq : 1 = j := Option.some.inj hpath'
      omega
    | append_singleton path' k' =>
      obtain ⟨i', hi', hedge'⟩ := hlast path' k' hpath'
      obtain ⟨rfl, rfl⟩ := h.once hi hedge (hreached path' i' hi') hedge'
      rw [huniq path' hi']

end Arena
