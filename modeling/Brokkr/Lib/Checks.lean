import Mathlib.Data.List.Forall2

/-!
# Checks in sequence

Computations that fail at the first check that is not met, and what is known when one of
them has succeeded.
-/

namespace Checks

universe u v

variable {ε : Type u} {α β : Type v}

/-- Fail unless the condition holds. -/
def ensure (c : Prop) [Decidable c] (e : ε) : Except ε Unit := if c then .ok () else .error e

theorem ensure_eq_ok {c : Prop} [Decidable c] {e : ε} {u : Unit} :
    ensure c e = .ok u ↔ c := by
  rw [ensure]
  split <;> simp [*]

theorem bind_eq_ok {x : Except ε α} {f : α → Except ε β} {b : β} :
    x >>= f = .ok b ↔ ∃ a, x = .ok a ∧ f a = .ok b := by
  cases x with
  | error => simp [bind, Except.bind]
  | ok => simp [bind, Except.bind]

theorem mapM_eq_ok {f : α → Except ε β} {l : List α} {out : List β} :
    l.mapM f = .ok out ↔ List.Forall₂ (fun a b => f a = .ok b) l out := by
  induction l generalizing out with
  | nil =>
    rw [List.mapM_nil, List.forall₂_nil_left_iff]
    exact ⟨fun h => (Except.ok.inj h).symm, fun h => congrArg Except.ok h.symm⟩
  | cons a l ih =>
    rw [List.mapM_cons, bind_eq_ok, List.forall₂_cons_left_iff]
    constructor
    · rintro ⟨b, hb, hrest⟩
      obtain ⟨bs, hbs, hout⟩ := bind_eq_ok.1 hrest
      exact ⟨b, bs, hb, ih.1 hbs, (Except.ok.inj hout).symm⟩
    · rintro ⟨b, bs, hb, hbs, rfl⟩
      exact ⟨b, hb, bind_eq_ok.2 ⟨bs, ih.2 hbs, rfl⟩⟩

end Checks
