import Brokkr.Lib.Consensus.Rules

/-!
# The abstract protocol: states and steps

Each node has a term, a log and a commit index.  The rest of a `State` is
history that only grows: who voted for whom with which log, who campaigned with
which log, who was elected in which term, the log each leader built in its term,
how much of it each node has acknowledged, and which prefixes were committed.

Messages are not part of the state.  What a message says is a fact about the
history that stays true (`Grows`), so a step may use any such fact, however long
ago it was established: this is what lost, delayed, duplicated and reordered
messages amount to.

* `Step R n s s'` — one atomic action of node `n`.
* `Grows s s'` — the history of `s` is still true in `s'`.
* `CommittedPrefix` — a log that some leader, of a term not above the given one,
  has committed.
-/

namespace Brokkr.Consensus

open Function

variable {N E C : Type}

/-- A state of the protocol. -/
structure State (N E : Type) where
  term : N → ℕ
  log : N → List E
  commit : N → ℕ
  vote : N → ℕ → Option N
  ballot : N → ℕ → List E
  cand : N → ℕ → Option (List E)
  leader : ℕ → Option N
  electors : ℕ → Set N
  elog : ℕ → List E
  llog : ℕ → List E
  acked : N → ℕ → ℕ
  committed : ℕ → ℕ → Prop

namespace State

/-- The state in which nothing has happened. -/
def init : State N E where
  term := fun _ => 0
  log := fun _ => []
  commit := fun _ => 0
  vote := fun _ _ => none
  ballot := fun _ _ => []
  cand := fun _ _ => none
  leader := fun _ => none
  electors := fun _ => ∅
  elog := fun _ => []
  llog := fun _ => []
  acked := fun _ _ => 0
  committed := fun _ _ => False

/-- `p` was committed by the leader of some term up to `t`. -/
def CommittedPrefix (s : State N E) (t : ℕ) (p : List E) : Prop :=
  p = [] ∨ ∃ u k, u ≤ t ∧ s.committed u k ∧ p <+: (s.llog u).take k

theorem CommittedPrefix.mono {s : State N E} {t t' : ℕ} {p q : List E}
    (h : s.CommittedPrefix t p) (ht : t ≤ t') (hq : q <+: p) : s.CommittedPrefix t' q := by
  rcases h with rfl | ⟨u, k, hu, hc, hp⟩
  · exact .inl (List.prefix_nil.1 hq)
  · exact .inr ⟨u, k, hu.trans ht, hc, hq.trans hp⟩

variable [DecidableEq N]

/-! ## Updates -/

variable (s : State N E)

/-- Move to a later term. -/
def bump (n : N) (t : ℕ) : State N E := { s with term := update s.term n t }

/-- Cast the vote of the current term. -/
def castVote (n : N) (c : N) : State N E :=
  { s with
    vote := update s.vote n (update (s.vote n) (s.term n) (some c))
    ballot := update s.ballot n (update (s.ballot n) (s.term n) (s.log n)) }

/-- Become a candidate of the current term. -/
def stand (n : N) : State N E :=
  { s with cand := update s.cand n (update (s.cand n) (s.term n) (some (s.log n))) }

/-- Take office in the current term. -/
def elect (n : N) : State N E :=
  { s with
    leader := update s.leader (s.term n) (some n)
    electors := update s.electors (s.term n) {v | s.vote v (s.term n) = some n}
    elog := update s.elog (s.term n) (s.log n)
    llog := update s.llog (s.term n) (s.log n) }

/-- Append to the log of the leader of the current term. -/
def extend (n : N) (e : E) : State N E :=
  { s with
    log := update s.log n (s.log n ++ [e])
    llog := update s.llog (s.term n) (s.log n ++ [e]) }

/-- Replace the log. -/
def setLog (n : N) (l : List E) : State N E :=
  { s with log := update s.log n l }

/-- Acknowledge the leader's log of the current term up to length `k`. -/
def ack (n : N) (k : ℕ) : State N E :=
  { s with
    acked := update s.acked n
      (update (s.acked n) (s.term n) (max (s.acked n (s.term n)) k)) }

/-- Set the commit index. -/
def setCommit (n : N) (k : ℕ) : State N E :=
  { s with commit := update s.commit n k }

/-- Record that the leader of the current term committed its log up to `k`. -/
def markCommitted (n : N) (k : ℕ) : State N E :=
  { s with committed := fun t j => s.committed t j ∨ (t = s.term n ∧ j = k) }

end State

/-! ## Steps -/

section

variable [DecidableEq N]

/-- One atomic action of node `n`. -/
inductive Step (R : Rules N E C) (n : N) : State N E → State N E → Prop
  | bump {s : State N E} (t : ℕ) (h : s.term n < t) : Step R n s (s.bump n t)
  | campaign {s : State N E} (t : ℕ) (h : s.term n < t) :
      Step R n s (((s.bump n t).castVote n n).stand n)
  | grant {s : State N E} (c : N) (l : List E) (hv : s.vote n (s.term n) = none)
      (hc : s.cand c (s.term n) = some l) (hu : R.UpToDate l (s.log n)) :
      Step R n s (s.castVote n c)
  | elect {s : State N E} (hc : s.cand n (s.term n) = some (s.log n))
      (hl : s.leader (s.term n) ≠ some n)
      (hq : R.Quorum (R.active (s.log n)) {v | s.vote v (s.term n) = some n}) :
      Step R n s (s.elect n)
  | extend {s : State N E} (e : E) (hl : s.leader (s.term n) = some n)
      (ht : R.term e = s.term n) (ha : R.Admits (s.log n) e)
      (hc : R.conf e ≠ none → (R.trim (s.log n)).length ≤ s.commit n) :
      Step R n s (s.extend n e)
  | adopt {s : State N E} (l : List E) (hl : s.leader (s.term n) ≠ none)
      (hp : l <+: s.llog (s.term n))
      (hk : ∀ p, p <+: s.log n → p <+: s.llog (s.term n) → p <+: l) :
      Step R n s (s.setLog n l)
  | ack {s : State N E} (k : ℕ) (hl : s.leader (s.term n) ≠ none)
      (hk : k ≤ (s.llog (s.term n)).length)
      (hp : (s.llog (s.term n)).take k <+: s.log n) : Step R n s (s.ack n k)
  | commit {s : State N E} (p : List E) (e : E) (hl : s.leader (s.term n) = some n)
      (hp : p ++ [e] <+: s.log n) (ht : R.term e = s.term n)
      (hc : s.commit n ≤ (p ++ [e]).length)
      (hq : R.Quorum (R.active (s.log n)) {v | (p ++ [e]).length ≤ s.acked v (s.term n)}) :
      Step R n s ((s.markCommitted n (p ++ [e]).length).setCommit n (p ++ [e]).length)
  | learn {s : State N E} (k : ℕ) (hc : s.commit n ≤ k) (hk : k ≤ (s.log n).length)
      (hp : s.CommittedPrefix (s.term n) ((s.log n).take k)) : Step R n s (s.setCommit n k)
/-- Any number of actions of node `n`. -/
def Steps (R : Rules N E C) (n : N) : State N E → State N E → Prop :=
  Relation.ReflTransGen (Step R n)

end

/-! ## Growth -/

/-- The history of `s` is still true in `s'`. -/
structure Grows (s s' : State N E) : Prop where
  term : ∀ n, s.term n ≤ s'.term n
  vote : ∀ {n t c}, s.vote n t = some c → s'.vote n t = some c
  cand : ∀ {n t l}, s.cand n t = some l → s'.cand n t = some l
  leader : ∀ {t n}, s.leader t = some n → s'.leader t = some n
  elog : ∀ {t}, s.leader t ≠ none → s'.elog t = s.elog t
  electors : ∀ {t}, s.leader t ≠ none → s'.electors t = s.electors t
  llog : ∀ t, s.llog t <+: s'.llog t
  acked : ∀ n t, s.acked n t ≤ s'.acked n t
  committed : ∀ {t k}, s.committed t k → s'.committed t k

namespace Grows

theorem refl (s : State N E) : Grows s s :=
  ⟨fun _ => le_rfl, id, id, id, fun _ => rfl, fun _ => rfl, fun _ => List.prefix_rfl,
    fun _ _ => le_rfl, id⟩

theorem leader_ne {s s' : State N E} (h : Grows s s') {t : ℕ} (ht : s.leader t ≠ none) :
    s'.leader t ≠ none := by
  obtain ⟨n, hn⟩ := Option.ne_none_iff_exists'.1 ht
  rw [h.leader hn]
  simp

theorem trans {s₁ s₂ s₃ : State N E} (h : Grows s₁ s₂) (h' : Grows s₂ s₃) : Grows s₁ s₃ where
  term n := (h.term n).trans (h'.term n)
  vote hv := h'.vote (h.vote hv)
  cand hc := h'.cand (h.cand hc)
  leader hl := h'.leader (h.leader hl)
  elog hl := (h'.elog (h.leader_ne hl)).trans (h.elog hl)
  electors hl := (h'.electors (h.leader_ne hl)).trans (h.electors hl)
  llog t := (h.llog t).trans (h'.llog t)
  acked n t := (h.acked n t).trans (h'.acked n t)
  committed hc := h'.committed (h.committed hc)

end Grows

end Brokkr.Consensus
