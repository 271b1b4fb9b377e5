import Brokkr.Lib.Consensus.State

/-!
# The invariant of the abstract protocol

What holds of every state the protocol reaches, as one structure (`Inv`), and
what follows from it within one state.

* `Anchored` — every prefix of a log that ends in an entry of term `t` is a
  prefix of the log the leader of `t` built.  Log Matching (`Anchored.matching`)
  is a consequence.
* `Keeps` — whatever a node acknowledged it still has, unless a later leader was
  elected without it.
* `Evidence` — the quorum of acknowledgements behind a commitment, and the log
  whose configuration it is a quorum of.
* `Preceded` — a configuration is appended only once the one before it is
  committed.
* `Inv.committed_llog`, `Inv.committed_elog` — committed prefixes are in the
  logs of the leaders of this term and of later ones.
-/

namespace Brokkr.Consensus

open List

variable {α : Type} {t : ℕ}

variable {N E C : Type} {R : Rules N E C}

/-! ## Lists -/

theorem prefix_or_lt {l m r : List α} (hl : l <+: r) (hm : m <+: r) :
    l <+: m ∨ (m <+: l ∧ m.length < l.length) := by
  rcases le_or_gt l.length m.length with h | h
  · exact .inl (List.prefix_of_prefix_length_le hl hm h)
  · exact .inr ⟨List.prefix_of_prefix_length_le hm hl h.le, h⟩

theorem take_eq_of_isPrefix {l m : List α} (h : l <+: m) {k : ℕ} (hk : k ≤ l.length) :
    m.take k = l.take k := by
  obtain ⟨r, rfl⟩ := h
  rw [take_append_of_le_length hk]

theorem concat_prefix_concat {p l : List α} {a b : α} (h : p ++ [a] <+: l ++ [b]) :
    (p = l ∧ a = b) ∨ p ++ [a] <+: l :=
  (List.prefix_concat_iff.1 h).imp_left fun heq => by simpa using append_inj' heq rfl

/-! ## The parts of the invariant -/

/-- Every prefix that ends in an entry of term `t` is a prefix of the log of the
leader of `t`. -/
def Anchored (R : Rules N E C) (s : State N E) (l : List E) : Prop :=
  ∀ p e, p ++ [e] <+: l → s.leader (R.term e) ≠ none ∧ p ++ [e] <+: s.llog (R.term e)

/-- Each prefix of the leader's log of term `t` that node `n` acknowledged is in
`l`, unless a leader of a later term below `T` was elected without it. -/
def Keeps (s : State N E) (n : N) (l : List E) (T t : ℕ) : Prop :=
  ∀ k ≤ s.acked n t, (s.llog t).take k <+: l ∨
    ∃ u, t < u ∧ u < T ∧ s.leader u ≠ none ∧ ¬ (s.llog t).take k <+: s.llog u

/-- A quorum of the configuration in force in `l` acknowledged the leader's log
of term `t` up to length `k`, where its entry is one of term `t`. -/
def Evidence (R : Rules N E C) (s : State N E) (t k : ℕ) (l : List E) : Prop :=
  ∃ p e, p ++ [e] <+: l ∧ l <+: s.llog t ∧ (p ++ [e]).length = k ∧ R.term e = t ∧
    R.Quorum (R.active l) {v | k ≤ s.acked v t}

/-- The configurations in `p` were committed when `e` was appended to it: by an
earlier leader, or by the same one on evidence that did not yet hold `e`. -/
def Preceded (R : Rules N E C) (s : State N E) (p : List E) (e : E) : Prop :=
  R.trim p = [] ∨ ∃ u k l, s.committed u k ∧ Evidence R s u k l ∧
    R.trim p <+: (s.llog u).take k ∧ (u < R.term e ∨ (u = R.term e ∧ l <+: p))

/-- The invariant. -/
structure Inv (R : Rules N E C) (s : State N E) : Prop where
  vote_le : ∀ {n t c}, s.vote n t = some c → t ≤ s.term n
  cand_le : ∀ {n t l}, s.cand n t = some l → t ≤ s.term n
  cand_lt : ∀ {n t l}, s.cand n t = some l → ∀ e ∈ l, R.term e < t
  cand_anchored : ∀ {n t l}, s.cand n t = some l → Anchored R s l
  log_le : ∀ n, ∀ e ∈ s.log n, R.term e ≤ s.term n
  log_anchored : ∀ n, Anchored R s (s.log n)
  log_kept : ∀ n t, Keeps s n (s.log n) (s.term n + 1) t
  ballot_upToDate : ∀ {n t c}, s.vote n t = some c →
    ∃ l, s.cand c t = some l ∧ R.UpToDate l (s.ballot n t)
  ballot_anchored : ∀ {n t c}, s.vote n t = some c → Anchored R s (s.ballot n t)
  ballot_kept : ∀ {n T c}, s.vote n T = some c → ∀ t < T, Keeps s n (s.ballot n T) (T + 1) t
  leader_cand : ∀ {t n}, s.leader t = some n → s.cand n t = some (s.elog t)
  leader_quorum : ∀ {t}, s.leader t ≠ none → R.Quorum (R.active (s.elog t)) (s.electors t)
  elector_vote : ∀ {t n v}, s.leader t = some n → v ∈ s.electors t → s.vote v t = some n
  elector_kept : ∀ {T v}, s.leader T ≠ none → v ∈ s.electors T →
    ∀ t < T, Keeps s v (s.ballot v T) T t
  leader_log : ∀ {n}, s.leader (s.term n) = some n → s.log n = s.llog (s.term n)
  llog_elog : ∀ {t}, s.leader t ≠ none → ∃ l, s.llog t = s.elog t ++ l ∧ ∀ e ∈ l, R.term e = t
  llog_none : ∀ {t}, s.leader t = none → s.llog t = []
  llog_ordered : ∀ t, R.Ordered (s.llog t)
  llog_anchored : ∀ t, Anchored R s (s.llog t)
  llog_admitted : ∀ t, R.Admitted (s.llog t)
  llog_conf : ∀ {t p e}, p ++ [e] <+: s.llog t → R.conf e ≠ none → Preceded R s p e
  acked_le : ∀ n t, s.acked n t ≤ (s.llog t).length
  acked_zero : ∀ {n t}, s.term n < t → s.acked n t = 0
  committed_leader : ∀ {t k}, s.committed t k → s.leader t ≠ none
  committed_evidence : ∀ {t k}, s.committed t k → ∃ l, Evidence R s t k l
  complete : ∀ {t k T}, s.committed t k → t < T → s.leader T ≠ none → (s.llog t).take k <+: s.elog T
  commit_le : ∀ n, s.commit n ≤ (s.log n).length
  commit_committed : ∀ n, s.CommittedPrefix (s.term n) ((s.log n).take (s.commit n))

theorem Inv.init : Inv R (State.init : State N E) := by
  constructor <;> intros <;>
    simp_all [State.init, Anchored, Keeps, Rules.Ordered, Rules.Admitted, State.CommittedPrefix]

/-! ## Anchored logs -/

namespace Anchored

variable {s : State N E}

theorem of_isPrefix {l m : List E} (h : Anchored R s m) (hl : l <+: m) : Anchored R s l :=
  fun p e hp => h p e (hp.trans hl)

theorem mono {s' : State N E} {l : List E} (h : Anchored R s l) (hg : Grows s s') :
    Anchored R s' l := by
  intro p e hp
  obtain ⟨h1, h2⟩ := h p e hp
  exact ⟨hg.leader_ne h1, h2.trans (hg.llog _)⟩

theorem getElem? {l : List E} (h : Anchored R s l) {i : ℕ} {e : E} (hi : l[i]? = some e) :
    (s.llog (R.term e))[i]? = some e := by
  have htake : l.take i ++ [e] = l.take (i + 1) := by
    rw [take_add_one, hi]
    rfl
  obtain ⟨rest, hrest⟩ := (h _ e (htake ▸ List.take_prefix _ _)).2
  obtain ⟨hlt, -⟩ := List.getElem?_eq_some_iff.1 hi
  rw [← hrest, htake, getElem?_append_left (by rw [length_take]; omega),
    getElem?_take_of_lt (Nat.lt_succ_self i), hi]

theorem ordered {l : List E} (h : Anchored R s l) (hs : ∀ t, R.Ordered (s.llog t)) :
    R.Ordered l := by
  induction l using reverseRecOn with
  | nil => exact List.Pairwise.nil
  | append_singleton l e => exact (hs (R.term e)).sublist (h l e List.prefix_rfl).2.sublist

theorem admitted {l : List E} (h : Anchored R s l) (hs : ∀ t, R.Admitted (s.llog t)) :
    R.Admitted l := by
  intro p e hp
  exact hs (R.term e) p e (h p e hp).2

/-- **Log Matching.**  Two logs that hold entries of one term at one index agree
up to that index. -/
theorem matching {l m p q : List E} {e f : E} (hl : Anchored R s l) (hm : Anchored R s m)
    (hp : p ++ [e] <+: l) (hq : q ++ [f] <+: m) (hlen : p.length = q.length)
    (ht : R.term e = R.term f) : p ++ [e] = q ++ [f] := by
  have h1 := (hl p e hp).2
  have h2 := (hm q f hq).2
  rw [← ht] at h2
  exact (List.prefix_of_prefix_length_le h1 h2 (by simp [hlen])).eq_of_length (by simp [hlen])

end Anchored

namespace Inv

variable {s : State N E}

/-! ## Leaders' logs -/

variable (h : Inv R s)

include h

theorem elog_lt (ht : s.leader t ≠ none) :
    ∀ e ∈ s.elog t, R.term e < t := by
  obtain ⟨n, hn⟩ := Option.ne_none_iff_exists'.1 ht
  exact h.cand_lt (h.leader_cand hn)

theorem elog_isPrefix (ht : s.leader t ≠ none) : s.elog t <+: s.llog t := by
  obtain ⟨l, hl, -⟩ := h.llog_elog ht
  rw [hl]
  exact List.prefix_append _ _

theorem llog_le : ∀ e ∈ s.llog t, R.term e ≤ t := by
  intro e he
  by_cases ht : s.leader t = none
  · rw [h.llog_none ht] at he
    exact absurd he not_mem_nil
  obtain ⟨l, hl, hterm⟩ := h.llog_elog ht
  rw [hl] at he
  rcases mem_append.1 he with he | he
  · exact (h.elog_lt ht e he).le
  · exact (hterm e he).le

theorem elog_prefix_of_term (ht : s.leader t ≠ none) {p : List E} {e : E}
    (hp : p ++ [e] <+: s.llog t) (he : R.term e = t) : s.elog t <+: p := by
  rcases prefix_or_lt (h.elog_isPrefix ht) ((List.prefix_append p [e]).trans hp) with h1 | ⟨-, hlt⟩
  · exact h1
  -- otherwise `e` would be in the log the leader was elected with
  have hpe : p ++ [e] <+: s.elog t :=
    List.prefix_of_prefix_length_le hp (h.elog_isPrefix ht) (by simpa using hlt)
  have := h.elog_lt ht e (hpe.subset (by simp))
  omega

theorem boot_quorum (ht : s.leader t ≠ none) : ∃ A, R.Quorum R.boot A := by
  induction t using Nat.strong_induction_on with
  | _ t ih =>
    cases he : s.elog t with
    | nil =>
      have hq := h.leader_quorum ht
      rw [he] at hq
      exact ⟨_, hq⟩
    | cons e =>
      -- the leader that appended the first entry came earlier
      obtain ⟨n, hn⟩ := Option.ne_none_iff_exists'.1 ht
      have hp : [] ++ [e] <+: s.elog t := by simp [he]
      exact ih _ (h.elog_lt ht e (by simp [he]))
        (h.cand_anchored (h.leader_cand hn) [] e hp).1

/-! ## Committed prefixes -/

theorem committed_elog {T : ℕ} {p : List E} (hp : s.CommittedPrefix t p) (ht : t < T)
    (hT : s.leader T ≠ none) : p <+: s.elog T := by
  rcases hp with rfl | ⟨u, k, hu, hc, hp⟩
  · exact List.nil_prefix
  · exact hp.trans (h.complete hc (by omega) hT)

theorem committed_llog {p : List E} (hp : s.CommittedPrefix t p)
    (ht : s.leader t ≠ none) : p <+: s.llog t := by
  rcases hp with rfl | ⟨u, k, hu, hc, hp⟩
  · exact List.nil_prefix
  rcases hu.lt_or_eq with hlt | rfl
  · exact hp.trans ((h.complete hc hlt ht).trans (h.elog_isPrefix ht))
  · exact hp.trans (List.take_prefix _ _)

theorem committed_take {k : ℕ} (hc : s.committed t k) :
    k ≤ (s.llog t).length ∧ ∃ p e, p ++ [e] = (s.llog t).take k ∧ R.term e = t := by
  obtain ⟨l, p, e, hp, hl, rfl, ht, -⟩ := h.committed_evidence hc
  have hpl := hp.trans hl
  exact ⟨hpl.length_le, p, e, List.prefix_iff_eq_take.1 hpl, ht⟩

/-- **Agreement.**  Of two committed prefixes one is a prefix of the other. -/
theorem committed_agree {t' : ℕ} {p q : List E} (hp : s.CommittedPrefix t p)
    (hq : s.CommittedPrefix t' q) : p <+: q ∨ q <+: p := by
  have key : ∀ {u u' k k' : ℕ} {p q : List E}, u ≤ u' → s.committed u k →
      p <+: (s.llog u).take k → s.committed u' k' → q <+: (s.llog u').take k' →
      p <+: q ∨ q <+: p := by
    intro u u' k k' p q hu hc hp hc' hq
    have hpl := h.committed_llog (Or.inr ⟨u, k, hu, hc, hp⟩) (h.committed_leader hc')
    exact List.prefix_or_prefix_of_prefix hpl (hq.trans (List.take_prefix _ _))
  rcases hp with rfl | ⟨u, k, -, hc, hp⟩
  · exact .inl List.nil_prefix
  rcases hq with rfl | ⟨u', k', -, hc', hq⟩
  · exact .inr List.nil_prefix
  rcases le_total u u' with hu | hu
  · exact key hu hc hp hc' hq
  · exact (key hu hc' hq hc hp).symm

end Inv

end Brokkr.Consensus
