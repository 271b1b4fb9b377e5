import Brokkr.Lib.Consensus.Invariant

/-!
# Elections and commitment

The two facts that need quorums to meet across configurations.  Both are about a
state in which the invariant holds and a candidate that is about to take office,
or a leader that is about to commit.

* `Inv.candidate_complete` — a candidate with a quorum of votes has every
  committed prefix of an earlier term.
* `Inv.commit_complete` — what a quorum has acknowledged is in the log every
  later leader was elected with.
* `Inv.election_safety` — a candidate with a quorum of votes is the only one.
* `Inv.no_later_leader` — a quorum still in term `t` rules out that a later
  leader had been elected: what a leader may conclude from a round of replies.
-/

namespace Brokkr.Consensus

variable {t T k : ℕ}

variable {N E C : Type} {R : Rules N E C} {s : State N E}

namespace Inv

variable (h : Inv R s)

include h

theorem trim_elog {p : List E} {e : E} {c : C} (hp : p ++ [e] <+: s.llog t)
    (hc : R.conf e = some c) (he : R.term e < T) (hT : s.leader T ≠ none) :
    R.trim p <+: s.elog T := by
  rcases h.llog_conf hp (by simp [hc]) with h0 | ⟨u, k, l, hk, -, htr, hu⟩
  · rw [h0]
    exact List.nil_prefix
  · exact htr.trans (h.complete hk (by rcases hu with hu | hu <;> omega) hT)

theorem carry {p l m : List E} {e : E} (hp : p ++ [e] <+: s.llog t)
    (he : R.term e = t) (hl : Anchored R s l) (hT : ∀ f ∈ l, R.term f < T) (hm : Anchored R s m)
    (hpm : p ++ [e] <+: m) (hu : R.UpToDate l m)
    (hlead : ∀ u, t < u → u < T → s.leader u ≠ none → p ++ [e] <+: s.llog u) :
    p ++ [e] <+: l := by
  have hle : t ≤ R.lastTerm m := by
    rw [← he]
    exact (hm.ordered h.llog_ordered).term_le_lastTerm (hpm.subset (by simp))
  have hlen : 0 < m.length := by
    have := hpm.length_le
    simp only [List.length_append, List.length_singleton] at this
    omega
  rcases List.eq_nil_or_concat l with rfl | ⟨q, f, rfl⟩
  · rcases hu with h1 | ⟨-, h1⟩
    · exact absurd h1 (Nat.not_lt_zero _)
    · exact absurd h1 (Nat.not_le.2 hlen)
  rw [List.concat_eq_append] at *
  have hlast : R.lastTerm (q ++ [f]) = R.term f := R.lastTerm_concat q f
  obtain ⟨hf, hql⟩ := hl q f List.prefix_rfl
  have htf : t ≤ R.term f := by
    rcases hu with h1 | ⟨h1, -⟩ <;> omega
  rcases htf.lt_or_eq with hlt | heq
  · have hpl := hlead _ hlt (hT f (by simp)) hf
    rcases prefix_or_lt hpl hql with h1 | ⟨h1, -⟩
    · exact h1
    -- `f` would be an entry of the leader of the earlier term
    have := h.llog_le f (hp.subset (h1.subset (by simp)))
    omega
  · rw [← heq] at hql
    refine List.prefix_of_prefix_length_le hp hql (hpm.length_le.trans ?_)
    rcases hu with h1 | ⟨-, h1⟩
    · omega
    · exact h1

theorem known_or_prefix {p l m : List E} {e : E} (ht : s.leader t ≠ none)
    (hp : p ++ [e] <+: l) (hl : l <+: s.llog t) (he : R.term e = t) (hm : Anchored R s m)
    (hT : ∀ f ∈ m, R.term f < T)
    (hlead : ∀ u, t < u → u < T → s.leader u ≠ none → p ++ [e] <+: s.elog u) :
    R.Known m l ∨ p ++ [e] <+: m := by
  by_cases hpm : p ++ [e] <+: m
  · exact .inr hpm
  refine .inl fun q f c hq hf _ => ?_
  obtain ⟨hlf, hqf⟩ := hm q f hq
  have hqm : q <+: m := (List.prefix_append q [f]).trans hq
  rcases lt_trichotomy (R.term f) t with hlt | heq | hgt
  · exact (h.trim_elog hqf hf hlt ht).trans ((h.elog_prefix_of_term ht (hp.trans hl) he).trans
      ((List.prefix_append p [e]).trans hp))
  · rw [heq] at hqf
    rcases prefix_or_lt (hp.trans hl) hqf with h1 | ⟨h1, -⟩
    · exact absurd (h1.trans hq) hpm
    · exact (R.trim_isPrefix q).trans ((List.prefix_append q [f]).trans (h1.trans hp))
  · -- the leader that appended `f` had the prefix
    have h1 := hlead _ hgt (hT f (hq.subset (by simp))) hlf
    exact absurd (h1.trans ((h.elog_prefix_of_term hlf hqf rfl).trans hqm)) hpm

theorem carried_by_quorum {B : ℕ} {l m : List E} {c : N} {V : Set N}
    (ht : s.leader t ≠ none) (hTB : T ≤ B) (hev : Evidence R s t k l) (hc : s.cand c T = some m)
    (hV : R.Quorum (R.active m) V) (hvote : ∀ v ∈ V, s.vote v T = some c)
    (hkeep : ∀ v ∈ V, Keeps s v (s.ballot v T) B t)
    (hlead : ∀ u, t < u → u < B → s.leader u ≠ none → (s.llog t).take k <+: s.elog u)
    (hknown : R.Known l m) : (s.llog t).take k <+: m := by
  obtain ⟨p, e, hp, hl, rfl, he, hq⟩ := hev
  rw [← List.prefix_iff_eq_take.1 (hp.trans hl)] at hlead ⊢
  have hm := h.cand_anchored hc
  have hmT := h.cand_lt hc
  rcases h.known_or_prefix ht hp hl he hm hmT (fun u h1 h2 => hlead u h1 (by omega)) with hk | hpm
  · obtain ⟨v, hva, hvV⟩ := Rules.overlap
      ((h.llog_admitted t).of_isPrefix hl) (hm.admitted h.llog_admitted) hknown hk hq hV
    obtain ⟨m', hm', hup⟩ := h.ballot_upToDate (hvote v hvV)
    obtain rfl : m = m' := Option.some.inj (hc.symm.trans hm')
    have hlead' : ∀ u, t < u → u < B → s.leader u ≠ none → p ++ [e] <+: s.llog u :=
      fun u h1 h2 h3 => (hlead u h1 h2 h3).trans (h.elog_isPrefix h3)
    refine h.carry (hp.trans hl) he hm hmT (h.ballot_anchored (hvote v hvV)) ?_ hup
      (fun u h1 h2 => hlead' u h1 (by omega))
    rcases hkeep v hvV _ hva with h1 | ⟨u, h1, h2, h3, h4⟩
    · rwa [← List.prefix_iff_eq_take.1 (hp.trans hl)] at h1
    · rw [← List.prefix_iff_eq_take.1 (hp.trans hl)] at h4
      exact absurd (hlead' u h1 h2 h3) h4
  · exact hpm

theorem candidate_complete {c : N} {m : List E} (hc : s.cand c T = some m)
    (hq : R.Quorum (R.active m) {v | s.vote v T = some c}) (htT : t < T) (hk : s.committed t k) :
    (s.llog t).take k <+: m := by
  -- by induction on the term of the commitment and on the log that was its
  -- evidence: the configuration before the last one was committed earlier
  have key : ∀ t, t < T → ∀ j k l, l.length = j → s.committed t k → Evidence R s t k l →
      (s.llog t).take k <+: m := by
    intro t
    induction t using Nat.strong_induction_on with
    | _ t iht =>
      intro htT j
      induction j using Nat.strong_induction_on with
      | _ j ihj =>
        intro k l hj hk hev
        have hl : l <+: s.llog t := hev.choose_spec.choose_spec.2.1
        refine h.carried_by_quorum (h.committed_leader hk) (Nat.le_succ T) hev hc hq
          (fun v hv => hv) (fun v hv => h.ballot_kept hv t htT) ?_ ?_
        · exact fun u h1 _ h3 => h.complete hk h1 h3
        intro q f d hqf hf _
        have hft := h.llog_le f (hl.subset (hqf.subset (by simp)))
        rcases h.llog_conf (hqf.trans hl) (by simp [hf]) with h0 | ⟨u, k', l', hc', hev', htr, hu⟩
        · rw [h0]
          exact List.nil_prefix
        by_cases hut : u < t
        · exact htr.trans (iht u hut (by omega) _ k' l' rfl hc' hev')
        obtain ⟨hut', hlq⟩ : u = t ∧ l' <+: q := by
          rcases hu with hu | ⟨hu, hlq⟩
          · omega
          · exact ⟨by omega, hlq⟩
        subst hut'
        have hlen : l'.length < j := by
          have h1 := hlq.length_le
          have h2 := hqf.length_le
          simp only [List.length_append, List.length_singleton] at h2
          omega
        exact htr.trans (ihj _ hlen k' l' rfl hc' hev')
  obtain ⟨l, hl⟩ := h.committed_evidence hk
  exact key t htT _ k l rfl hk hl

theorem commit_complete {l : List E} (ht : s.leader t ≠ none)
    (hev : Evidence R s t k l) (htT : t < T) (hT : s.leader T ≠ none) :
    (s.llog t).take k <+: s.elog T := by
  induction T using Nat.strong_induction_on with
  | _ T ih =>
    obtain ⟨c, hc⟩ := Option.ne_none_iff_exists'.1 hT
    have hl : l <+: s.llog t := hev.choose_spec.choose_spec.2.1
    refine h.carried_by_quorum ht le_rfl hev (h.leader_cand hc) (h.leader_quorum hT)
      (fun v hv => h.elector_vote hc hv) (fun v hv => h.elector_kept hT hv t htT)
      (fun u h1 h2 h3 => ih u h2 h1 h3) ?_
    intro q f d hqf hf _
    have hft := h.llog_le f (hl.subset (hqf.subset (by simp)))
    exact h.trim_elog (hqf.trans hl) hf (by omega) hT

/-- **Election Safety.**  A candidate with a quorum of votes is the only one: a
leader of its term is itself. -/
theorem election_safety {c c' : N} {m : List E} (hc : s.cand c T = some m)
    (hq : R.Quorum (R.active m) {v | s.vote v T = some c}) (hc' : s.leader T = some c') :
    c = c' := by
  have hT : s.leader T ≠ none := by simp [hc']
  have hm := h.cand_anchored hc
  have he := h.cand_anchored (h.leader_cand hc')
  have h1 : R.Known m (s.elog T) := by
    intro q f d hqf hf _
    exact h.trim_elog (hm q f hqf).2 hf (h.cand_lt hc f (hqf.subset (by simp))) hT
  have h2 : R.Known (s.elog T) m := by
    intro q f d hqf hf _
    have hft := h.elog_lt hT f (hqf.subset (by simp))
    rcases h.llog_conf (he q f hqf).2 (by simp [hf]) with h0 | ⟨u, k, l, hk, -, htr, hu⟩
    · rw [h0]
      exact List.nil_prefix
    · exact htr.trans (h.candidate_complete hc hq (by rcases hu with hu | hu <;> omega) hk)
  obtain ⟨v, hv, hv'⟩ := Rules.overlap (hm.admitted h.llog_admitted)
    (he.admitted h.llog_admitted) h1 h2 hq (h.leader_quorum hT)
  exact Option.some.inj (hv.symm.trans (h.elector_vote hc' hv'))

theorem leader_eq_none {n : N} (hc : s.cand n (s.term n) = some (s.log n))
    (hl : s.leader (s.term n) ≠ some n)
    (hq : R.Quorum (R.active (s.log n)) {v | s.vote v (s.term n) = some n}) :
    s.leader (s.term n) = none := by
  rw [Option.eq_none_iff_forall_ne_some]
  intro c hc'
  have := h.election_safety hc hq hc'
  exact hl (this ▸ hc')

omit h

theorem no_later_leader {s₀ : State N E} (h₀ : Inv R s₀) (h : Inv R s) (hg : Grows s₀ s)
    (ht : s.leader t ≠ none) {A : Set N} (hA : R.Quorum (R.active (s.llog t)) A)
    (hterm : ∀ v ∈ A, s₀.term v ≤ t) (htT : t < T) : s₀.leader T = none := by
  induction T using Nat.strong_induction_on with
  | _ T ih =>
    by_contra hT
    have hT' := hg.leader_ne hT
    have helog := hg.elog hT
    obtain ⟨c, hc⟩ := Option.ne_none_iff_exists'.1 hT
    have he₀ := h₀.cand_anchored (h₀.leader_cand hc)
    have he := he₀.mono hg
    have h1 : R.Known (s.llog t) (s₀.elog T) := by
      intro q f d hqf hf _
      have hft := h.llog_le f (hqf.subset (by simp))
      rw [← helog]
      exact h.trim_elog hqf hf (by omega) hT'
    have h2 : R.Known (s₀.elog T) (s.llog t) := by
      intro q f d hqf hf _
      obtain ⟨hlf, hq⟩ := he q f hqf
      rcases lt_trichotomy (R.term f) t with hlt | heq | hgt
      · exact (h.trim_elog hq hf hlt ht).trans (h.elog_isPrefix ht)
      · rw [heq] at hq
        exact (R.trim_isPrefix q).trans ((List.prefix_append q [f]).trans hq)
      -- the leader that appended `f` had been elected by then, too
      have hfT := h₀.elog_lt hT f (hqf.subset (by simp))
      exact absurd (ih _ hfT hgt) (he₀ q f hqf).1
    obtain ⟨v, hv, hv'⟩ := Rules.overlap (h.llog_admitted t)
      (he.admitted h.llog_admitted) h1 h2 hA (h₀.leader_quorum hT)
    have := h₀.vote_le (h₀.elector_vote hc hv')
    have := hterm v hv
    omega

end Inv

end Brokkr.Consensus
