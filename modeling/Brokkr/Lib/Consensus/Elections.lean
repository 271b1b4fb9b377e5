import Brokkr.Lib.Consensus.Completeness

/-!
# Terms, votes and elections keep the invariant

What growth of the history keeps (`Evidence.mono`, `Preceded.mono`,
`Keeps.of_llog`), and the steps by which a leader comes into office: a later
term, a candidacy, a vote, an election.  That an elected candidate is alone in
its term and has every committed prefix is shown before
(`Inv.election_safety`, `Inv.candidate_complete`); here the rest is carried over.
-/

namespace Brokkr.Consensus

open Function

variable {t T : ℕ}

variable {N E C : Type} {R : Rules N E C} {s s' : State N E}

/-! ## What growth keeps -/

theorem Grows.take_llog (hg : Grows s s') {k : ℕ} (hk : k ≤ (s.llog t).length) :
    (s'.llog t).take k = (s.llog t).take k := take_eq_of_isPrefix (hg.llog t) hk

theorem State.CommittedPrefix.of_grows {p : List E} (h : s.CommittedPrefix t p) (hg : Grows s s') :
    s'.CommittedPrefix t p := by
  rcases h with rfl | ⟨u, k, hu, hc, hp⟩
  · exact .inl rfl
  · exact .inr ⟨u, k, hu, hg.committed hc, hp.trans ((hg.llog u).take k)⟩

theorem Evidence.mono {k : ℕ} {l : List E} (h : Evidence R s t k l) (hg : Grows s s') :
    Evidence R s' t k l := by
  obtain ⟨p, e, hp, hl, hk, he, hq⟩ := h
  exact ⟨p, e, hp, hl.trans (hg.llog t), hk, he,
    R.quorum_mono (fun v hv => le_trans hv (hg.acked v t)) hq⟩

theorem Preceded.mono {p : List E} {e : E} (h : Preceded R s p e) (hg : Grows s s') :
    Preceded R s' p e := by
  rcases h with h0 | ⟨u, k, l, hc, hev, htr, hu⟩
  · exact .inl h0
  · exact .inr ⟨u, k, l, hg.committed hc, hev.mono hg, htr.trans ((hg.llog u).take k), hu⟩

theorem Keeps.mono_bound {n : N} {l : List E} {T' : ℕ} (h : Keeps s n l T t) (hT : T ≤ T') :
    Keeps s n l T' t := by
  intro k hk
  refine (h k hk).imp_right ?_
  rintro ⟨u, h1, h2, h3⟩
  exact ⟨u, h1, h2.trans_le hT, h3⟩

theorem Keeps.of_isPrefix {n : N} {l l' : List E} (h : Keeps s n l T t) (hl : l <+: l') :
    Keeps s n l' T t := fun k hk => (h k hk).imp_left fun hp => hp.trans hl

theorem Keeps.of_llog (h : Inv R s) (hg : Grows s s') {n : N} {l : List E} (hk : Keeps s n l T t)
    (hacked : s'.acked n t = s.acked n t)
    (hown : ∀ u, s.leader u ≠ none → ∃ r, s'.llog u = s.llog u ++ r ∧ ∀ e ∈ r, R.term e = u) :
    Keeps s' n l T t := by
  intro k hkk
  rw [hacked] at hkk
  rw [hg.take_llog (hkk.trans (h.acked_le n t))]
  refine (hk k hkk).imp_right ?_
  rintro ⟨u, h1, h2, h3, h4⟩
  refine ⟨u, h1, h2, hg.leader_ne h3, fun hpre => h4 ?_⟩
  obtain ⟨r, hr, hterm⟩ := hown u h3
  rcases prefix_or_lt hpre (hg.llog u) with hle | ⟨hle, hlt⟩
  · exact hle
  -- the acknowledged prefix would hold an entry of term `u`
  exfalso
  obtain ⟨q, hq⟩ := hle
  rw [hr, ← hq, List.prefix_append_right_inj] at hpre
  rcases q with _ | ⟨e, q⟩
  · rw [← hq, List.append_nil] at hlt
    exact lt_irrefl _ hlt
  have he : e ∈ (s.llog t).take k := by
    rw [← hq]
    simp
  have h5 := h.llog_le e (List.mem_of_mem_take he)
  have h6 := hterm e (hpre.subset (by simp))
  omega

/-! ## A later term -/

section bump

variable [DecidableEq N] {n : N}

theorem State.term_le_bump (ht : s.term n ≤ t) (m : N) : s.term m ≤ (s.bump n t).term m := by
  by_cases hm : m = n
  · subst hm
    simpa [State.bump] using ht
  · simp [State.bump, hm]

theorem Grows.bump (ht : s.term n ≤ t) : Grows s (s.bump n t) :=
  { Grows.refl s with term := State.term_le_bump ht }

theorem Inv.bump (h : Inv R s) (ht : s.term n < t) : Inv R (s.bump n t) :=
  have hle := State.term_le_bump ht.le
  { h with
    vote_le := fun hv => (h.vote_le hv).trans (hle _)
    cand_le := fun hc => (h.cand_le hc).trans (hle _)
    log_le := fun m e he => (h.log_le m e he).trans (hle m)
    log_kept := fun m t' => (h.log_kept m t').mono_bound (Nat.succ_le_succ (hle m))
    leader_log := by
      intro m hm
      by_cases hmn : m = n
      · -- nobody is leader of a term it has not reached
        subst hmn
        have := h.cand_le (h.leader_cand hm)
        simp only [State.bump, update_self] at this
        omega
      · simp only [State.bump, update_of_ne hmn] at hm ⊢
        exact h.leader_log hm
    acked_zero := fun hlt => h.acked_zero ((hle _).trans_lt hlt)
    commit_committed := fun m => (h.commit_committed m).mono (hle m) List.prefix_rfl }

end bump

/-! ## Candidacies and votes -/

section vote

variable [DecidableEq N] {n c : N}

theorem State.cand_stand {m : N} {l : List E} (hn : s.cand n (s.term n) = none)
    (h : s.cand m t = some l) : (s.stand n).cand m t = some l := by
  by_cases hm : m = n
  · subst hm
    have ht : t ≠ s.term m := by
      rintro rfl
      simp [hn] at h
    simpa [State.stand, update_of_ne ht] using h
  · simpa [State.stand, update_of_ne hm] using h

theorem State.cand_stand_cases {m : N} {l : List E} (h : (s.stand n).cand m t = some l) :
    s.cand m t = some l ∨ (m = n ∧ t = s.term n ∧ l = s.log n) := by
  by_cases hm : m = n
  · subst hm
    by_cases ht : t = s.term m
    · subst ht
      exact .inr ⟨rfl, rfl, by simpa [State.stand, eq_comm] using h⟩
    · exact .inl (by simpa [State.stand, update_of_ne ht] using h)
  · exact .inl (by simpa [State.stand, update_of_ne hm] using h)

theorem Grows.stand (hn : s.cand n (s.term n) = none) : Grows s (s.stand n) :=
  { Grows.refl s with cand := State.cand_stand hn }

theorem Inv.stand (h : Inv R s) (hn : s.cand n (s.term n) = none)
    (hlt : ∀ e ∈ s.log n, R.term e < s.term n) : Inv R (s.stand n) :=
  { h with
    cand_le := by
      intro m t l hm
      rcases State.cand_stand_cases hm with h1 | ⟨rfl, rfl, -⟩
      · exact h.cand_le h1
      · exact le_rfl
    cand_lt := by
      intro m t l hm
      rcases State.cand_stand_cases hm with h1 | ⟨rfl, rfl, rfl⟩
      · exact h.cand_lt h1
      · exact hlt
    cand_anchored := by
      intro m t l hm
      rcases State.cand_stand_cases hm with h1 | ⟨rfl, rfl, rfl⟩
      · exact h.cand_anchored h1
      · exact h.log_anchored m
    ballot_upToDate := by
      intro m t d hv
      obtain ⟨l, hl, hu⟩ := h.ballot_upToDate hv
      exact ⟨l, State.cand_stand hn hl, hu⟩
    leader_cand := fun hl => State.cand_stand hn (h.leader_cand hl) }

theorem State.vote_castVote {m : N} {d : N} (hn : s.vote n (s.term n) = none)
    (h : s.vote m t = some d) :
    (s.castVote n c).vote m t = some d ∧ (s.castVote n c).ballot m t = s.ballot m t := by
  by_cases hm : m = n
  · subst hm
    have ht : t ≠ s.term m := by
      rintro rfl
      simp [hn] at h
    simpa [State.castVote, update_of_ne ht] using h
  · simpa [State.castVote, update_of_ne hm] using h

theorem State.vote_castVote_cases {m : N} {d : N} (h : (s.castVote n c).vote m t = some d) :
    (s.vote m t = some d ∧ (s.castVote n c).ballot m t = s.ballot m t) ∨
      (m = n ∧ t = s.term n ∧ d = c ∧ (s.castVote n c).ballot m t = s.log n) := by
  by_cases hm : m = n
  · subst hm
    by_cases ht : t = s.term m
    · subst ht
      exact .inr ⟨rfl, rfl, by simpa [State.castVote, eq_comm] using h, by simp [State.castVote]⟩
    · exact .inl (by simpa [State.castVote, update_of_ne ht] using h)
  · exact .inl (by simpa [State.castVote, update_of_ne hm] using h)

theorem Grows.castVote (hn : s.vote n (s.term n) = none) : Grows s (s.castVote n c) :=
  { Grows.refl s with vote := fun hv => (State.vote_castVote hn hv).1 }

theorem Inv.castVote (h : Inv R s) (hn : s.vote n (s.term n) = none) {l : List E}
    (hc : s.cand c (s.term n) = some l) (hu : R.UpToDate l (s.log n)) : Inv R (s.castVote n c) :=
  { h with
    vote_le := by
      intro m t d hv
      rcases State.vote_castVote_cases hv with ⟨h1, -⟩ | ⟨rfl, rfl, -⟩
      · exact h.vote_le h1
      · exact le_rfl
    ballot_upToDate := by
      intro m t d hv
      rcases State.vote_castVote_cases hv with ⟨h1, h2⟩ | ⟨rfl, rfl, rfl, h2⟩
      · rw [h2]
        exact h.ballot_upToDate h1
      · rw [h2]
        exact ⟨l, hc, hu⟩
    ballot_anchored := by
      intro m t d hv
      rcases State.vote_castVote_cases hv with ⟨h1, h2⟩ | ⟨rfl, rfl, rfl, h2⟩
      · rw [h2]
        exact h.ballot_anchored h1
      · rw [h2]
        exact h.log_anchored m
    ballot_kept := by
      intro m t d hv t' ht'
      rcases State.vote_castVote_cases hv with ⟨h1, h2⟩ | ⟨rfl, rfl, rfl, h2⟩
      · rw [h2]
        exact h.ballot_kept h1 t' ht'
      · rw [h2]
        exact h.log_kept m t'
    elector_vote := fun hl hv => (State.vote_castVote hn (h.elector_vote hl hv)).1
    elector_kept := by
      intro T v hT hv t ht
      obtain ⟨d, hd⟩ := Option.ne_none_iff_exists'.1 hT
      rw [(State.vote_castVote hn (h.elector_vote hd hv)).2]
      exact h.elector_kept hT hv t ht }

end vote

/-! ## Taking office -/

section elect

variable {n : N}

theorem Grows.elect (h : Inv R s) (hn : s.leader (s.term n) = none) : Grows s (s.elect n) := by
  have hne : ∀ {t}, s.leader t ≠ none → t ≠ s.term n := by
    rintro t ht rfl
    exact ht hn
  refine { Grows.refl s with leader := ?_, elog := ?_, electors := ?_, llog := ?_ }
  · intro t m hm
    simpa [State.elect, update_of_ne (hne (t := t) (by simp [hm]))] using hm
  · intro t ht
    simp [State.elect, update_of_ne (hne ht)]
  · intro t ht
    simp [State.elect, update_of_ne (hne ht)]
  intro t
  by_cases ht : t = s.term n
  · subst ht
    rw [h.llog_none hn]
    exact List.nil_prefix
  · simp [State.elect, update_of_ne ht]

theorem Keeps.elect (h : Inv R s) (hn : s.leader (s.term n) = none) {m : N} {l : List E}
    (hk : Keeps s m l T t) : Keeps (s.elect n) m l T t := by
  refine hk.of_llog h (Grows.elect h hn) rfl fun u hu => ⟨[], ?_, by simp⟩
  have hne : u ≠ s.term n := by
    rintro rfl
    exact hu hn
  simp [State.elect, update_of_ne hne]

theorem Inv.elect (h : Inv R s) (hc : s.cand n (s.term n) = some (s.log n))
    (hn : s.leader (s.term n) = none)
    (hq : R.Quorum (R.active (s.log n)) {v | s.vote v (s.term n) = some n}) :
    Inv R (s.elect n) := by
  have hg := Grows.elect h hn
  -- everything recorded for another term is as it was
  have hold : ∀ {t}, t ≠ s.term n → (s.elect n).leader t = s.leader t ∧
      (s.elect n).electors t = s.electors t ∧ (s.elect n).elog t = s.elog t ∧
      (s.elect n).llog t = s.llog t := by
    intro t ht
    simp [State.elect, update_of_ne ht]
  have hnew : (s.elect n).leader (s.term n) = some n ∧
      (s.elect n).electors (s.term n) = {v | s.vote v (s.term n) = some n} ∧
      (s.elect n).elog (s.term n) = s.log n ∧ (s.elect n).llog (s.term n) = s.log n := by
    simp [State.elect]
  refine { h with
    cand_anchored := fun hm => (h.cand_anchored hm).mono hg
    log_anchored := fun m => (h.log_anchored m).mono hg
    log_kept := fun m t => (h.log_kept m t).elect h hn
    ballot_anchored := fun hv => (h.ballot_anchored hv).mono hg
    ballot_kept := fun hv t ht => (h.ballot_kept hv t ht).elect h hn
    acked_le := fun m t => (h.acked_le m t).trans (hg.llog t).length_le
    committed_leader := fun hk => hg.leader_ne (h.committed_leader hk)
    committed_evidence := fun hk => (h.committed_evidence hk).imp fun l hl => hl.mono hg
    commit_committed := fun m => (h.commit_committed m).of_grows hg
    leader_cand := ?leader_cand
    leader_quorum := ?leader_quorum
    elector_vote := ?elector_vote
    elector_kept := ?elector_kept
    leader_log := ?leader_log
    llog_elog := ?llog_elog
    llog_none := ?llog_none
    llog_ordered := ?llog_ordered
    llog_anchored := ?llog_anchored
    llog_admitted := ?llog_admitted
    llog_conf := ?llog_conf
    complete := ?complete }
  case leader_cand =>
    intro t m hm
    by_cases ht : t = s.term n
    · subst ht
      rw [hnew.1, Option.some.injEq] at hm
      rw [hnew.2.2.1, ← hm]
      exact hc
    · rw [(hold ht).1] at hm
      rw [(hold ht).2.2.1]
      exact h.leader_cand hm
  case leader_quorum =>
    intro t hl
    by_cases ht : t = s.term n
    · subst ht
      rw [hnew.2.1, hnew.2.2.1]
      exact hq
    rw [(hold ht).1] at hl
    rw [(hold ht).2.1, (hold ht).2.2.1]
    exact h.leader_quorum hl
  case elector_vote =>
    intro t m v hm hv
    by_cases ht : t = s.term n
    · subst ht
      rw [hnew.1, Option.some.injEq] at hm
      rw [hnew.2.1] at hv
      rw [← hm]
      exact hv
    · rw [(hold ht).1] at hm
      rw [(hold ht).2.1] at hv
      exact h.elector_vote hm hv
  case elector_kept =>
    intro T v hT hv t ht
    refine Keeps.elect h hn ?_
    by_cases hTn : T = s.term n
    · -- the term had no leader yet, so the voter's promise is about earlier ones
      subst hTn
      rw [hnew.2.1] at hv
      intro k hk
      refine (h.ballot_kept hv t ht k hk).imp_right ?_
      rintro ⟨u, h1, h2, h3, h4⟩
      refine ⟨u, h1, ?_, h3, h4⟩
      rcases (Nat.lt_succ_iff.1 h2).lt_or_eq with hlt | rfl
      · exact hlt
      · exact absurd hn h3
    · rw [(hold hTn).1] at hT
      rw [(hold hTn).2.1] at hv
      exact h.elector_kept hT hv t ht
  case leader_log =>
    intro m hm
    by_cases ht : s.term m = s.term n
    · rw [show (s.elect n).term m = s.term n from ht, hnew.1, Option.some.injEq] at hm
      subst hm
      exact hnew.2.2.2.symm
    · exact (h.leader_log ((hold ht).1.symm.trans hm)).trans (hold ht).2.2.2.symm
  case llog_elog =>
    intro t hl
    by_cases ht : t = s.term n
    · subst ht
      exact ⟨[], by rw [hnew.2.2.1, hnew.2.2.2, List.append_nil], by simp⟩
    rw [(hold ht).1] at hl
    rw [(hold ht).2.2.1, (hold ht).2.2.2]
    exact h.llog_elog hl
  case llog_none =>
    intro t hl
    have ht : t ≠ s.term n := by
      rintro rfl
      rw [hnew.1] at hl
      exact absurd hl (by simp)
    rw [(hold ht).1] at hl
    rw [(hold ht).2.2.2]
    exact h.llog_none hl
  case llog_ordered =>
    intro t
    by_cases ht : t = s.term n
    · subst ht
      rw [hnew.2.2.2]
      exact (h.log_anchored n).ordered h.llog_ordered
    · rw [(hold ht).2.2.2]
      exact h.llog_ordered t
  case llog_anchored =>
    intro t
    by_cases ht : t = s.term n
    · subst ht
      rw [hnew.2.2.2]
      exact (h.log_anchored n).mono hg
    · rw [(hold ht).2.2.2]
      exact (h.llog_anchored t).mono hg
  case llog_admitted =>
    intro t
    by_cases ht : t = s.term n
    · subst ht
      rw [hnew.2.2.2]
      exact (h.log_anchored n).admitted h.llog_admitted
    · rw [(hold ht).2.2.2]
      exact h.llog_admitted t
  case llog_conf =>
    intro t p e hp he
    by_cases ht : t = s.term n
    · subst ht
      rw [hnew.2.2.2] at hp
      exact (h.llog_conf (h.log_anchored n p e hp).2 he).mono hg
    · rw [(hold ht).2.2.2] at hp
      exact (h.llog_conf hp he).mono hg
  case complete =>
    intro t k T hk htT hT
    rw [hg.take_llog (h.committed_take hk).1]
    by_cases hTn : T = s.term n
    · subst hTn
      rw [hnew.2.2.1]
      exact h.candidate_complete hc hq htT hk
    rw [(hold hTn).1] at hT
    rw [(hold hTn).2.2.1]
    exact h.complete hk htT hT

end elect

end Brokkr.Consensus
