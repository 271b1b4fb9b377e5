import Brokkr.Lib.Consensus.Elections

/-!
# Replication keeps the invariant, and so do whole runs

The steps by which logs and commit indices move, and from all the steps what
holds along whole runs.

* `Step.grows` — a step keeps the history true.
* `Step.inv` — a step keeps the invariant.
* `Steps.grows`, `Steps.inv` — so do any number of steps.
* `Steps.commit_le`, `Steps.keeps_committed` — a commit index never falls, and
  committed entries are never removed.
* `Frame` — what the steps of one node leave alone (`Steps.frame`).
-/

namespace Brokkr.Consensus

open Option

open Function

open List

variable {t k : ℕ}

variable {N E C : Type} {R : Rules N E C} {s s' : State N E} [DecidableEq N] {n : N}

/-! ## Appending as leader -/

section extend

variable {e : E}

theorem Grows.extend (h : Inv R s) (hl : s.leader (s.term n) = some n) :
    Grows s (s.extend n e) := by
  refine { Grows.refl s with llog := ?_ }
  intro t
  by_cases ht : t = s.term n
  · subst ht
    rw [← h.leader_log hl]
    simp [State.extend]
  · simp [State.extend, update_of_ne ht]

theorem Keeps.extend (h : Inv R s) (hl : s.leader (s.term n) = some n) (he : R.term e = s.term n)
    {m : N} {l : List E} {T : ℕ} (hk : Keeps s m l T t) :
    Keeps (s.extend n e) m l T t := by
  refine hk.of_llog h (Grows.extend h hl) rfl fun u hu => ?_
  by_cases hun : u = s.term n
  · subst hun
    exact ⟨[e], by simp [State.extend, h.leader_log hl], by simpa using he⟩
  · exact ⟨[], by simp [State.extend, update_of_ne hun], by simp⟩

theorem Anchored.extend (h : Inv R s) (hl : s.leader (s.term n) = some n)
    (he : R.term e = s.term n) : Anchored R (s.extend n e) (s.log n ++ [e]) := by
  intro p f hp
  rcases concat_prefix_concat hp with ⟨rfl, rfl⟩ | hp
  · rw [he]
    exact ⟨by simp [State.extend, hl], by simp [State.extend]⟩
  · exact (h.log_anchored n).mono (Grows.extend h hl) p f hp

theorem Inv.extend (h : Inv R s) (hl : s.leader (s.term n) = some n)
    (he : R.term e = s.term n) (ha : R.Admits (s.log n) e)
    (hc : R.conf e ≠ none → (R.trim (s.log n)).length ≤ s.commit n) : Inv R (s.extend n e) := by
  have hg : Grows s (s.extend n e) := Grows.extend h hl
  have hlog : s.log n = s.llog (s.term n) := h.leader_log hl
  have hlogn : (s.extend n e).log n = s.log n ++ [e] := by simp [State.extend]
  have hlogm : ∀ {m}, m ≠ n → (s.extend n e).log m = s.log m := by
    intro m hm
    simp [State.extend, update_of_ne hm]
  have hnew : (s.extend n e).llog (s.term n) = s.log n ++ [e] := by simp [State.extend]
  have hold : ∀ {t}, t ≠ s.term n → (s.extend n e).llog t = s.llog t := by
    intro t ht
    simp [State.extend, update_of_ne ht]
  refine { h with
    cand_anchored := fun hm => (h.cand_anchored hm).mono hg
    ballot_anchored := fun hv => (h.ballot_anchored hv).mono hg
    ballot_kept := fun hv t ht => (h.ballot_kept hv t ht).extend h hl he
    elector_kept := fun hT hv t ht => (h.elector_kept hT hv t ht).extend h hl he
    acked_le := fun m t => (h.acked_le m t).trans (hg.llog t).length_le
    committed_evidence := fun hk => (h.committed_evidence hk).imp fun l hl => hl.mono hg
    log_le := ?log_le
    log_anchored := ?log_anchored
    log_kept := ?log_kept
    leader_log := ?leader_log
    llog_elog := ?llog_elog
    llog_none := ?llog_none
    llog_ordered := ?llog_ordered
    llog_anchored := ?llog_anchored
    llog_admitted := ?llog_admitted
    llog_conf := ?llog_conf
    complete := ?complete
    commit_le := ?commit_le
    commit_committed := ?commit_committed }
  case log_le =>
    intro m f hf
    by_cases hm : m = n
    · subst hm
      rw [hlogn, mem_append, mem_singleton] at hf
      rcases hf with hf | rfl
      · exact h.log_le m f hf
      · exact he.le
    · rw [hlogm hm] at hf
      exact h.log_le m f hf
  case log_anchored =>
    intro m
    by_cases hm : m = n
    · subst hm
      rw [hlogn]
      exact Anchored.extend h hl he
    · rw [hlogm hm]
      exact (h.log_anchored m).mono hg
  case log_kept =>
    intro m t
    have hk := (h.log_kept m t).extend h hl he
    by_cases hm : m = n
    · subst hm
      rw [hlogn]
      exact hk.of_isPrefix (List.prefix_append _ _)
    · rw [hlogm hm]
      exact hk
  case leader_log =>
    intro m hm
    by_cases hmn : m = n
    · subst hmn
      rw [hlogn]
      exact hnew.symm
    have ht : s.term m ≠ s.term n := by
      intro ht
      rw [show (s.extend n e).term m = s.term n from ht] at hm
      exact hmn (some.inj (hm.symm.trans hl))
    rw [hlogm hmn]
    exact (h.leader_log hm).trans (hold ht).symm
  case llog_elog =>
    intro t ht
    obtain ⟨l, hl1, hl2⟩ := h.llog_elog ht
    by_cases htn : t = s.term n
    · subst htn
      refine ⟨l ++ [e], ?_, ?_⟩
      · rw [hnew, hlog, hl1, append_assoc]
        rfl
      intro f hf
      rw [mem_append, mem_singleton] at hf
      rcases hf with hf | rfl
      · exact hl2 f hf
      · exact he
    · rw [hold htn]
      exact ⟨l, hl1, hl2⟩
  case llog_none =>
    intro t ht
    have htn : t ≠ s.term n := by
      rintro rfl
      exact absurd (ht.symm.trans hl) (by simp)
    rw [hold htn]
    exact h.llog_none ht
  case llog_ordered =>
    intro t
    by_cases htn : t = s.term n
    · subst htn
      rw [hnew]
      refine pairwise_append.2 ⟨(h.log_anchored n).ordered h.llog_ordered,
        pairwise_singleton _ _, ?_⟩
      intro a hmem b hb
      rw [mem_singleton.1 hb, he]
      exact h.log_le n a hmem
    · rw [hold htn]
      exact h.llog_ordered t
  case llog_anchored =>
    intro t
    by_cases htn : t = s.term n
    · subst htn
      rw [hnew]
      exact Anchored.extend h hl he
    · rw [hold htn]
      exact (h.llog_anchored t).mono hg
  case llog_admitted =>
    intro t
    by_cases htn : t = s.term n
    · subst htn
      rw [hnew]
      intro p f hp
      rcases concat_prefix_concat hp with ⟨rfl, rfl⟩ | hp
      · exact ha
      · exact (h.log_anchored n).admitted h.llog_admitted p f hp
    · rw [hold htn]
      exact h.llog_admitted t
  case llog_conf =>
    intro t p f hp hf
    by_cases htn : t = s.term n
    · subst htn
      rw [hnew] at hp
      rcases concat_prefix_concat hp with ⟨rfl, rfl⟩ | hp
      · refine Preceded.mono ?_ hg
        -- the leader's commit index covers the configurations in its log
        have htrim : R.trim (s.log n) <+: (s.log n).take (s.commit n) :=
          List.prefix_of_prefix_length_le (R.trim_isPrefix _) (List.take_prefix _ _)
            (by rw [length_take, Nat.min_eq_left (h.commit_le n)]; exact hc hf)
        rcases (h.commit_committed n).mono le_rfl htrim with h0 | ⟨u, k, hu, hk, hp⟩
        · exact .inl h0
        obtain ⟨l, hev⟩ := h.committed_evidence hk
        refine .inr ⟨u, k, l, hk, hev, hp, ?_⟩
        rw [he]
        refine hu.lt_or_eq.imp_right fun heq => ⟨heq, ?_⟩
        rw [hlog, ← heq]
        exact hev.choose_spec.choose_spec.2.1
      · rw [hlog] at hp
        exact (h.llog_conf hp hf).mono hg
    · rw [hold htn] at hp
      exact (h.llog_conf hp hf).mono hg
  case complete =>
    intro t k T hk htT hT
    rw [hg.take_llog (h.committed_take hk).1]
    exact h.complete hk htT hT
  case commit_le =>
    intro m
    by_cases hm : m = n
    · subst hm
      rw [hlogn, length_append]
      exact (h.commit_le m).trans (Nat.le_add_right _ _)
    · rw [hlogm hm]
      exact h.commit_le m
  case commit_committed =>
    intro m
    refine State.CommittedPrefix.of_grows ?_ hg
    by_cases hm : m = n
    · subst hm
      rw [hlogn]
      exact (take_append_of_le_length (h.commit_le m)).symm ▸ h.commit_committed m
    · rw [hlogm hm]
      exact h.commit_committed m

end extend

/-! ## Following a leader -/

section follow

theorem Grows.setLog (l : List E) : Grows s (s.setLog n l) := { Grows.refl s with }

omit [DecidableEq N] in
theorem Inv.adopt_prefix (h : Inv R s) {l : List E} (hl : s.leader (s.term n) ≠ none)
    (hk : ∀ p, p <+: s.log n → p <+: s.llog (s.term n) → p <+: l) :
    (s.log n).take (s.commit n) <+: l :=
  hk _ (List.take_prefix _ _) (h.committed_llog (h.commit_committed n) hl)

theorem Inv.adopt (h : Inv R s) {l : List E} (hl : s.leader (s.term n) ≠ none)
    (hp : l <+: s.llog (s.term n))
    (hk : ∀ p, p <+: s.log n → p <+: s.llog (s.term n) → p <+: l) : Inv R (s.setLog n l) := by
  have hlogn : (s.setLog n l).log n = l := by simp [State.setLog]
  have hlogm : ∀ {m}, m ≠ n → (s.setLog n l).log m = s.log m := by
    intro m hm
    simp [State.setLog, update_of_ne hm]
  have hcommit : (s.log n).take (s.commit n) <+: l := h.adopt_prefix hl hk
  have hcommit_le : s.commit n ≤ l.length := by
    have := hcommit.length_le
    rwa [length_take, Nat.min_eq_left (h.commit_le n)] at this
  refine { h with
    log_le := ?log_le
    log_anchored := ?log_anchored
    log_kept := ?log_kept
    leader_log := ?leader_log
    commit_le := ?commit_le
    commit_committed := ?commit_committed }
  case log_le =>
    intro m e he
    by_cases hm : m = n
    · subst hm
      rw [hlogn] at he
      exact h.llog_le e (hp.subset he)
    · rw [hlogm hm] at he
      exact h.log_le m e he
  case log_anchored =>
    intro m
    by_cases hm : m = n
    · subst hm
      rw [hlogn]
      exact (h.llog_anchored _).of_isPrefix hp
    · rw [hlogm hm]
      exact h.log_anchored m
  case log_kept =>
    intro m t
    by_cases hm : m = n
    · subst hm
      rw [hlogn]
      intro k hkk
      rcases h.log_kept m t k hkk with h1 | h1
      · -- kept if the leader has it; if not, the leader is the reason it is gone
        by_cases h2 : (s.llog t).take k <+: s.llog (s.term m)
        · exact .inl (hk _ h1 h2)
        refine .inr ⟨s.term m, ?_, Nat.lt_succ_self _, hl, h2⟩
        rcases lt_trichotomy t (s.term m) with hlt | rfl | hgt
        · exact hlt
        · exact absurd (List.take_prefix _ _) h2
        have hk0 : k = 0 := Nat.le_zero.1 (hkk.trans_eq (h.acked_zero hgt))
        rw [hk0] at h2
        exact absurd List.nil_prefix h2
      · exact .inr h1
    · rw [hlogm hm]
      exact h.log_kept m t
  case leader_log =>
    intro m hm
    by_cases hmn : m = n
    · subst hmn
      rw [hlogn]
      have hlog := h.leader_log hm
      exact hp.eq_of_length (le_antisymm hp.length_le
        (hk _ (hlog ▸ List.prefix_rfl) List.prefix_rfl).length_le)
    · rw [hlogm hmn]
      exact h.leader_log hm
  case commit_le =>
    intro m
    by_cases hm : m = n
    · subst hm
      rw [hlogn]
      exact hcommit_le
    · rw [hlogm hm]
      exact h.commit_le m
  case commit_committed =>
    intro m
    by_cases hm : m = n
    · subst hm
      rw [hlogn]
      have htake : l.take (s.commit m) = (s.log m).take (s.commit m) := by
        have := List.prefix_iff_eq_take.1 hcommit
        rwa [length_take, Nat.min_eq_left (h.commit_le m), eq_comm] at this
      exact htake ▸ h.commit_committed m
    · rw [hlogm hm]
      exact h.commit_committed m

theorem State.acked_le_ack (k : ℕ) (m : N) (t : ℕ) : s.acked m t ≤ (s.ack n k).acked m t := by
  by_cases hm : m = n
  · subst hm
    by_cases ht : t = s.term m
    · subst ht
      simp [State.ack]
    · simp [State.ack, update_of_ne ht]
  · simp [State.ack, update_of_ne hm]

theorem State.acked_ack_of_ne {m : N} (h : m = n → t ≠ s.term n) :
    (s.ack n k).acked m t = s.acked m t := by
  by_cases hm : m = n
  · subst hm
    simp [State.ack, update_of_ne (h rfl)]
  · simp [State.ack, update_of_ne hm]

theorem Grows.ack (k : ℕ) : Grows s (s.ack n k) :=
  { Grows.refl s with acked := State.acked_le_ack k }

theorem Keeps.ack {m : N} {l : List E} {T : ℕ} (hk : Keeps s m l T t) (h : m = n → t ≠ s.term n) :
    Keeps (s.ack n k) m l T t := by
  intro j hj
  rw [State.acked_ack_of_ne h] at hj
  exact hk j hj

theorem Inv.ack (h : Inv R s) (hk : k ≤ (s.llog (s.term n)).length)
    (hp : (s.llog (s.term n)).take k <+: s.log n) : Inv R (s.ack n k) := by
  have hself : (s.ack n k).acked n (s.term n) = max (s.acked n (s.term n)) k := by
    simp [State.ack]
  refine { h with
    log_kept := ?log_kept
    ballot_kept := ?ballot_kept
    elector_kept := ?elector_kept
    llog_conf := fun hp he => (h.llog_conf hp he).mono (Grows.ack k)
    acked_le := ?acked_le
    acked_zero := ?acked_zero
    committed_evidence := fun hc =>
      (h.committed_evidence hc).imp fun l hl => hl.mono (Grows.ack k) }
  case log_kept =>
    intro m t
    by_cases hmt : m = n ∧ t = s.term n
    · obtain ⟨rfl, rfl⟩ := hmt
      intro j hj
      rw [hself] at hj
      rcases le_max_iff.1 hj with hj | hj
      · exact h.log_kept m _ j hj
      · exact .inl ((List.take_prefix_take_left hj).trans hp)
    · exact (h.log_kept m t).ack (fun hm ht => hmt ⟨hm, ht⟩)
  case ballot_kept =>
    intro m T c hv t ht
    refine (h.ballot_kept hv t ht).ack ?_
    rintro rfl rfl
    exact absurd (h.vote_le hv) (by omega)
  case elector_kept =>
    intro T v hT hv t ht
    refine (h.elector_kept hT hv t ht).ack ?_
    rintro rfl rfl
    obtain ⟨c, hc⟩ := ne_none_iff_exists'.1 hT
    exact absurd (h.vote_le (h.elector_vote hc hv)) (by omega)
  case acked_le =>
    intro m t
    by_cases hmt : m = n ∧ t = s.term n
    · obtain ⟨rfl, rfl⟩ := hmt
      rw [hself]
      exact max_le (h.acked_le m _) hk
    · rw [State.acked_ack_of_ne (fun hm ht => hmt ⟨hm, ht⟩)]
      exact h.acked_le m t
  case acked_zero =>
    intro m t ht
    rw [State.acked_ack_of_ne]
    · exact h.acked_zero ht
    · rintro rfl rfl
      exact lt_irrefl _ ht

end follow

/-! ## Commitment -/

section commit

omit [DecidableEq N]

theorem Grows.markCommitted (k : ℕ) : Grows s (s.markCommitted n k) :=
  { Grows.refl s with committed := Or.inl }

theorem Inv.markCommitted (h : Inv R s) (hl : s.leader (s.term n) = some n)
    (hev : Evidence R s (s.term n) k (s.log n)) : Inv R (s.markCommitted n k) := by
  have hg : Grows s (s.markCommitted n k) := Grows.markCommitted k
  have hne : s.leader (s.term n) ≠ none := by simp [hl]
  refine { h with
    llog_conf := fun hp he => (h.llog_conf hp he).mono hg
    committed_leader := ?committed_leader
    committed_evidence := ?committed_evidence
    complete := ?complete
    commit_committed := fun m => (h.commit_committed m).of_grows hg }
  case committed_leader =>
    rintro t j (hc | ⟨rfl, rfl⟩)
    · exact h.committed_leader hc
    · exact hne
  case committed_evidence =>
    rintro t j (hc | ⟨rfl, rfl⟩)
    · exact (h.committed_evidence hc).imp fun l hl => hl.mono hg
    · exact ⟨_, hev.mono hg⟩
  case complete =>
    rintro t j T (hc | ⟨rfl, rfl⟩) hlt hT
    · exact h.complete hc hlt hT
    · exact h.commit_complete hne hev hlt hT

end commit

section setCommit

theorem Grows.setCommit (k : ℕ) : Grows s (s.setCommit n k) := { Grows.refl s with }

theorem Inv.setCommit (h : Inv R s) (hk : k ≤ (s.log n).length)
    (hp : s.CommittedPrefix (s.term n) ((s.log n).take k)) : Inv R (s.setCommit n k) := by
  refine { h with commit_le := ?commit_le, commit_committed := ?commit_committed }
  case commit_le =>
    intro m
    by_cases hm : m = n
    · subst hm
      simpa [State.setCommit] using hk
    · simpa [State.setCommit, update_of_ne hm] using h.commit_le m
  case commit_committed =>
    intro m
    refine State.CommittedPrefix.of_grows ?_ (Grows.setCommit k)
    by_cases hm : m = n
    · subst hm
      simpa [State.setCommit] using hp
    · simpa [State.setCommit, update_of_ne hm] using h.commit_committed m

theorem Inv.forget (h : Inv R s) (hk : k ≤ s.commit n) : Inv R (s.setCommit n k) :=
  h.setCommit (hk.trans (h.commit_le n))
    ((h.commit_committed n).mono le_rfl (List.take_prefix_take_left hk))

end setCommit

/-! ## Runs -/

theorem Inv.campaign (h : Inv R s) (ht : s.term n < t) :
    Grows s (((s.bump n t).castVote n n).stand n) ∧
      Inv R (((s.bump n t).castVote n n).stand n) := by
  have hb : Inv R (s.bump n t) := h.bump ht
  have hterm : (s.bump n t).term n = t := by simp [State.bump]
  have hlog : (s.bump n t).log n = s.log n := rfl
  -- nothing has happened in the new term yet
  have hcand : (s.bump n t).cand n ((s.bump n t).term n) = none := by
    rw [hterm, eq_none_iff_forall_ne_some]
    intro l hl
    exact absurd (h.cand_le hl) (by omega)
  have hvote : (s.bump n t).vote n ((s.bump n t).term n) = none := by
    rw [hterm, eq_none_iff_forall_ne_some]
    intro c hc
    exact absurd (h.vote_le hc) (by omega)
  have hlt : ∀ e ∈ (s.bump n t).log n, R.term e < (s.bump n t).term n := by
    intro e he
    rw [hterm]
    exact (h.log_le n e he).trans_lt ht
  have hself : ((s.bump n t).stand n).cand n (((s.bump n t).stand n).term n) = some (s.log n) := by
    simp [State.stand, hlog]
  exact ⟨((Grows.bump ht.le).trans (Grows.stand hcand)).trans (Grows.castVote hvote),
    (hb.stand hcand hlt).castVote hvote hself (Rules.UpToDate.refl R _)⟩

theorem Step.grows (h : Inv R s) (hs : Step R n s s') : Grows s s' := by
  cases hs with
  | bump t ht => exact Grows.bump ht.le
  | campaign t ht => exact (h.campaign ht).1
  | grant c l hv => exact Grows.castVote hv
  | elect hc hl hq => exact Grows.elect h (h.leader_eq_none hc hl hq)
  | extend e hl => exact Grows.extend h hl
  | adopt l => exact Grows.setLog l
  | ack k => exact Grows.ack k
  | commit => exact (Grows.markCommitted _).trans (Grows.setCommit _)
  | learn k => exact Grows.setCommit k

theorem Step.inv (h : Inv R s) (hs : Step R n s s') : Inv R s' := by
  cases hs with
  | bump t ht => exact h.bump ht
  | campaign t ht => exact (h.campaign ht).2
  | grant c l hv hc hu => exact h.castVote hv hc hu
  | elect hc hl hq => exact h.elect hc (h.leader_eq_none hc hl hq) hq
  | extend e hl ht ha hc => exact h.extend hl ht ha hc
  | adopt l hl hp hk => exact h.adopt hl hp hk
  | ack k hl hk hp => exact h.ack hk hp
  | commit p e hl hp ht hc hq =>
    have hlog := h.leader_log hl
    have hev : Evidence R s (s.term n) (p ++ [e]).length (s.log n) :=
      ⟨p, e, hp, hlog ▸ List.prefix_rfl, rfl, ht, hq⟩
    refine (h.markCommitted hl hev).setCommit hp.length_le ?_
    refine .inr ⟨s.term n, _, le_rfl, Or.inr ⟨rfl, rfl⟩, ?_⟩
    rw [show (s.markCommitted n (p ++ [e]).length).llog (s.term n) = s.log n from hlog.symm]
    exact List.prefix_rfl
  | learn k hc hk hp => exact h.setCommit hk hp

theorem Steps.inv (h : Inv R s) (hs : Steps R n s s') : Inv R s' := by
  induction hs with
  | refl => exact h
  | tail _ hstep ih => exact hstep.inv ih

theorem Steps.grows (h : Inv R s) (hs : Steps R n s s') : Grows s s' := by
  induction hs with
  | refl => exact Grows.refl s
  | tail hsteps hstep ih => exact ih.trans (hstep.grows (Steps.inv h hsteps))

theorem Step.commit_le (hs : Step R n s s') : s.commit n ≤ s'.commit n := by
  cases hs with
  | commit p e hl hp ht hc => simpa [State.setCommit] using hc
  | learn k hc => simpa [State.setCommit] using hc
  | _ => exact le_rfl

/-- **A commit index never falls.** -/
theorem Steps.commit_le (hs : Steps R n s s') : s.commit n ≤ s'.commit n := by
  induction hs with
  | refl => exact le_rfl
  | tail _ hstep ih => exact ih.trans hstep.commit_le

theorem Step.keeps_committed (h : Inv R s) (hs : Step R n s s') {p : List E}
    (hp : s.CommittedPrefix (s.term n) p) (hl : p <+: s.log n) : p <+: s'.log n := by
  cases hs with
  | extend => simpa [State.extend] using hl.trans (List.prefix_append _ _)
  | adopt l hlead hpre hk => simpa [State.setLog] using hk p hl (h.committed_llog hp hlead)
  | _ => exact hl

/-- **Committed entries are never removed.** -/
theorem Steps.keeps_committed (h : Inv R s) (hs : Steps R n s s') {p : List E}
    (hp : s.CommittedPrefix (s.term n) p) (hl : p <+: s.log n) : p <+: s'.log n := by
  induction hs with
  | refl => exact hl
  | tail hsteps hstep ih =>
    have hg := Steps.grows h hsteps
    have hp' := (hp.of_grows hg).mono (hg.term n) List.prefix_rfl
    exact hstep.keeps_committed (Steps.inv h hsteps) hp' ih

/-! ## What the steps of one node leave alone -/

omit [DecidableEq N] in
/-- Nothing of a node other than `n` has changed. -/
structure Frame (n : N) (s s' : State N E) : Prop where
  term : ∀ {m}, m ≠ n → s'.term m = s.term m
  log : ∀ {m}, m ≠ n → s'.log m = s.log m
  commit : ∀ {m}, m ≠ n → s'.commit m = s.commit m
  vote : ∀ {m}, m ≠ n → s'.vote m = s.vote m
  cand : ∀ {m}, m ≠ n → s'.cand m = s.cand m
  leader : ∀ {m t}, m ≠ n → s'.leader t = some m → s.leader t = some m
  committed : ∀ {m t k}, m ≠ n → s.leader t = some m → s'.committed t k → s.committed t k

theorem Step.frame (hs : Step R n s s') : Frame n s s' := by
  cases hs with
  | elect =>
    refine ⟨fun _ => rfl, fun _ => rfl, fun _ => rfl, fun _ => rfl, fun _ => rfl, ?_, fun _ _ => id⟩
    intro m t hm ht
    by_cases htn : t = s.term n
    · subst htn
      simp only [State.elect, update_self, some.injEq] at ht
      exact absurd ht.symm hm
    · simpa [State.elect, update_of_ne htn] using ht
  | commit p e hl =>
    refine ⟨fun _ => rfl, fun _ => rfl, fun hm => ?_, fun _ => rfl, fun _ => rfl, fun _ => id, ?_⟩
    · simp [State.setCommit, State.markCommitted, update_of_ne hm]
    rintro m t k hm hlm (hk | ⟨rfl, -⟩)
    · exact hk
    · exact absurd (some.inj (hlm.symm.trans hl)) hm
  | _ =>
    refine ⟨fun hm => ?_, fun hm => ?_, fun hm => ?_, fun hm => ?_, fun hm => ?_,
      fun _ => id, fun _ _ => id⟩ <;>
    simp [State.bump, State.castVote, State.stand, State.extend, State.setLog, State.ack,
      State.setCommit, update_of_ne hm]

theorem Steps.frame (h : Inv R s) (hs : Steps R n s s') : Frame n s s' := by
  induction hs with
  | refl =>
    exact ⟨fun _ => rfl, fun _ => rfl, fun _ => rfl, fun _ => rfl, fun _ => rfl, fun _ => id,
      fun _ _ => id⟩
  | tail hsteps hstep ih =>
    have hf := hstep.frame
    refine ⟨fun hm => (hf.term hm).trans (ih.term hm), fun hm => (hf.log hm).trans (ih.log hm),
      fun hm => (hf.commit hm).trans (ih.commit hm), fun hm => (hf.vote hm).trans (ih.vote hm),
      fun hm => (hf.cand hm).trans (ih.cand hm), fun hm ht => ih.leader hm (hf.leader hm ht), ?_⟩
    intro m t k hm hl hk
    exact ih.committed hm hl (hf.committed hm ((Steps.grows h hsteps).leader hl) hk)

theorem Frame.forget (h : Frame n s s') (k : ℕ) : Frame n s (s'.setCommit n k) := by
  refine { h with commit := fun hm => ?_ }
  rw [← h.commit hm]
  simp [State.setCommit, update_of_ne hm]

end Brokkr.Consensus
