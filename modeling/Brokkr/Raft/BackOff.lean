import Brokkr.Raft.LogShape

/-!
# How a leader finds the place where a follower's log departs from its own

A follower whose log does not match refuses a request with a hint, and the leader
moves its `next_index` for that follower to the hint and asks again.  The hint jumps
over all that the follower holds of one term, so the search ends after a number of
refusals that does not depend on how far the logs have diverged, only on how many terms
the follower's log knows of.

* `Exchange` — a leader and a follower alone with each other: the message on its way,
  and `Exchange.round`, in which it arrives and the reply returns.
* `firstOfTerm_spec` — where the hint points.
* `card_termsTo_lt` — below the hint there is one term less.
* `Exchange.At` — where an exchange stands: the logs are as they were, the message is
  the one for a `next_index`.  `At.round` says what a round makes of it.
* `Exchange.Facing` — what a leader and a follower of its term know of each other's
  logs; `Facing.settles` is the search.
-/

namespace Brokkr.Raft

open RaftNode

open Consensus List

variable {n : RaftNode} {state : LeaderState} {clock : ℕ → Instant × Instant}

/-! ## The exchange -/

/-- What is on its way from a leader to a follower. -/
inductive Flight where
  | request (request : AppendEntries)
  | snapshot (request : InstallSnapshot)
  | success
  | nothing

/-- A leader and a follower, alone with each other. -/
structure Exchange where
  leader : RaftNode
  follower : RaftNode
  flight : Flight

namespace Exchange

/-- What a call of the leader puts on its way. -/
def sends : Except RaftError (List Outbound) → Flight
  | .ok [.appendEntries _ request] => .request request
  | .ok [.installSnapshot _ request] => .snapshot request
  | _ => .nothing

/-- The leader has sent what it takes the follower to need. -/
def start (leader follower : RaftNode) (peer : NodeId) (seq : ℕ) : Exchange where
  leader := leader
  follower := follower
  flight := match leader.role with
    | .leader state => sends (leader.buildAll [(peer, nextFor state peer, seq)])
    | _ => .nothing

/-- The request arrives, and the leader gets the reply; `now` are the readings of the
follower's and of the leader's clock. -/
def round (peer : NodeId) (now : Instant × Instant) (x : Exchange) : Exchange :=
  match x.flight with
  | .request request =>
    let replied := x.follower.handleAppendEntries request now.1
    let handled := x.leader.handleAppendEntriesResponse peer replied.2 now.2
    { leader := handled.1
      follower := replied.1
      flight := if replied.2.success then .success else sends handled.2 }
  | _ => x

/-- The exchange after a number of rounds. -/
def after (peer : NodeId) (clock : ℕ → Instant × Instant) (x : Exchange) : ℕ → Exchange
  | 0 => x
  | k + 1 => (x.round peer (clock 0)).after peer (fun i => clock (i + 1)) k

/-- Does the follower refuse the request that is on its way? -/
def rejects (now : Instant × Instant) (x : Exchange) : Bool :=
  match x.flight with
  | .request request => !(x.follower.handleAppendEntries request now.1).2.success
  | _ => false

/-- The leader's `next_index` for the follower. -/
def nextIndex (peer : NodeId) (x : Exchange) : ℕ :=
  match x.leader.role with
  | .leader state => nextFor state peer
  | _ => 0

end Exchange

/-! ## The hint -/

section

variable {p q : ℕ}

theorem firstOfTerm_spec (n : RaftNode) (t : ℕ) (h0 : 0 < p) :
    0 < n.firstOfTerm t p ∧ n.firstOfTerm t p ≤ p ∧
      ∀ e, n.log.db.get (n.firstOfTerm t p - 1) = some e → n.firstOfTerm t p = 1 ∨ e.term ≠ t := by
  fun_induction RaftNode.firstOfTerm n t p with
  | case1 => exact absurd h0 (Nat.lt_irrefl 0)
  | case2 => exact ⟨Nat.one_pos, le_rfl, fun e _ => Or.inl rfl⟩
  | case3 i e he ht ih =>
    obtain ⟨hpos, hle, hstop⟩ := ih (Nat.succ_pos i)
    exact ⟨hpos, hle.trans (Nat.le_succ _), hstop⟩
  | case4 i e he ht =>
    refine ⟨Nat.succ_pos _, le_rfl, fun f hf => Or.inr ?_⟩
    cases he.symm.trans hf
    exact ht
  | case5 i he => exact ⟨Nat.succ_pos _, le_rfl, fun f hf => absurd (he.symm.trans hf) (by simp)⟩

/-- The terms of the entries that a node holds up to index `p`. -/
def RaftNode.termsTo (n : RaftNode) (p : ℕ) : Finset ℕ :=
  ((n.log.db.log.toList.filter fun b => decide (b.1 ≤ p)).map fun b => b.2.term).toFinset

/-- The terms of the entries that a node holds. -/
def RaftNode.terms (n : RaftNode) : Finset ℕ := (n.log.db.log.toList.map fun b => b.2.term).toFinset

theorem mem_termsTo {t : ℕ} :
    t ∈ n.termsTo p ↔ ∃ i e, n.log.db.get i = some e ∧ i ≤ p ∧ e.term = t := by
  simp only [RaftNode.termsTo, mem_toFinset, mem_map, mem_filter,
    decide_eq_true_eq, Prod.exists, Db.get, OrdMap.get?_eq_some, and_assoc]

theorem termsTo_subset (n : RaftNode) (p : ℕ) : n.termsTo p ⊆ n.terms := by
  intro t ht
  simp only [RaftNode.termsTo, RaftNode.terms, mem_toFinset, mem_map, mem_filter] at ht ⊢
  obtain ⟨b, ⟨hb, -⟩, hterm⟩ := ht
  exact ⟨b, hb, hterm⟩

/-- **Below the hint there is one term less.** -/
theorem card_termsTo_lt (hshape : n.log.db.Shaped)
    (hheld : ∀ i, n.log.db.snapshotIndex < i → i ≤ p → ∃ e, n.log.db.get i = some e)
    (habove : ∀ {i e}, n.log.db.get i = some e → n.log.db.snapshotIndex < i)
    {e : LogEntry} (he : n.log.db.get p = some e) :
    (n.termsTo (n.firstOfTerm e.term p - 1)).card < (n.termsTo p).card := by
  obtain ⟨hpos, hle, hstop⟩ := firstOfTerm_spec n e.term (Nat.zero_lt_of_lt (habove he))
  refine Finset.card_lt_card ⟨?_, ?_⟩
  · intro t ht
    obtain ⟨i, f, hf, hi, hterm⟩ := mem_termsTo.1 ht
    exact mem_termsTo.2 ⟨i, f, hf, by omega, hterm⟩
  intro hsub
  obtain ⟨i, f, hf, hi, hterm⟩ := mem_termsTo.1 (hsub (mem_termsTo.2 ⟨p, e, he, le_rfl, rfl⟩))
  have hlow := habove hf
  -- the entry before the run has the term of the run: it lies between two that have it
  obtain ⟨g, hg⟩ := hheld (n.firstOfTerm e.term p - 1) (by omega) (by omega)
  have hge := hshape.ordered hi hf hg
  have hge' := hshape.ordered (by omega : n.firstOfTerm e.term p - 1 ≤ p) hg he
  rcases hstop g hg with hone | hne
  · omega
  · exact hne (by omega)

end

/-! ## A round -/

/-- The same log, with what stands for its beginning, in the same term. -/
structure SameLog (n n' : RaftNode) : Prop where
  log : n'.log = n.log
  snapshot : n'.snapshot = n.snapshot
  hard : n'.hard = n.hard

/-- The term that a leader states for the entry at `p`. -/
def RaftNode.prevTerm (n : RaftNode) (p : ℕ) : ℕ := if p = 0 then 0 else (n.termAt p).getD 0

namespace SameLog

variable {n' n'' : RaftNode}

theorem refl (n : RaftNode) : SameLog n n := ⟨rfl, rfl, rfl⟩

variable (h : SameLog n n')

include h

theorem trans (h' : SameLog n' n'') : SameLog n n'' :=
  ⟨h'.log.trans h.log, h'.snapshot.trans h.snapshot, h'.hard.trans h.hard⟩

theorem snapshotIndex : n'.snapshotIndex = n.snapshotIndex := by
  rw [RaftNode.snapshotIndex, h.snapshot, ← RaftNode.snapshotIndex]

theorem termAt (p : ℕ) : n'.termAt p = n.termAt p := by
  rw [RaftNode.termAt, h.log, h.snapshot, ← RaftNode.termAt]

theorem prevTerm (p : ℕ) : n'.prevTerm p = n.prevTerm p := by
  rw [RaftNode.prevTerm, h.termAt, ← RaftNode.prevTerm]

theorem logMatches (p t : ℕ) : n'.logMatches p t = n.logMatches p t := by
  rw [RaftNode.logMatches, h.snapshotIndex, h.termAt, ← RaftNode.logMatches]

theorem firstOfTerm (t p : ℕ) : n'.firstOfTerm t p = n.firstOfTerm t p := by
  fun_induction RaftNode.firstOfTerm n' t p <;> simp_all [RaftNode.firstOfTerm, h.log]

theorem conflictHint (p : ℕ) : n'.conflictHint p = n.conflictHint p := by
  unfold RaftNode.conflictHint lastLogIndex
  rw [h.log]
  simp only [h.firstOfTerm]

omit h

theorem acceptLeader (n : RaftNode) (leader : NodeId) (now : Instant) :
    SameLog n (n.acceptLeader leader now) := by
  obtain ⟨results, hr⟩ := n.stepDownToFollower_eq
  rw [RaftNode.acceptLeader, hr]
  exact ⟨rfl, rfl, rfl⟩

end SameLog

theorem handleAppendEntries_of_term {request : AppendEntries}
    (h : request.term = n.hard.currentTerm) (now : Instant) :
    (n.logMatches request.prevLogIndex request.prevLogTerm = true →
      (n.handleAppendEntries request now).2.success = true) ∧
    (n.logMatches request.prevLogIndex request.prevLogTerm = false →
      SameLog n (n.handleAppendEntries request now).1 ∧
      (n.handleAppendEntries request now).2 =
        { term := n.hard.currentTerm, success := false
          conflictTerm := (n.conflictHint request.prevLogIndex).1
          conflictIndex := (n.conflictHint request.prevLogIndex).2
          matchIndex := 0, seq := request.seq }) := by
  have hsame := SameLog.acceptLeader n request.leaderId now
  rw [handleAppendEntries, observeTerm_of_le h.le]
  simp only [h, Nat.lt_irrefl, if_false, hsame.logMatches, hsame.conflictHint]
  refine ⟨fun hm => ?_, fun hm => ?_⟩
  · simp only [hm, Bool.not_true, Bool.false_eq_true, if_false]
    rfl
  · simp only [hm, Bool.not_false, if_true]
    exact ⟨hsame, trivial⟩

theorem backOff_noteLeadershipAck (hr : n.role = .leader state) (peer : NodeId) (seq i : ℕ) :
    ∃ state', SameLog n ((n.noteLeadershipAck peer seq).backOff peer i) ∧
      ((n.noteLeadershipAck peer seq).backOff peer i).role = .leader state' ∧
        nextFor state' peer = Nat.max i 1 := by
  simp only [noteLeadershipAck, hr, backOff]
  refine ⟨_, ⟨rfl, rfl, rfl⟩, rfl, ?_⟩
  rw [nextFor, OrdMap.get?_insert_self, Option.getD_some]

theorem handleAppendEntriesResponse_of_rejection (hr : n.role = .leader state)
    {response : AppendEntriesResponse} (ht : response.term = n.hard.currentTerm)
    (hs : response.success = false) (peer : NodeId) (now : Instant) :
    ∃ n' state' seq, SameLog n n' ∧ n'.role = .leader state' ∧
      nextFor state' peer = Nat.max response.conflictIndex 1 ∧
      n.handleAppendEntriesResponse peer response now =
        (n', n'.buildAll [(peer, Nat.max response.conflictIndex 1, seq)]) := by
  rw [handleAppendEntriesResponse, observeTerm_of_le ht.le]
  simp only [ht, hs, isLeader, hr, ne_eq, not_true_eq_false, decide_false, Bool.not_true,
    Bool.or_self, Bool.false_eq_true, if_false]
  obtain ⟨state₁, hsame, hr₁, hnext⟩ := backOff_noteLeadershipAck hr peer response.seq
    response.conflictIndex
  generalize (n.noteLeadershipAck peer response.seq).backOff peer response.conflictIndex = n₁
    at hsame hr₁ ⊢
  refine ⟨{ n₁ with role := .leader { state₁ with aeSeq := state₁.aeSeq + 1 } },
    { state₁ with aeSeq := state₁.aeSeq + 1 }, state₁.aeSeq + 1, ?_, rfl, hnext, ?_⟩
  · exact hsame.trans ⟨rfl, rfl, rfl⟩
  · simp only [replicateTo, hr₁, hnext]

namespace Exchange

variable {L F : RaftNode} {peer : NodeId} {x : Exchange} {next : ℕ}

/-- The message for a `next_index`. -/
def FlightAt (L : RaftNode) (next : ℕ) (flight : Flight) : Prop :=
  (next ≤ L.snapshotIndex → ∃ request, flight = .snapshot request) ∧
  (L.snapshotIndex < next → ∃ request, flight = .request request ∧
    request.term = L.hard.currentTerm ∧ request.prevLogIndex = next - 1 ∧
      request.prevLogTerm = L.prevTerm (next - 1))

theorem flightAt_buildAll (h : SameLog L n) (h0 : 0 < next)
    (hblob : 0 < L.snapshotIndex → L.log.db.snapshot ≠ none) (peer : NodeId) (seq : ℕ) :
    FlightAt L next (sends (n.buildAll [(peer, next, seq)])) := by
  rw [buildAll, buildAll, appendEntriesFor, h.snapshotIndex]
  refine ⟨fun hle => ?_, fun hlt => ?_⟩
  · obtain ⟨⟨info, data⟩, hs⟩ := Option.ne_none_iff_exists'.1 (hblob (h0.trans_le hle))
    simp only [hle, if_true, h.log, hs]
    exact ⟨_, rfl⟩
  simp only [Nat.not_le.2 hlt, if_false]
  refine ⟨_, rfl, ?_, rfl, h.prevTerm (next - 1)⟩
  exact congrArg HardState.currentTerm h.hard

/-- Where an exchange stands that began between `L` and `F`: their logs are what they
were, and the leader has just asked from `next` on. -/
structure At (L F : RaftNode) (peer : NodeId) (next : ℕ) (x : Exchange) : Prop where
  leader : SameLog L x.leader
  follower : SameLog F x.follower
  role : ∃ state, x.leader.role = .leader state ∧ nextFor state peer = next
  flight : FlightAt L next x.flight

theorem At.nextIndex (h : At L F peer next x) : x.nextIndex peer = next := by
  obtain ⟨state, hr, hnext⟩ := h.role
  rw [Exchange.nextIndex, hr]
  exact hnext

/-- **A round**: it ends with a success if the logs agree right before `next`, and
otherwise the leader asks again from the hint. -/
theorem At.round (h : At L F peer next x) (hs : L.snapshotIndex < next)
    (hterm : F.hard.currentTerm = L.hard.currentTerm)
    (hblob : 0 < L.snapshotIndex → L.log.db.snapshot ≠ none) (now : Instant × Instant) :
    (F.logMatches (next - 1) (L.prevTerm (next - 1)) = true →
      (x.round peer now).flight = .success) ∧
    (F.logMatches (next - 1) (L.prevTerm (next - 1)) = false → x.rejects now = true ∧
        At L F peer (Nat.max (F.conflictHint (next - 1)).2 1) (x.round peer now)) := by
  obtain ⟨request, hflight, ht, hprev, hprevTerm⟩ := h.flight.2 hs
  obtain ⟨state, hr, -⟩ := h.role
  have hreq : request.term = x.follower.hard.currentTerm := by
    rw [ht, h.follower.hard, hterm]
  obtain ⟨haccept, hreject⟩ := handleAppendEntries_of_term hreq now.1
  rw [h.follower.logMatches, hprev, hprevTerm] at haccept hreject
  rw [h.follower.conflictHint] at hreject
  simp only [Exchange.round, Exchange.rejects, hflight]
  refine ⟨fun hm => by rw [haccept hm, if_pos rfl], fun hm => ?_⟩
  obtain ⟨hsame, hreply⟩ := hreject hm
  have hresponse : (x.follower.handleAppendEntries request now.1).2.term =
      x.leader.hard.currentTerm := by
    rw [hreply, h.follower.hard, h.leader.hard, hterm]
  obtain ⟨n', state', seq, hn', hr', hnext, hhandled⟩ :=
    handleAppendEntriesResponse_of_rejection hr hresponse (by rw [hreply]) peer now.2
  rw [hhandled]
  refine ⟨by rw [hreply]; rfl, h.leader.trans hn', h.follower.trans hsame, ?_, ?_⟩
  · exact ⟨state', hr', by rw [hnext, hreply]⟩
  rw [hreply]
  exact flightAt_buildAll (h.leader.trans hn') (Nat.lt_of_lt_of_le Nat.one_pos
    (Nat.le_max_right _ _)) hblob peer seq

/-! ## The search -/

/-- A leader and a follower of its term, as they face each other in a run. -/
structure Facing (L F : RaftNode) : Prop where
  term : F.hard.currentTerm = L.hard.currentTerm
  blob : 0 < L.snapshotIndex → L.log.db.snapshot ≠ none
  index : F.snapshotIndex = F.log.db.snapshotIndex
  shaped : F.log.db.Shaped
  held : ∀ i, F.snapshotIndex < i → i ≤ F.lastLogIndex → ∃ e, F.log.db.get i = some e
  above : ∀ {i e}, F.log.db.get i = some e → F.snapshotIndex < i
  within : F.lastLogIndex < u64Max
  agree : ∀ p, L.snapshotIndex ≤ p → p ≤ F.snapshotIndex → F.logMatches p (L.prevTerm p) = true

/-- After at most `c` refusals, each of which lowers `next_index`, there is a success
or a snapshot is sent. -/
def SettlesWithin (peer : NodeId) (clock : ℕ → Instant × Instant) (x : Exchange) (c : ℕ) : Prop :=
  ∃ j ≤ c, (∀ i < j, (x.after peer clock i).rejects (clock i) = true ∧
      (x.after peer clock (i + 1)).nextIndex peer < (x.after peer clock i).nextIndex peer) ∧
    ((∃ request, (x.after peer clock j).flight = .snapshot request) ∨
      (x.after peer clock (j + 1)).flight = .success)

theorem SettlesWithin.mono {c c' : ℕ} (h : SettlesWithin peer clock x c) (hc : c ≤ c') :
    SettlesWithin peer clock x c' := by
  obtain ⟨j, hj, hrest⟩ := h
  exact ⟨j, hj.trans hc, hrest⟩

theorem SettlesWithin.cons {c : ℕ} (hrejects : x.rejects (clock 0) = true)
    (hlt : (x.round peer (clock 0)).nextIndex peer < x.nextIndex peer)
    (h : SettlesWithin peer (fun i => clock (i + 1)) (x.round peer (clock 0)) c) :
    SettlesWithin peer clock x (c + 1) := by
  obtain ⟨j, hj, hlow, hend⟩ := h
  refine ⟨j + 1, Nat.succ_le_succ hj, fun i hi => ?_, hend⟩
  cases i with
  | zero => exact ⟨hrejects, hlt⟩
  | succ i => exact hlow i (Nat.lt_of_succ_lt_succ hi)

variable (h : Facing L F)

include h

theorem Facing.conflict {p : ℕ} (hp : L.snapshotIndex ≤ p)
    (hm : F.logMatches p (L.prevTerm p) = false) :
    F.lastLogIndex < p ∧ (F.conflictHint p).2 = F.lastLogIndex + 1 ∨
    ∃ e, F.log.db.get p = some e ∧ p ≤ F.lastLogIndex ∧
      (F.conflictHint p).2 = F.firstOfTerm e.term p := by
  have hs : F.snapshotIndex < p := by
    by_contra hle
    rw [h.agree p hp (Nat.not_lt.1 hle)] at hm
    cases hm
  rw [RaftNode.conflictHint]
  rcases Nat.lt_or_ge F.lastLogIndex p with hlt | hge
  · refine .inl ⟨hlt, ?_⟩
    simp only [hlt, if_true]
    exact saturatingSucc_of_lt h.within
  obtain ⟨e, he⟩ := h.held p hs hge
  refine .inr ⟨e, he, hge, ?_⟩
  simp only [Nat.not_lt.2 hge, if_false, he]
  rfl

theorem Facing.hint (hs : L.snapshotIndex < next)
    (hm : F.logMatches (next - 1) (L.prevTerm (next - 1)) = false) :
    ∃ next', Nat.max (F.conflictHint (next - 1)).2 1 = next' ∧ next' < next ∧
      next' - 1 ≤ F.lastLogIndex ∧
      (next - 1 ≤ F.lastLogIndex → (F.termsTo (next' - 1)).card < (F.termsTo (next - 1)).card) := by
  refine ⟨_, rfl, ?_⟩
  rcases h.conflict (Nat.le_sub_one_of_lt hs) hm with ⟨hlt, hhint⟩ | ⟨e, he, hle, hhint⟩
  · have hmax : Nat.max (F.lastLogIndex + 1) 1 = F.lastLogIndex + 1 :=
      Nat.max_eq_left (Nat.le_add_left 1 _)
    rw [hhint, hmax]
    exact ⟨by omega, le_rfl, fun hge => absurd hge (Nat.not_le.2 hlt)⟩
  obtain ⟨hpos, hfirst, -⟩ := firstOfTerm_spec F e.term (Nat.zero_lt_of_lt (h.above he))
  have hmax : Nat.max (F.firstOfTerm e.term (next - 1)) 1 = F.firstOfTerm e.term (next - 1) :=
    Nat.max_eq_left hpos
  rw [hhint, hmax]
  refine ⟨by omega, by omega, fun _ => ?_⟩
  exact card_termsTo_lt h.shaped (fun i hi hip => h.held i (h.index ▸ hi) (hip.trans hle))
    (fun he => h.index ▸ h.above he) he

theorem Facing.round (hx : At L F peer next x) (clock : ℕ → Instant × Instant) :
    SettlesWithin peer clock x 0 ∨ x.rejects (clock 0) = true ∧ ∃ next',
      At L F peer next' (x.round peer (clock 0)) ∧
      (x.round peer (clock 0)).nextIndex peer < x.nextIndex peer ∧
      next' - 1 ≤ F.lastLogIndex ∧
      (next - 1 ≤ F.lastLogIndex → (F.termsTo (next' - 1)).card < (F.termsTo (next - 1)).card) := by
  rcases Nat.lt_or_ge L.snapshotIndex next with hs | hle
  · obtain ⟨haccept, hreject⟩ := hx.round hs h.term h.blob (clock 0)
    cases hm : F.logMatches (next - 1) (L.prevTerm (next - 1)) with
    | true =>
      exact .inl ⟨0, le_rfl, fun i hi => absurd hi (Nat.not_lt_zero i), Or.inr (haccept hm)⟩
    | false =>
      obtain ⟨hrejects, hx'⟩ := hreject hm
      obtain ⟨next', hnext, hlt, hlast, hcard⟩ := h.hint hs hm
      rw [hnext] at hx'
      refine .inr ⟨hrejects, next', hx', ?_, hlast, hcard⟩
      rw [hx'.nextIndex, hx.nextIndex]
      exact hlt
  · exact .inl ⟨0, le_rfl, fun i hi => absurd hi (Nat.not_lt_zero i), Or.inl (hx.flight.1 hle)⟩

/-- **The search ends**, once it is within the follower's log, after at most as many
refusals as there are terms up to where it stands. -/
theorem Facing.settles (hx : At L F peer next x)
    (hlast : next - 1 ≤ F.lastLogIndex) :
    SettlesWithin peer clock x (F.termsTo (next - 1)).card := by
  induction hc : (F.termsTo (next - 1)).card using Nat.strong_induction_on
    generalizing x next clock with
  | _ c ih =>
    rcases h.round hx clock with hdone | ⟨hrejects, next', hx', hlt, hlast', hcard⟩
    · exact hdone.mono (Nat.zero_le c)
    · have hless := hc ▸ hcard hlast
      exact (SettlesWithin.cons hrejects hlt (ih _ hless hx' hlast' rfl)).mono hless

theorem Facing.settles_of_at (hx : At L F peer next x) :
    SettlesWithin peer clock x (1 + F.terms.card) := by
  rcases h.round hx clock with hdone | ⟨hrejects, next', hx', hlt, hlast', -⟩
  · exact hdone.mono (Nat.zero_le _)
  refine (SettlesWithin.cons hrejects hlt (h.settles hx' hlast')).mono ?_
  rw [Nat.add_comm]
  exact Nat.add_le_add_left (Finset.card_le_card (termsTo_subset F (next' - 1))) 1

omit h

theorem at_start (hr : L.role = .leader state) (h0 : 0 < nextFor state peer)
    (hblob : 0 < L.snapshotIndex → L.log.db.snapshot ≠ none) (F : RaftNode) (seq : ℕ) :
    At L F peer (nextFor state peer) (start L F peer seq) where
  leader := .refl L
  follower := .refl F
  role := ⟨state, hr, rfl⟩
  flight := by
    simp only [start, hr]
    exact flightAt_buildAll (.refl L) h0 hblob peer seq

end Exchange

/-! ## Every run -/

section

variable {r : Run} {k : ℕ} {id peer : NodeId} {m m' : Member}

theorem Run.facing (hl : r.Has k id m) (hf : r.Has k peer m') (hlead : m.node.isLeader = true)
    (ht : m'.node.hard.currentTerm = m.node.hard.currentTerm) :
    Exchange.Facing m.node m'.node := by
  obtain ⟨chain, hc⟩ := r.exists_refines
  have hL := (hc.member hl).node
  have hF := (hc.member hf).node
  have hinv := hc.inv k
  obtain ⟨helected, hlog⟩ := (hc.member hl).elected hinv hlead
  have hlast := hF.lastLogIndex hinv
  refine ⟨ht, ?_, hF.snapshotIndex_eq, hF.dur.shaped hinv, ?_, ?_, ?_, ?_⟩
  · rw [hL.snapshotIndex_eq, Db.snapshotIndex]
    intro hpos hnone
    rw [hnone] at hpos
    exact absurd hpos (Nat.lt_irrefl 0)
  · intro i hs hi
    rw [hF.snapshotIndex_eq] at hs
    rw [hF.get_eq hs]
    exact ⟨_, getElem?_eq_getElem (by omega)⟩
  · intro i e he
    rw [hF.snapshotIndex_eq]
    exact (hF.get_some he).1
  · exact (r.within_state k (peer, m') (OrdMap.get?_eq_some.1 hf)).2
  intro p hLp hFp
  rw [hL.snapshotIndex_eq] at hLp
  rw [RaftNode.logMatches]
  split
  · rfl
  split
  · rfl
  rename_i h0 hge
  have hp : p ≤ (chain k).commit peer := by
    rw [hF.snapshotIndex_eq] at hFp
    exact hFp.trans hF.dur.snapshot_le
  have hFlen := hp.trans (hinv.commit_le peer)
  have hterm : (chain k).term peer = m.node.hard.currentTerm := by
    rw [← hF.currentTerm, ht]
  -- both logs have committed this much, so they agree on it
  have htake := (Rel.start hF hinv).take_of_le_commit
    (by rw [hterm, helected]; exact Option.some_ne_none _) hp
  rw [hterm, ← hlog] at htake
  have hLlen : p ≤ ((chain k).log id).length := by
    have hlen := congrArg List.length htake
    rw [length_take, length_take] at hlen
    omega
  rw [decide_eq_true_eq, RaftNode.prevTerm, if_neg h0,
    hF.termAt_eq (by omega) (by rw [← hF.snapshotIndex_eq]; omega) hFlen,
    hL.termAt_eq (by omega) hLp hLlen, htake]
  rfl

/-- **Fast back-off.**  A leader and another node of its term that exchange requests and
replies alone settle after at most one refusal more than there are terms in the
follower's log: the leader gets a success or sends a snapshot; and every refusal lowers
its `next_index` for the follower. -/
theorem backs_off_fast (hl : r.Has k id m) (hf : r.Has k peer m')
    (hlead : m.node.isLeader = true) (ht : m'.node.hard.currentTerm = m.node.hard.currentTerm)
    (seq : ℕ) (clock : ℕ → Instant × Instant) :
    ∃ j ≤ 1 + m'.node.terms.card, (∀ i < j,
        ((Exchange.start m.node m'.node peer seq).after peer clock i).rejects (clock i) = true ∧
        ((Exchange.start m.node m'.node peer seq).after peer clock (i + 1)).nextIndex peer <
          ((Exchange.start m.node m'.node peer seq).after peer clock i).nextIndex peer) ∧
      ((∃ request, ((Exchange.start m.node m'.node peer seq).after peer clock j).flight =
          .snapshot request) ∨
        ((Exchange.start m.node m'.node peer seq).after peer clock (j + 1)).flight = .success) := by
  obtain ⟨chain, hc⟩ := r.exists_refines
  have hfacing := r.facing hl hf hlead ht
  have hrole := (hc.member hl).node.role
  cases hr : m.node.role with
  | leader =>
    rw [hr] at hrole
    exact hfacing.settles_of_at
      (Exchange.at_start hr (Leading.nextFor hrole peer).1 hfacing.blob m'.node seq)
  | _ =>
    rw [isLeader, hr] at hlead
    cases hlead

open Sample

/-- `a` leads the first term and keeps its entry to itself; `b` leads the second one with
`c`, which then leads the third one with the vote of `a`. -/
def Sample.divergedRun : Run where
  voters := voters
  starts := starts
  events := [tick a 1000, deliver 0 1001, deliver 2 1002, tick b 2000, deliver 6 2001,
    deliver 7 2002, deliver 9 2003, deliver 4 2004, deliver 11 2005, tick c 3000,
    deliver 12 3001, deliver 14 3002]
  within := by decide +kernel

/-- The logs of `c` and `a` differ at the first index, after which `c` asks. -/
theorem backs_off_fast_sample : ∃ m m', divergedRun.Has 12 c m ∧ divergedRun.Has 12 a m' ∧
    m.node.termAt 1 = some 2 ∧ m'.node.termAt 1 = some 1 ∧
    ∃ j ≤ 1 + 1, ((∃ request, ((Exchange.start m.node m'.node a 0).after a
        (fun _ => (0, 0)) j).flight = .snapshot request) ∨
      ((Exchange.start m.node m'.node a 0).after a
        (fun _ => (0, 0)) (j + 1)).flight = .success) := by
  obtain ⟨m, hm, hp⟩ := divergedRun.exists_has 12 c (fun m => m.node.isLeader &&
    decide (m.node.hard.currentTerm = 3 ∧ m.node.termAt 1 = some 2)) (by decide +kernel)
  obtain ⟨m', hm', hp'⟩ := divergedRun.exists_has 12 a (fun m => decide
    (m.node.hard.currentTerm = 3 ∧ m.node.termAt 1 = some 1 ∧ m.node.terms.card = 1))
    (by decide +kernel)
  rw [Bool.and_eq_true, decide_eq_true_eq] at hp
  obtain ⟨hterm, hold, hcard⟩ := of_decide_eq_true hp'
  obtain ⟨j, hj, -, hend⟩ := backs_off_fast hm hm' hp.1 (by rw [hterm, hp.2.1]) 0 fun _ => (0, 0)
  exact ⟨m, m', hm, hm', hp.2.2, hold, j, hcard ▸ hj, hend⟩

end

end Brokkr.Raft
