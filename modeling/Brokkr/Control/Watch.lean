import Brokkr.Control.Cluster

/-!
# The watch stream

An operator's console reads the cluster as a stream: a full snapshot, then the events of
every poll after it (`cluster/mod.rs`, `services/observability.rs`).  Snapshot and
events reach the stream by two ways: the poller *sends* the events of a round into a
bounded broadcast channel, one by one, and then *swaps* the shared snapshot; the stream
*subscribes* to the channel, *reads* the shared snapshot, and then receives.  A stream
that falls too far behind is told so and reads the snapshot again.

* `Watch.step` — the atomic steps of the poller and of one stream.
* `lastSnapshot` — what the client was sent since its last snapshot.
* `Watch.Fresh` — what a stream has not received is what the poller has sent in its
  current round: the states in which reading the snapshot is safe.
* `Watch.Inv` — what holds as long as the snapshot is read in such states only.
-/

namespace Brokkr.Cluster

open Option

open List

/-- The capacity of the broadcast of events. -/
def eventChannelCapacity : ℕ := 256

/-- An event and the number of swaps before its round. -/
abbrev Sent := ℕ × ClusterEvent

/-- What the client is sent.  The client sees the snapshot or the event; the number of
swaps before it was read, or before its round, is kept to state what is delivered. -/
inductive Delivery where
  | snapshot (version : ℕ) (s : ClusterSnapshot)
  | delta (e : Sent)
  deriving DecidableEq

/-- A poll whose snapshot is not shared yet. -/
structure Round where
  snapshot : ClusterSnapshot
  unsent : List ClusterEvent
  deriving DecidableEq

/-- Where a stream is in its task. -/
inductive Phase where
  | unsubscribed
  | subscribed
  | sending (d : Delivery)
  | receiving
  | lagged (missed : ℕ)
  | ended
  deriving DecidableEq

/-- The poller, the channel and one stream. -/
structure Watch where
  shared : ClusterSnapshot
  swaps : ℕ
  round : Option Round
  channel : List Sent
  phase : Phase
  next : ℕ
  out : List Delivery
  deriving DecidableEq

/-- The steps of the poller and of the stream. -/
inductive WatchStep where
  | poll (localState : NodeState) (peers : List PeerOutcome) (asOf : ℕ)
  | send
  | swap
  | subscribe
  | readSnapshot
  | recv
  | deliver
  | hangUp
  deriving DecidableEq

namespace Watch

/-- Before the first poll. -/
def init : Watch where
  shared :=
    { nodes := [], workers := [], policies := [], cas := [], jobs := [], leaderId := none,
      degraded := false, asOf := none }
  swaps := 0
  round := none
  channel := []
  phase := .unsubscribed
  next := 0
  out := []

/-- Receive from the channel: it keeps the newest events up to its capacity, and a
stream behind them is told how many it missed and goes on with the oldest one kept. -/
def recv (w : Watch) : Option Watch :=
  if w.next + eventChannelCapacity < w.channel.length then
    let oldest := w.channel.length - eventChannelCapacity
    some { w with phase := .lagged (oldest - w.next), next := oldest }
  else
    (w.channel[w.next]?).map fun e => { w with phase := .sending (.delta e), next := w.next + 1 }

/-- One step; `none` where it cannot be taken. -/
def step (w : Watch) : WatchStep → Option Watch
  | .poll localState peers asOf =>
    match w.round with
    | none =>
      let snapshot := merge localState peers asOf
      some { w with round := some ⟨snapshot, diff w.shared snapshot⟩ }
    | some _ => none
  | .send =>
    match w.round with
    | some ⟨snapshot, e :: unsent⟩ =>
      some { w with channel := w.channel ++ [(w.swaps, e)], round := some ⟨snapshot, unsent⟩ }
    | _ => none
  | .swap =>
    match w.round with
    | some ⟨snapshot, []⟩ => some { w with shared := snapshot, swaps := w.swaps + 1, round := none }
    | _ => none
  | .subscribe =>
    match w.phase with
    | .unsubscribed => some { w with phase := .subscribed, next := w.channel.length }
    | _ => none
  | .readSnapshot =>
    match w.phase with
    | .subscribed | .lagged _ => some { w with phase := .sending (.snapshot w.swaps w.shared) }
    | _ => none
  | .recv =>
    match w.phase with
    | .receiving => w.recv
    | _ => none
  | .deliver =>
    match w.phase with
    | .sending d => some { w with phase := .receiving, out := w.out ++ [d] }
    | _ => none
  | .hangUp =>
    match w.phase with
    | .sending _ => some { w with phase := .ended }
    | _ => none

/-- Take steps in order. -/
def run (w : Watch) (steps : List WatchStep) : Option Watch := steps.foldlM step w

end Watch

/-! ## The stream of a client -/

/-- The version of the last snapshot of a stream and the events after it. -/
def lastSnapshot : List Delivery → Option (ℕ × List Sent) :=
  List.foldl (fun last d =>
    match d with
    | .snapshot v _ => some (v, [])
    | .delta e => last.map fun (v, l) => (v, l ++ [e])) none

theorem lastSnapshot_snapshot (out : List Delivery) (v : ℕ) (s : ClusterSnapshot) :
    lastSnapshot (out ++ [.snapshot v s]) = some (v, []) := by
  simp [lastSnapshot]

theorem lastSnapshot_deltas (out : List Delivery) (events : List Sent) :
    lastSnapshot (out ++ events.map .delta) =
      (lastSnapshot out).map fun (v, l) => (v, l ++ events) := by
  induction events using reverseRecOn with
  | nil => simp
  | append_singleton events e ih =>
    have hlast : lastSnapshot (out ++ (events ++ [e]).map .delta) =
        (lastSnapshot (out ++ events.map .delta)).map fun (v, l) => (v, l ++ [e]) := by
      simp [lastSnapshot]
    rw [hlast, ih, Option.map_map]
    simp [Function.comp_def]

namespace Watch

variable {w w' : Watch}

/-- The events that the stream has not received. -/
def unread (w : Watch) : List Sent := w.channel.drop w.next

/-- The events of the rounds that a snapshot read after so many swaps does not include. -/
def sentSince (w : Watch) (version : ℕ) : List Sent :=
  w.channel.filter fun e => decide (version ≤ e.1)

/-- What the stream has not received is what the poller has sent in its current round. -/
def Fresh (w : Watch) : Prop := w.unread = w.sentSince w.swaps

instance (w : Watch) : Decidable w.Fresh := inferInstanceAs (Decidable (_ = _))

/-- What the client was sent and what it will be sent if the poller stops here, as long
as the stream is not told that it missed something. -/
def coming (w : Watch) : Option (List Delivery) :=
  match w.phase with
  | .sending d => some (w.out ++ [d] ++ w.unread.map .delta)
  | .receiving => some (w.out ++ w.unread.map .delta)
  | _ => none

/-- What holds as long as the shared snapshot is read in fresh states only. -/
structure Inv (w : Watch) : Prop where
  next_le : w.next ≤ w.channel.length
  sent : ∀ v l, lastSnapshot w.out = some (v, l) → ∀ e ∈ l, v ≤ e.1
  coming : ∀ out, w.coming = some out → ∃ v ≤ w.swaps, lastSnapshot out = some (v, w.sentSince v)

theorem inv_init : Inv init where
  next_le := le_rfl
  sent := by
    intro v l h
    cases h
  coming := by
    intro out h
    cases h

-- The poller changes the channel only by adding events of its own round at the end.
variable (h : Inv w)

include h

theorem Inv.send (e : ClusterEvent) (r : Option Round) :
    Inv { w with channel := w.channel ++ [(w.swaps, e)], round := r } where
  next_le := by
    rw [length_append]
    exact Nat.le_add_right_of_le h.next_le
  sent := h.sent
  coming := by
    intro out hout
    have hunread : (w.channel ++ [(w.swaps, e)]).drop w.next = w.unread ++ [(w.swaps, e)] :=
      drop_append_of_le_length h.next_le
    -- The stream to come is the one of the state before, followed by the new event.
    obtain ⟨before, hbefore, rfl⟩ :
        ∃ before, w.coming = some before ∧ out = before ++ [(w.swaps, e)].map .delta := by
      unfold Watch.coming at hout ⊢
      cases hphase : w.phase <;> simp_all [unread]
    obtain ⟨v, hv, hlast⟩ := h.coming before hbefore
    rw [lastSnapshot_deltas, hlast]
    simp [sentSince, hv]

theorem Inv.swap (s : ClusterSnapshot) :
    Inv { w with shared := s, swaps := w.swaps + 1, round := none } where
  next_le := h.next_le
  sent := h.sent
  coming := by
    intro out hout
    obtain ⟨v, hv, hlast⟩ := h.coming out hout
    exact ⟨v, Nat.le_succ_of_le hv, hlast⟩

-- A phase with nothing to come asks nothing of the stream.
theorem Inv.wait {phase : Phase} {next : ℕ} (hnext : next ≤ w.channel.length)
    (hphase : Watch.coming { w with phase := phase, next := next } = none) :
    Inv { w with phase := phase, next := next } where
  next_le := hnext
  sent := h.sent
  coming := by
    intro out hout
    rw [hphase] at hout
    cases hout

theorem Inv.readSnapshot (hfresh : w.Fresh) :
    Inv { w with phase := .sending (.snapshot w.swaps w.shared) } where
  next_le := h.next_le
  sent := h.sent
  coming := by
    rintro out ⟨⟩
    refine ⟨w.swaps, le_rfl, ?_⟩
    rw [lastSnapshot_deltas, lastSnapshot_snapshot]
    exact congrArg (fun l => some (w.swaps, l)) hfresh

theorem Inv.recv (hphase : w.phase = .receiving) (hw : w.recv = some w') :
    Inv w' := by
  unfold Watch.recv at hw
  split_ifs at hw with hlag
  · cases hw
    exact h.wait (Nat.sub_le _ _) rfl
  obtain ⟨e, he, rfl⟩ := map_eq_some_iff.1 hw
  obtain ⟨hlt, rfl⟩ := List.getElem?_eq_some_iff.1 he
  refine ⟨hlt, h.sent, ?_⟩
  rintro out ⟨⟩
  -- The event moves from the channel to the hands of the stream.
  apply h.coming
  simp only [Watch.coming, hphase, unread]
  rw [drop_eq_getElem_cons hlt, map_cons, append_assoc, singleton_append]

theorem Inv.deliver {d : Delivery} (hphase : w.phase = .sending d) :
    Inv { w with phase := .receiving, out := w.out ++ [d] } := by
  have hcoming := h.coming (w.out ++ [d] ++ w.unread.map .delta) (by rw [Watch.coming, hphase])
  refine ⟨h.next_le, ?_, ?_⟩
  · intro v l hlast e he
    obtain ⟨v', -, hlast'⟩ := hcoming
    rw [lastSnapshot_deltas, hlast, map_some, some_inj, Prod.mk.injEq] at hlast'
    obtain ⟨rfl, hevents⟩ := hlast'
    have hmem : e ∈ w.sentSince v := hevents ▸ mem_append_left _ he
    exact of_decide_eq_true (mem_filter.1 hmem).2
  · rintro out ⟨⟩
    exact hcoming

theorem Inv.hangUp : Inv { w with phase := .ended } := h.wait h.next_le rfl

theorem Inv.step {a : WatchStep} (hfresh : a = .readSnapshot → w.Fresh)
    (hw : w.step a = some w') : Inv w' := by
  cases a with
  | poll =>
    simp only [Watch.step] at hw
    split at hw <;> cases hw
    exact ⟨h.next_le, h.sent, h.coming⟩
  | send =>
    simp only [Watch.step] at hw
    split at hw <;> cases hw
    exact h.send _ _
  | swap =>
    simp only [Watch.step] at hw
    split at hw <;> cases hw
    exact h.swap _
  | subscribe =>
    simp only [Watch.step] at hw
    split at hw <;> cases hw
    exact h.wait le_rfl rfl
  | readSnapshot =>
    simp only [Watch.step] at hw
    split at hw <;> cases hw <;> exact h.readSnapshot (hfresh rfl)
  | recv =>
    simp only [Watch.step] at hw
    split at hw
    · exact h.recv ‹_› hw
    · cases hw
  | deliver =>
    simp only [Watch.step] at hw
    split at hw <;> cases hw
    exact h.deliver ‹_›
  | hangUp =>
    simp only [Watch.step] at hw
    split at hw <;> cases hw
    exact h.hangUp

/-! ## Runs -/

/-- The snapshot is read in fresh states only, all along a run. -/
def FreshAlong : Watch → List WatchStep → Prop
  | _, [] => True
  | w, a :: steps => (a = .readSnapshot → w.Fresh) ∧ ∀ w' ∈ w.step a, FreshAlong w' steps

instance decidableFreshAlong : ∀ (w : Watch) (steps : List WatchStep),
    Decidable (FreshAlong w steps)
  | _, [] => inferInstanceAs (Decidable True)
  | w, a :: steps =>
    have : ∀ w', Decidable (FreshAlong w' steps) := fun w' => decidableFreshAlong w' steps
    inferInstanceAs (Decidable ((a = .readSnapshot → w.Fresh) ∧ ∀ w' ∈ w.step a, _))

omit h

theorem run_cons {a : WatchStep} {steps : List WatchStep} :
    w.run (a :: steps) = (w.step a).bind fun w₁ => w₁.run steps :=
  rfl

theorem Inv.run (h : Inv w) {steps : List WatchStep} (hfresh : FreshAlong w steps)
    (hw : w.run steps = some w') : Inv w' := by
  induction steps generalizing w with
  | nil =>
    cases hw
    exact h
  | cons a steps ih =>
    obtain ⟨w₁, hstep, hrest⟩ := bind_eq_some_iff.1 hw
    exact ih (h.step hfresh.1 hstep) (hfresh.2 w₁ hstep) hrest

/-- Receive and hand on, a number of times. -/
def drain : ℕ → List WatchStep
  | 0 => []
  | n + 1 => .recv :: .deliver :: drain n

theorem run_drain {events : List Sent} (hphase : w.phase = .receiving)
    (hunread : w.unread = events) (hcapacity : events.length ≤ eventChannelCapacity) :
    ∃ w', w.run (drain events.length) = some w' ∧ w'.phase = .receiving ∧
      w'.out = w.out ++ events.map .delta := by
  induction events generalizing w with
  | nil => exact ⟨w, rfl, hphase, by simp⟩
  | cons e events ih =>
    have hlength : w.channel.length - w.next = events.length + 1 := by
      rw [← length_drop]
      exact congrArg List.length hunread
    rw [length_cons] at hcapacity
    have hnolag : ¬ w.next + eventChannelCapacity < w.channel.length := by omega
    have hlt : w.next < w.channel.length := by omega
    have hcons : w.channel.drop w.next = e :: events := hunread
    rw [drop_eq_getElem_cons hlt, List.cons.injEq] at hcons
    have hget : w.channel[w.next]? = some e := by
      rw [getElem?_eq_getElem hlt, hcons.1]
    obtain ⟨w', hrun, hphase', hout⟩ := ih
      (w := { w with phase := .receiving, next := w.next + 1, out := w.out ++ [.delta e] })
      rfl hcons.2 (by omega)
    refine ⟨w', ?_, hphase', ?_⟩
    · have htwo : w.run (drain (events.length + 1)) =
          run { w with phase := .receiving, next := w.next + 1, out := w.out ++ [.delta e] }
            (drain events.length) := by
        simp [run, drain, step, Watch.recv, hphase, hnolag, hget]
      rw [length_cons, htwo, hrun]
    · rw [hout, map_cons, append_assoc, singleton_append]

/-- What a client may rely on: after its last snapshot it was sent no event that the
snapshot includes; and while its stream was not told that it missed something, it was
sent, or will receive from the channel, every event that the snapshot does not include,
in order and once, down to the last one when the stream has caught up. -/
structure Complete (w : Watch) : Prop where
  noneOld : ∀ v l, lastSnapshot w.out = some (v, l) → ∀ e ∈ l, v ≤ e.1
  noneLost : w.phase = .receiving → ∃ v l, lastSnapshot w.out = some (v, l) ∧
    l ++ w.unread = w.sentSince v ∧
    (w.unread.length ≤ eventChannelCapacity → ∃ w', w.run (drain w.unread.length) = some w' ∧
        lastSnapshot w'.out = some (v, w.sentSince v))

theorem Inv.complete (h : Inv w) : Complete w where
  noneOld := h.sent
  noneLost := by
    intro hphase
    obtain ⟨v, -, hlast⟩ := h.coming (w.out ++ w.unread.map .delta) (by rw [Watch.coming, hphase])
    rw [lastSnapshot_deltas] at hlast
    obtain ⟨⟨v', l⟩, hout, heq⟩ := map_eq_some_iff.1 hlast
    rw [Prod.mk.injEq] at heq
    obtain ⟨rfl, hevents⟩ := heq
    refine ⟨v', l, hout, hevents, fun hcapacity => ?_⟩
    obtain ⟨w', hrun, -, hw'⟩ := run_drain hphase rfl hcapacity
    refine ⟨w', hrun, ?_⟩
    rw [hw', lastSnapshot_deltas, hlast]

/-- In every run whose stream reads the shared snapshot in fresh states only, the stream
is complete in every state. -/
theorem stream_complete (steps : List WatchStep) (w : Watch) (hfresh : FreshAlong init steps)
    (hw : init.run steps = some w) : Complete w :=
  (inv_init.run hfresh hw).complete

/-- A poll in which the node has won an election: one event, the change of the leader. -/
def samplePollStep : WatchStep := .poll (sampleState [] .leader false) [] 1700000000

/-- The stream opens between two polls and is sent the change of the second. -/
theorem stream_complete_sample :
    ∃ w, init.run [.subscribe, .readSnapshot, .deliver, samplePollStep, .send, .swap, .recv,
        .deliver] = some w ∧ Complete w := by
  obtain ⟨w, hw⟩ : ∃ w, init.run [.subscribe, .readSnapshot, .deliver, samplePollStep, .send,
      .swap, .recv, .deliver] = some w := isSome_iff_exists.1 (by decide +kernel)
  exact ⟨w, hw, stream_complete _ w (by decide +kernel) hw⟩

/-- A stream that opens after the poller has sent its events and before it swaps the
snapshot never hears of them; one that subscribes before they are sent and reads the
snapshot after the swap is sent them once more. -/
theorem incomplete_streams :
    (∃ w ∈ init.run [samplePollStep, .send, .subscribe, .readSnapshot, .deliver, .swap],
      ¬ Complete w) ∧
    ∃ w ∈ init.run [.subscribe, samplePollStep, .send, .swap, .readSnapshot, .deliver, .recv,
      .deliver], ¬ Complete w := by
  have hlost : ∃ w ∈ init.run [samplePollStep, .send, .subscribe, .readSnapshot, .deliver, .swap],
      w.phase = .receiving ∧ lastSnapshot w.out = some (0, []) ∧ w.unread ≠ w.sentSince 0 := by
    decide +kernel
  have hold : ∃ w ∈ init.run [.subscribe, samplePollStep, .send, .swap, .readSnapshot, .deliver,
      .recv, .deliver],
      lastSnapshot w.out = some (1, [(0, .leaderChanged none (some "n"))]) := by
    decide +kernel
  constructor
  · obtain ⟨w, hw, hphase, hout, hne⟩ := hlost
    refine ⟨w, hw, fun h => ?_⟩
    obtain ⟨v, l, hlast, hevents, -⟩ := h.noneLost hphase
    rw [hout, some_inj, Prod.mk.injEq] at hlast
    obtain ⟨rfl, rfl⟩ := hlast
    exact hne hevents
  · obtain ⟨w, hw, hout⟩ := hold
    refine ⟨w, hw, fun h => ?_⟩
    have hle : 1 ≤ 0 := h.noneOld _ _ hout _ (mem_singleton_self _)
    exact absurd hle (by decide)

end Watch

end Brokkr.Cluster
