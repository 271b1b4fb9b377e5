import Brokkr.Raft.Driver.Waiters

/-!
# Acknowledged proposals

A call that asks for a command to be committed is answered `Ok(i)` when the driver
applies an entry at the index and of the term its own entry was appended with.
Index and term pin an entry down in the whole cluster, so the entry applied is the
one the call appended.

* `DriverRun.Appended` — the entry that a call has appended.
* `Honest` — what a driver's books say is true: of those who wait, and of those
  who were answered.
* `acknowledged_is_committed` — an acknowledged command is committed, and a call
  that lost its index to another entry is never acknowledged.
* `acknowledged_after_overwrite` — an entry may be overwritten in the log of the
  node that appended it, come back with a later leader, and be acknowledged then.
-/

namespace Brokkr.Raft

open RaftDriver

open Consensus List

variable {S : Type} {M : StateMachine S}

/-! ## Calls and their entries -/

namespace DriverRun

variable {r : DriverRun M} {chain : ℕ → AState} {k : ℕ} {id : NodeId} {action : DriverAction}
  {call : Call} {origin : Option Packet} {d d₁ d₂ d' : RaftDriver S} {m₁ m : Member}
  {a a' : AState}

theorem clock_eq (r : DriverRun M) (hk : k ≤ r.events.length) : (r.state k).clock = k := by
  induction k with
  | zero => rfl
  | succ k ih =>
    have hstep : ∀ e, ((r.state k).step M e).clock = (r.state k).clock + 1 := by
      intro e
      cases e <;> simp only [DriverCluster.step] <;> split <;> rfl
    rw [r.state_succ (getElem?_eq_getElem hk), hstep, ih (by omega)]

/-- The event after moment `k` is a client call. -/
def Asked (r : DriverRun M) (k : ℕ) (request : ClientCall) : Prop :=
  ∃ e id now, r.events[k]? = some e ∧ e.action = .client id request now

theorem Asked.unique {request request' : ClientCall} (h : r.Asked k request)
    (h' : r.Asked k request') : request = request' := by
  obtain ⟨e, id, now, he, haction⟩ := h
  obtain ⟨e', id', now', he', haction'⟩ := h'
  obtain rfl := Option.some.inj (he.symm.trans he')
  cases haction.symm.trans haction'
  rfl

/-- The call in event `k` asks for a command to be committed, and `entry` is the entry
it has appended: it is the last one of the log, and was not there before. -/
def Appended (r : DriverRun M) (k : ℕ) (entry : LogEntry) : Prop :=
  ∃ e id command now m₀ m₁, r.events[k]? = some e ∧
    e.action = .client id (.proposeCommitted command) now ∧
    r.nodeRun.Has (r.moment k) id m₀ ∧ r.nodeRun.Has (r.moment k + 1) id m₁ ∧
    entry = LogEntry.new m₀.node.hard.currentTerm m₁.node.lastLogIndex command ∧
    m₀.entryAt entry.index = none ∧ m₁.entryAt entry.index = some entry

theorem Began.appended (h : r.Began k id action call origin d d₁ m₁)
    (hc : r.nodeRun.Refines chain) {e : DriverEvent} (he : r.events[k]? = some e)
    (haction : e.action = action) {command : Bytes} {now : Instant} {outs : List Outbound}
    (hasked : action = .client id (.proposeCommitted command) now)
    (hp : d.node.begin.propose command now = (d₁.node, .ok outs)) :
    ∃ entry, r.Appended k entry ∧ entry.term = d₁.node.hard.currentTerm ∧
      entry.index = d₁.node.lastLogIndex ∧
      ((chain (r.moment k + 1)).llog entry.term)[entry.index - 1]? = some entry := by
  obtain ⟨hhard, hlast, hget⟩ := h.proposed hc hp
  obtain ⟨m, hm, hnode, -⟩ := has_node hc h.before
  have hmem := hc.member hm
  have hmem₁ := hc.member h.called
  have hlen := hmem.node.lastLogIndex (hc.inv _)
  rw [hnode] at hlen
  rw [← h.node] at hget
  obtain ⟨-, hlog⟩ := hmem₁.node.get_some hget
  refine ⟨LogEntry.new d.node.hard.currentTerm (d.node.lastLogIndex + 1) command, ?_, ?_, ?_, ?_⟩
  · refine ⟨e, id, command, now, m, m₁, he, haction.trans hasked, hm, h.called, ?_, ?_, ?_⟩
    · rw [hnode, h.node, hlast]
    · show m.entryAt (d.node.lastLogIndex + 1) = none
      rw [hmem.entryAt_eq (hc.inv _) (Nat.succ_pos _)]
      exact List.getElem?_eq_none (by omega)
    · show m₁.entryAt (d.node.lastLogIndex + 1) = _
      rw [hmem₁.entryAt_eq (hc.inv _) (Nat.succ_pos _)]
      exact hlog
  · rw [hhard]
    rfl
  · rw [hlast]
    rfl
  · exact ((hc.inv _).log_anchored id).getElem? hlog

/-- The entry that a call has appended is in the log of the leader of its term. -/
def Proposed (r : DriverRun M) (a : AState) (k : ℕ) (entry : LogEntry) : Prop :=
  r.Appended k entry ∧ (a.llog entry.term)[entry.index - 1]? = some entry

/-- The entry that a call has appended is committed. -/
def Acked (r : DriverRun M) (k i : ℕ) : Prop :=
  0 < i ∧ ∃ entry j id m, r.Appended k entry ∧ entry.index = i ∧ r.nodeRun.Has j id m ∧
    i ≤ m.node.commitIndex ∧ m.entryAt i = some entry

theorem Proposed.mono {entry : LogEntry} (h : r.Proposed a k entry) (hg : Grows a a') :
    r.Proposed a' k entry := by
  obtain ⟨hlt, -⟩ := List.getElem?_eq_some_iff.1 h.2
  obtain ⟨rest, hrest⟩ := hg.llog entry.term
  refine ⟨h.1, ?_⟩
  rw [← hrest, getElem?_append_left hlt, h.2]

/-! ## Honest books -/

/-- What the books of a driver say is true. -/
structure Honest (r : DriverRun M) (a : AState) (d : RaftDriver S) : Prop where
  reads : ∀ {ticket caller}, d.readsAwaitingConfirm.get? ticket = some caller →
    r.Asked caller .readIndex
  reading : ∀ w ∈ d.awaitingApply, w.expectedTerm = none → r.Asked w.sender .readIndex
  proposing : ∀ w ∈ d.awaitingApply, ∀ t, w.expectedTerm = some t →
    ∃ entry, r.Proposed a w.sender entry ∧ entry.term = t ∧ entry.index = w.index
  answered : ∀ {caller i}, (caller, .ok (.index i)) ∈ d.answers →
    r.Asked caller .readIndex ∨ r.Acked caller i

namespace Honest

variable (h : Honest r a d)

include h

theorem mono (hg : Grows a a') : Honest r a' d where
  reads := h.reads
  reading := h.reading
  proposing w hw t ht := by
    obtain ⟨entry, hp, hterm, hindex⟩ := h.proposing w hw t ht
    exact ⟨entry, hp.mono hg, hterm, hindex⟩
  answered := h.answered

theorem resumed (n : RaftNode) : Honest r a (RaftDriver.resumed M n d.answers) where
  reads hget := by cases hget
  reading w hw := absurd hw not_mem_nil
  proposing w hw := absurd hw not_mem_nil
  answered := h.answered

theorem resolveWaiters
    {v : AppliedWaiter → Option (Except RaftError Answer)}
    (hv : ∀ w ∈ d.awaitingApply, ∀ i, v w = some (.ok (.index i)) →
      r.Asked w.sender .readIndex ∨ r.Acked w.sender i) :
    Honest r a (d.resolveWaiters v) where
  reads := h.reads
  reading w hw := h.reading w (mem_awaitingApply_resolveWaiters.1 hw).1
  proposing w hw := h.proposing w (mem_awaitingApply_resolveWaiters.1 hw).1
  answered hx := by
    rcases mem_answers_resolveWaiters.1 hx with hx | ⟨w, hw, hverdict, rfl⟩
    · exact h.answered hx
    · exact hv w hw _ hverdict

theorem settleRead (read : ℕ × Except RaftError ℕ) :
    Honest r a (d.settleRead read) := by
  have herase : ∀ {ticket caller}, (d.readsAwaitingConfirm.erase read.1).get? ticket = some caller →
      r.Asked caller .readIndex := by
    intro ticket caller hget
    obtain ⟨-, hget⟩ := OrdMap.of_get?_erase hget
    exact h.reads hget
  rcases d.settleRead_cases read with heq | ⟨sender, hsender, heq | ⟨index, -, heq⟩⟩
  · rw [heq]
    exact h
  · rw [heq]
    refine ⟨herase, h.reading, h.proposing, ?_⟩
    intro caller i hx
    rcases mem_append.1 hx with hx | hx
    · exact h.answered hx
    · obtain rfl : caller = sender := congrArg Prod.fst (mem_singleton.1 hx)
      exact .inl (h.reads hsender)
  rw [heq]
  refine ⟨herase, ?_, ?_, h.answered⟩
  · intro w hw ht
    rcases mem_append.1 hw with hw | hw
    · exact h.reading w hw ht
    · rw [mem_singleton.1 hw]
      exact h.reads hsender
  intro w hw t ht
  rcases mem_append.1 hw with hw | hw
  · exact h.proposing w hw t ht
  · rw [mem_singleton.1 hw] at ht
    cases ht

/-- **Applying an entry** answers a proposal `Ok` only if the entry is its own. -/
theorem applyEntry {j : ℕ} (hm : r.nodeRun.Has j id m)
    (hrel : MemberRel r.voters a id m) (hi : Inv (rules r.voters) a) {e : LogEntry}
    (hlt : d.lastApplied < m.node.commitIndex) (he : (a.log id)[d.lastApplied]? = some e) :
    Honest r a (d.applyEntry M (d.lastApplied + 1) e) := by
  refine resolveWaiters (d := { d with
    machine := M.apply d.machine e
    lastApplied := d.lastApplied + 1 }) ⟨h.reads, h.reading, h.proposing, h.answered⟩ ?_
  intro w hw i hverdict
  unfold applyVerdict at hverdict
  split at hverdict
  · cases hverdict
  rename_i hindex
  rw [not_not] at hindex
  split at hverdict
  · rename_i expected hexpected
    split at hverdict
    · cases hverdict
    rename_i hterm
    rw [not_not] at hterm
    cases hverdict
    obtain ⟨entry, hproposed, heterm, heindex⟩ := h.proposing w hw expected hexpected
    -- the log of the leader of the term holds both entries at this index
    have hentry := hproposed.2
    have happlied := (hi.log_anchored id).getElem? he
    rw [show (rules r.voters).term e = e.term from rfl, hterm] at happlied
    rw [heterm, heindex, hindex, Nat.add_sub_cancel, happlied] at hentry
    obtain rfl := Option.some.inj hentry
    refine .inr ⟨Nat.succ_pos _, e, j, id, m, hproposed.1, heindex.trans hindex, hm, hlt, ?_⟩
    rw [hrel.entryAt_eq hi (Nat.succ_pos _)]
    exact he
  · rename_i hnone
    exact .inl (h.reading w hw hnone)

end Honest

theorem Began.honest (h : r.Began k id action call origin d d₁ m₁)
    (hc : r.nodeRun.Refines chain) {e : DriverEvent} (he : r.events[k]? = some e)
    (haction : e.action = action) (hd : Honest r (chain (r.moment k)) d) :
    Honest r (chain (r.moment k + 1)) d₁ := by
  have hd := hd.mono (hc.grows (Nat.le_add_right (r.moment k) 1))
  have hclock : (r.state k).clock = k := r.clock_eq (List.getElem?_eq_some_iff.1 he).1.le
  have hhandled := RaftDriver.handled d (r.state k).clock action call
  rw [h.handled, hclock] at hhandled
  cases hhandled with
  | plain waiters reads answers =>
    refine ⟨reads ▸ hd.reads, waiters ▸ hd.reading, waiters ▸ hd.proposing, ?_⟩
    intro caller i hx
    rcases answers with answers | ⟨result, hresult, answers⟩
    · exact hd.answered (answers ▸ hx)
    rw [answers] at hx
    rcases mem_append.1 hx with hx | hx
    · exact hd.answered hx
    · cases mem_singleton.1 hx
      exact absurd rfl (hresult i)
  | @reading id' now ticket asked waiters reads answers =>
    refine ⟨?_, waiters ▸ hd.reading, waiters ▸ hd.proposing, answers ▸ hd.answered⟩
    intro ticket' caller hget
    rw [reads, OrdMap.get?_insert] at hget
    split at hget
    · cases hget
      exact ⟨e, id', now, he, haction.trans asked⟩
    · exact hd.reads hget
  | @proposing id' command now outs asked proposed waiters reads answers =>
    obtain rfl : id' = id := by
      have hr := h.resolved
      rw [asked] at hr
      cases hr
      rfl
    obtain ⟨entry, happended, hterm, hindex, hllog⟩ := h.appended hc he haction asked proposed
    refine ⟨reads ▸ hd.reads, ?_, ?_, answers ▸ hd.answered⟩
    · intro w hw ht
      rw [waiters] at hw
      rcases mem_append.1 hw with hw | hw
      · exact hd.reading w hw ht
      · rw [mem_singleton.1 hw] at ht
        cases ht
    intro w hw t ht
    rw [waiters] at hw
    rcases mem_append.1 hw with hw | hw
    · exact hd.proposing w hw t ht
    rw [mem_singleton.1 hw] at ht ⊢
    cases ht
    exact ⟨entry, ⟨happended, hllog⟩, hterm, hindex⟩

theorem Began.honest_catchUp (h : r.Began k id action call origin d d₁ m₁)
    (hc : r.nodeRun.Refines chain) (hd₁ : Honest r (chain (r.moment k + 1)) d₁)
    (hup : d₁.catchUp M = (d₂, .ok ())) : Honest r (chain (r.moment k + 1)) d₂ := by
  obtain ⟨hlog, hle⟩ := h.nodeLog hc (served hc k)
  refine catchUp_induct hlog hle hup (Honest r (chain (r.moment k + 1))) ?_
    (fun _ => hd₁) ?_
  · -- a jump tells nobody that all is well
    intro _ info blob _ _
    refine Honest.resolveWaiters (d := { d₁ with
      machine := M.restore d₁.machine blob
      lastApplied := info.lastIncludedIndex })
      ⟨hd₁.reads, hd₁.reading, hd₁.proposing, hd₁.answered⟩ ?_
    intro w hw i hverdict
    unfold jumpVerdict at hverdict
    split at hverdict <;> cases hverdict
  · intro d' e _ _ hlt hget hd'
    rw [← h.node] at hlt
    exact hd'.applyEntry h.called (hc.member h.called) (hc.inv _) hlt hget

/-- **The books of every driver are honest**, throughout a run. -/
theorem honest (hc : r.nodeRun.Refines chain) (hd : r.Has k id d) :
    Honest r (chain (r.moment k)) d := by
  induction k generalizing id d with
  | zero =>
    obtain ⟨m, -, rfl⟩ := Option.map_eq_some_iff.1 ((get?_init _ _ id).symm.trans hd)
    exact ⟨fun hget => (by cases hget), forall_mem_nil _, forall_mem_nil _,
      fun hmem => absurd hmem not_mem_nil⟩
  | succ k ih =>
    rcases became hc hd with hsame | hbecame
    · exact (ih hsame).mono (hc.grows (r.moment_mono (Nat.le_succ k)))
    cases hbecame with
    | @turned action call origin d₀ d₁ d₂ m₁ n event began caughtUp calls =>
      have hle : r.moment k + 1 ≤ r.moment (k + 1) := by
        rw [r.moment_succ, calls, length_cons]
        omega
      have hd₂ := began.honest_catchUp hc (began.honest hc event rfl (ih began.before))
        caughtUp
      have hd₂ := hd₂.mono (hc.grows hle)
      exact settled_rule (Honest r _) (fun d read hd => hd.settleRead read) _ _
        ⟨hd₂.reads, hd₂.reading, hd₂.proposing, hd₂.answered⟩
    | crashed event resolved before =>
      exact ((ih before).mono (hc.grows (r.moment_mono (Nat.le_succ k)))).resumed _
    | crashedLater event began calls =>
      have hle : r.moment k + 1 ≤ r.moment (k + 1) := by
        rw [r.moment_succ, calls, length_cons]
        omega
      obtain ⟨hlog, hle'⟩ := began.nodeLog hc (served hc k)
      obtain ⟨d₂, hup, -, -⟩ := exists_catchUp (M := M) hlog hle'
      have hd₂ := began.honest_catchUp hc (began.honest hc event rfl (ih began.before)) hup
      rw [hup]
      exact (hd₂.mono (hc.grows hle)).resumed _

theorem acked (hc : r.nodeRun.Refines chain) {e : DriverEvent} {command : Bytes} {now : Instant}
    (he : r.events[k]? = some e) (haction : e.action = .client id (.proposeCommitted command) now)
    {k' : ℕ} {id' : NodeId} {i : ℕ} (hd : r.Has k' id' d) (hok : (k, .ok (.index i)) ∈ d.answers) :
    ∃ entry m₀ m₁, r.nodeRun.Has (r.moment k) id m₀ ∧ r.nodeRun.Has (r.moment k + 1) id m₁ ∧
      m₁.node.lastLogIndex = i ∧ m₀.entryAt i = none ∧ m₁.entryAt i = some entry ∧
      entry = LogEntry.new m₀.node.hard.currentTerm i command ∧
      (∃ j id₂ m₂, r.nodeRun.Has j id₂ m₂ ∧ i ≤ m₂.node.commitIndex) ∧
      ∀ j id₂ m₂, r.nodeRun.Has j id₂ m₂ → i ≤ m₂.node.commitIndex → m₂.entryAt i = some entry := by
  have hasked : r.Asked k (.proposeCommitted command) := ⟨e, id, now, he, haction⟩
  rcases (honest hc hd).answered hok with hread | hacked
  · cases hread.unique hasked
  obtain ⟨hpos, entry, j₀, id₀, m, happended, rfl, hm, hcommit, hentry⟩ := hacked
  obtain ⟨e', id₁, command', now', m₀, m₁, he', haction', hm₀, hm₁, hnew, hbefore, hafter⟩ :=
    happended
  obtain rfl := Option.some.inj (he.symm.trans he')
  cases haction.symm.trans haction'
  have hlast : m₁.node.lastLogIndex = entry.index := (congrArg LogEntry.index hnew).symm
  refine ⟨entry, m₀, m₁, hm₀, hm₁, hlast, hbefore, hafter, hlast ▸ hnew,
    ⟨j₀, id₀, m, hm, hcommit⟩, ?_⟩
  intro j id₂ m₂ hm₂ hcommit₂
  obtain ⟨entry', h₁, h₂⟩ := committed_entries_agree hm hm₂ hpos hcommit hcommit₂
  rw [h₂, ← h₁, hentry]

end DriverRun

/-! ## What an acknowledgement means -/

/-- **An acknowledged command is committed.**  When a call that asks for a command to
be committed is answered `Ok(i)`, the node that was called has appended the command at
index `i` in that very call, its entry is committed, and every node that has
committed index `i`, at whatever moment, has that entry there.  And a call at whose
index another entry is ever committed is never answered `Ok`. -/
theorem acknowledged_is_committed (r : DriverRun M) {k : ℕ} {e : DriverEvent} {id : NodeId}
    {command : Bytes} {now : Instant} (he : r.events[k]? = some e)
    (haction : e.action = .client id (.proposeCommitted command) now) :
    (∀ k' id' d i, r.Has k' id' d → (k, .ok (.index i)) ∈ d.answers →
      ∃ entry m₀ m₁, r.nodeRun.Has (r.moment k) id m₀ ∧ r.nodeRun.Has (r.moment k + 1) id m₁ ∧
        m₁.node.lastLogIndex = i ∧ m₀.entryAt i = none ∧ m₁.entryAt i = some entry ∧
        entry = LogEntry.new m₀.node.hard.currentTerm i command ∧
        (∃ j id₂ m₂, r.nodeRun.Has j id₂ m₂ ∧ i ≤ m₂.node.commitIndex) ∧
        ∀ j id₂ m₂, r.nodeRun.Has j id₂ m₂ → i ≤ m₂.node.commitIndex → m₂.entryAt i = some entry) ∧
    ∀ m₁ j id₂ m₂, r.nodeRun.Has (r.moment k + 1) id m₁ → r.nodeRun.Has j id₂ m₂ →
      m₁.node.lastLogIndex ≤ m₂.node.commitIndex →
      m₂.entryAt m₁.node.lastLogIndex ≠ m₁.entryAt m₁.node.lastLogIndex →
      ∀ k' id' d i, r.Has k' id' d → (k, .ok (.index i)) ∉ d.answers := by
  obtain ⟨chain, hc⟩ := r.nodeRun.exists_refines
  refine ⟨fun k' id' d i hd hok => DriverRun.acked hc he haction hd hok, ?_⟩
  intro m₁ j id₂ m₂ hm₁ hm₂ hcommit hne k' id' d i hd hok
  obtain ⟨entry, -, m₁', -, hm₁', rfl, -, hentry, -, -, hall⟩ :=
    DriverRun.acked hc he haction hd hok
  obtain rfl := Option.some.inj (hm₁.symm.trans hm₁')
  exact hne ((hall j id₂ m₂ hm₂ hcommit).trans hentry.symm)

open Sample

theorem acknowledged_is_committed_sample : ∃ d entry m₀ m₁, driverRun.Has 6 Sample.a d ∧
    (3, .ok (.index 2)) ∈ d.answers ∧
    driverRun.nodeRun.Has (driverRun.moment 3) Sample.a m₀ ∧
    driverRun.nodeRun.Has (driverRun.moment 3 + 1) Sample.a m₁ ∧
    m₁.entryAt 2 = some entry ∧ entry = LogEntry.new m₀.node.hard.currentTerm 2 [7] := by
  obtain ⟨d, hd, hp⟩ := driverRun.exists_has 6 Sample.a
    (fun d => decide ((3, .ok (.index 2)) ∈ d.answers)) (by decide +kernel)
  have hok := of_decide_eq_true hp
  obtain ⟨entry, m₀, m₁, hm₀, hm₁, -, -, hentry, hnew, -⟩ :=
    (acknowledged_is_committed driverRun (k := 3) rfl rfl).1 6 Sample.a d 2 hd hok
  exact ⟨d, entry, m₀, m₁, hd, hok, hm₀, hm₁, hentry, hnew⟩

namespace Sample

/-- `a`, elected by `b` and `c`, appends a command and gets it to `b` only.  Then `c`,
elected by `d` and `e`, overwrites it on `a`; and then `b`, elected by `d` and `e`,
has it committed after all. -/
def restoredRun : DriverRun machine where
  voters := OrdSet.ofList [a, b, c, d, e]
  starts := starts ++ [⟨d, .seedFromU64 4, {}, 0⟩, ⟨e, .seedFromU64 5, {}, 0⟩]
  events := [timer a 1000, receive 0 1001, receive 1 1002, receive 4 1003, receive 5 1004,
    ask a (.proposeCommitted [7]) 1005, receive 10 1006, timer c 2000, receive 17 2001,
    receive 18 2002, receive 19 2003, receive 20 2004, ask c (.propose [8]) 2005,
    receive 25 2006, timer b 4000, timer b 5000, receive 36 5001, receive 37 5002,
    receive 38 5003, receive 39 5004, receive 40 5005, receive 42 5006, receive 44 5007,
    receive 45 5008, receive 46 5009, receive 47 5010, receive 48 5011, receive 49 5012,
    timer b 5060, receive 50 5061]
  within := by decide +kernel

end Sample

/-- **An entry may come back.**  The call in event 5 appends an entry at index 2 of
`a`; after event 13 another leader has put its own entry there; and the call is
answered `Ok(2)` in the end. -/
theorem acknowledged_after_overwrite : (restoredRun.events[5]?).map DriverEvent.action =
        some (.client Sample.a (.proposeCommitted [7]) (Duration.fromMillis 1005)) ∧
      ∃ m₁ m₂ d, restoredRun.nodeRun.Has (restoredRun.moment 5 + 1) Sample.a m₁ ∧
        restoredRun.nodeRun.Has (restoredRun.moment 14) Sample.a m₂ ∧
        m₁.entryAt 2 = some (LogEntry.new 1 2 [7]) ∧
        m₂.entryAt 2 = some (LogEntry.new 2 2 [8]) ∧
        restoredRun.Has 30 Sample.a d ∧ (5, .ok (.index 2)) ∈ d.answers := by
  obtain ⟨m₁, hm₁, hp₁⟩ := restoredRun.nodeRun.exists_has
    (restoredRun.moment 5 + 1) Sample.a
    (fun m => decide (m.entryAt 2 = some (LogEntry.new 1 2 [7]))) (by decide +kernel)
  obtain ⟨m₂, hm₂, hp₂⟩ := restoredRun.nodeRun.exists_has
    (restoredRun.moment 14) Sample.a
    (fun m => decide (m.entryAt 2 = some (LogEntry.new 2 2 [8]))) (by decide +kernel)
  obtain ⟨d, hd, hp⟩ := restoredRun.exists_has 30 Sample.a
    (fun d => decide ((5, .ok (.index 2)) ∈ d.answers)) (by decide +kernel)
  exact ⟨rfl, m₁, m₂, d, hm₁, hm₂, of_decide_eq_true hp₁, of_decide_eq_true hp₂, hd,
    of_decide_eq_true hp⟩

end Brokkr.Raft
