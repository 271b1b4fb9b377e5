import Brokkr.Raft.Types
import Brokkr.Lib.Checks

/-!
# The wire form of log entries and requests

The conversions of `types.rs` and `transport.rs` between log entries, configurations and
requests and their protobuf messages.  A log is stored in the same form.

* `Pb.LogEntry`, `Pb.ClusterConfig`, … — the messages: identifiers are strings in lists,
  the kind of an entry is a number, and a joint configuration is one whose list of old
  voters is not empty.
* `LogEntry.toPb`, `LogEntry.ofPb`, … — the conversions, with the errors of the source.
* `ClusterConfig.Encodable`, `LogEntry.Valid` — what has a form of its own.
* `Pb.LogEntry.normal` — a message with its lists of identifiers sorted and without
  repeats.
* `raft_codec` — a valid entry, and a request made of valid parts, is what its message
  decodes to; a message that decodes is, up to the order and repeats of identifiers, the
  message of what it decodes to.
-/

namespace Brokkr.Raft

open OrdSet

open Checks List

variable {s : OrdSet NodeId} {ids : List String} {c : ClusterConfig}

/-! ## Messages -/

namespace Pb

/-- A configuration on the wire. -/
structure ClusterConfig where
  voters : List String := []
  oldVoters : List String := []
  learners : List String := []
  deriving DecidableEq

/-- The kind of a log entry. -/
inductive EntryKind where
  | command
  | noop
  | config
  deriving DecidableEq

/-- The number of a kind. -/
def EntryKind.toI32 : EntryKind → ℤ
  | .command => 0
  | .noop => 1
  | .config => 2

/-- The kind with a number. -/
def EntryKind.ofI32 (n : ℤ) : Option EntryKind :=
  if n = 0 then some .command else if n = 1 then some .noop else if n = 2 then some .config
  else none

/-- A log entry on the wire and on disk. -/
structure LogEntry where
  term : ℕ
  index : ℕ
  command : Bytes
  kind : ℤ
  config : Option ClusterConfig
  deriving DecidableEq

/-- `AppendEntries` on the wire. -/
structure AppendEntriesRequest where
  term : ℕ
  leaderId : String
  prevLogIndex : ℕ
  prevLogTerm : ℕ
  entries : List LogEntry
  leaderCommit : ℕ
  seq : ℕ
  deriving DecidableEq

/-- `InstallSnapshot` on the wire. -/
structure InstallSnapshotRequest where
  term : ℕ
  leaderId : String
  lastIncludedIndex : ℕ
  lastIncludedTerm : ℕ
  offset : ℕ
  data : Bytes
  done : Bool
  config : Option ClusterConfig
  deriving DecidableEq

/-- A list of identifiers, sorted and without repeats. -/
def sortedIds (ids : List String) : List String := ids.dedup.insertionSort (· ≤ ·)

/-- A configuration with its lists sorted and without repeats. -/
def ClusterConfig.normal (c : ClusterConfig) : ClusterConfig :=
  ⟨sortedIds c.voters, sortedIds c.oldVoters, sortedIds c.learners⟩

/-- An entry with the lists of its configuration sorted and without repeats. -/
def LogEntry.normal (p : LogEntry) : LogEntry :=
  { p with config := p.config.map ClusterConfig.normal }

end Pb

/-! ## Conversions -/

/-- The strings of a set of nodes, in order. -/
def idStrings (ids : OrdSet NodeId) : List String := ids.toList.map NodeId.asStr

/-- The set of nodes with the given strings, unless one is not an identifier. -/
def parseIds (ids : List String) : Except RaftError (OrdSet NodeId) := do
  let nodes ← ids.mapM NodeId.new
  return ofList nodes

/-- Fail if two sets have a node in common; the error names the least one. -/
def refuseCommon (a b : OrdSet NodeId) (message : NodeId → String) : Except RaftError Unit :=
  match (a.filter fun id => decide (id ∈ b)).toList.head? with
  | some id => .error (.codec (message id))
  | none => .ok ()

namespace ClusterConfig

/-- The message of a configuration. -/
def toPb (c : ClusterConfig) : Pb.ClusterConfig where
  voters := idStrings c.voters
  oldVoters := (c.oldVoters.map idStrings).getD []
  learners := idStrings c.learners

/-- The configuration of a message. -/
def ofPb (p : Pb.ClusterConfig) : Except RaftError ClusterConfig := do
  let voters ← parseIds p.voters
  let old ← parseIds p.oldVoters
  let learners ← parseIds p.learners
  refuseCommon voters learners fun id => s!"node {id.asStr} is both a voter and a learner"
  refuseCommon old learners fun id => s!"node {id.asStr} is both an old voter and a learner"
  return ⟨voters, if old.isEmpty then none else some old, learners⟩

/-- A configuration that has a form of its own: a joint one has old voters, and nobody both
votes and learns. -/
structure Encodable (c : ClusterConfig) : Prop where
  joint : ∀ old, c.oldVoters = some old → old.isEmpty = false
  voters : ∀ n ∈ c.voters, n ∉ c.learners
  oldVoters : ∀ old, c.oldVoters = some old → ∀ n ∈ old, n ∉ c.learners

end ClusterConfig

namespace LogEntry

/-- The message of an entry. -/
def toPb (e : LogEntry) : Pb.LogEntry :=
  match e.payload with
  | .command bytes => ⟨e.term, e.index, bytes, Pb.EntryKind.command.toI32, none⟩
  | .noop => ⟨e.term, e.index, [], Pb.EntryKind.noop.toI32, none⟩
  | .config c => ⟨e.term, e.index, [], Pb.EntryKind.config.toI32, some c.toPb⟩

variable (p : Pb.LogEntry)

/-- The payload of a configuration entry. -/
def configPayload : Except RaftError EntryPayload := do
  ensure (p.command = []) (.codec "CONFIG log entry must not carry command data")
  let c ← p.config.elim (.error (.codec "CONFIG log entry without a config")) Except.ok
  let config ← ClusterConfig.ofPb c
  ensure (config.voters.isEmpty = false) (.codec "CONFIG log entry must name at least one voter")
  return .config config

/-- The payload of a message: the kind says which fields it may carry. -/
def payloadOf : Except RaftError EntryPayload :=
  match Pb.EntryKind.ofI32 p.kind with
  | none => .error (.codec s!"unknown log entry kind {p.kind}")
  | some .command => do
    ensure (p.config = none) (.codec "COMMAND log entry must not carry a config")
    return .command p.command
  | some .noop => do
    ensure (p.command = [] ∧ p.config = none)
      (.codec "NOOP log entry must not carry command or config data")
    return .noop
  | some .config => configPayload p

/-- The entry of a message. -/
def ofPb : Except RaftError LogEntry := do
  let payload ← payloadOf p
  return ⟨p.term, p.index, payload⟩

/-- An entry that may be in a log: a configuration has voters and a form of its own. -/
structure Valid (e : LogEntry) : Prop where
  voters : ∀ c, e.payload = .config c → c.voters.isEmpty = false
  encodable : ∀ c, e.payload = .config c → c.Encodable

end LogEntry

/-- The message of an `AppendEntries` call. -/
def AppendEntries.toPb (r : AppendEntries) : Pb.AppendEntriesRequest where
  term := r.term
  leaderId := r.leaderId.asStr
  prevLogIndex := r.prevLogIndex
  prevLogTerm := r.prevLogTerm
  entries := r.entries.map LogEntry.toPb
  leaderCommit := r.leaderCommit
  seq := r.seq

/-- The `AppendEntries` call of a message. -/
def AppendEntries.ofPb (p : Pb.AppendEntriesRequest) : Except RaftError AppendEntries := do
  let leaderId ← NodeId.new p.leaderId
  let entries ← p.entries.mapM LogEntry.ofPb
  return ⟨p.term, leaderId, p.prevLogIndex, p.prevLogTerm, entries, p.leaderCommit, p.seq⟩

/-- The message of an `InstallSnapshot` call. -/
def InstallSnapshot.toPb (r : InstallSnapshot) : Pb.InstallSnapshotRequest where
  term := r.term
  leaderId := r.leaderId.asStr
  lastIncludedIndex := r.lastIncludedIndex
  lastIncludedTerm := r.lastIncludedTerm
  offset := r.offset
  data := r.data
  done := r.done
  config := some r.config.toPb

/-- The `InstallSnapshot` call of a message; without a configuration it has the empty one. -/
def InstallSnapshot.ofPb (p : Pb.InstallSnapshotRequest) : Except RaftError InstallSnapshot := do
  let leaderId ← NodeId.new p.leaderId
  let config ← p.config.elim (.ok {}) ClusterConfig.ofPb
  return ⟨p.term, leaderId, p.lastIncludedIndex, p.lastIncludedTerm, p.offset, p.data, p.done,
    config⟩

/-! ## Identifiers -/

theorem NodeId.new_eq_ok {s : String} {n : NodeId} : NodeId.new s = .ok n ↔ n.asStr = s := by
  unfold NodeId.new
  constructor
  · intro h
    split at h
    · cases h
    split at h
    · cases h
      rfl
    · cases h
  · rintro rfl
    rw [dif_neg n.nonempty, dif_pos n.short]

theorem mapM_new_eq_ok {nodes : List NodeId} :
    ids.mapM NodeId.new = .ok nodes ↔ ids = nodes.map NodeId.asStr := by
  rw [mapM_eq_ok]
  constructor
  · intro h
    induction h with
    | nil => rfl
    | cons hid _ ih => rw [map_cons, NodeId.new_eq_ok.1 hid, ih]
  rintro rfl
  rw [forall₂_map_left_iff, forall₂_same]
  intro n _
  exact NodeId.new_eq_ok.2 rfl

theorem parseIds_eq_ok :
    parseIds ids = .ok s ↔ ∃ nodes, ids = nodes.map NodeId.asStr ∧ ofList nodes = s := by
  rw [parseIds, bind_eq_ok]
  constructor
  · rintro ⟨nodes, hnodes, hs⟩
    exact ⟨nodes, mapM_new_eq_ok.1 hnodes, Except.ok.inj hs⟩
  · rintro ⟨nodes, hnodes, rfl⟩
    exact ⟨nodes, mapM_new_eq_ok.2 hnodes, rfl⟩

theorem ofList_toList (s : OrdSet NodeId) : ofList s.toList = s :=
  ext fun _ => mem_ofList

theorem parseIds_idStrings (s : OrdSet NodeId) : parseIds (idStrings s) = .ok s :=
  parseIds_eq_ok.2 ⟨s.toList, rfl, ofList_toList s⟩

theorem pairwise_sortedIds (ids : List String) : (Pb.sortedIds ids).Pairwise (· < ·) := by
  have hnodup := (perm_insertionSort (· ≤ ·) ids.dedup).nodup_iff.2 (nodup_dedup ids)
  have hle := pairwise_insertionSort (· ≤ ·) ids.dedup
  exact (hle.and hnodup).imp fun h => lt_of_le_of_ne h.1 h.2

theorem mem_sortedIds {id : String} : id ∈ Pb.sortedIds ids ↔ id ∈ ids :=
  (mem_insertionSort _).trans mem_dedup

theorem idStrings_of_parseIds (h : parseIds ids = .ok s) :
    idStrings s = Pb.sortedIds ids := by
  obtain ⟨nodes, rfl, rfl⟩ := parseIds_eq_ok.1 h
  have hsorted : (idStrings (ofList nodes)).Pairwise (· < ·) := by
    rw [idStrings, pairwise_map]
    exact (ofList nodes).sorted
  have hmem : ∀ id, id ∈ idStrings (ofList nodes) ↔ id ∈ Pb.sortedIds (nodes.map NodeId.asStr) := by
    intro id
    rw [mem_sortedIds, idStrings, mem_map, mem_map]
    exact exists_congr fun n => and_congr_left' mem_ofList
  have hperm := (perm_ext_iff_of_nodup (hsorted.imp fun h => ne_of_lt h)
    ((pairwise_sortedIds _).imp fun h => ne_of_lt h)).2 hmem
  exact hperm.eq_of_pairwise (fun _ _ _ _ h1 h2 => absurd h1 h2.asymm) hsorted
    (pairwise_sortedIds _)

theorem refuseCommon_eq_ok {a b : OrdSet NodeId} {message : NodeId → String} {u : Unit} :
    refuseCommon a b message = .ok u ↔ ∀ n ∈ a, n ∉ b := by
  have hmem : ∀ n, n ∈ (a.filter fun id => decide (id ∈ b)).toList ↔ n ∈ a ∧ n ∈ b := by
    intro n
    rw [← OrdSet.mem_def, OrdSet.mem_filter, decide_eq_true_eq]
  unfold refuseCommon
  cases hcommon : (a.filter fun id => decide (id ∈ b)).toList with
  | nil =>
    refine ⟨fun _ n ha hb => ?_, fun _ => rfl⟩
    have hn := (hmem n).2 ⟨ha, hb⟩
    rw [hcommon] at hn
    cases hn
  | cons n =>
    have hn := (hmem n).1 (hcommon ▸ mem_cons_self)
    constructor
    · intro h
      cases h
    · intro h
      exact absurd hn.2 (h n hn.1)

/-! ## Configurations -/

theorem ClusterConfig.ofPb_eq_ok {p : Pb.ClusterConfig} :
    ClusterConfig.ofPb p = .ok c ↔ parseIds p.voters = .ok c.voters ∧
      (∃ old, parseIds p.oldVoters = .ok old ∧
        c.oldVoters = (if old.isEmpty then none else some old) ∧ ∀ n ∈ old, n ∉ c.learners) ∧
      parseIds p.learners = .ok c.learners ∧ ∀ n ∈ c.voters, n ∉ c.learners := by
  simp only [ClusterConfig.ofPb, bind_eq_ok, refuseCommon_eq_ok]
  constructor
  · rintro ⟨voters, hvoters, old, hold, learners, hlearners, -, hv, -, ho, hc⟩
    cases hc
    exact ⟨hvoters, ⟨old, hold, rfl, ho⟩, hlearners, hv⟩
  rintro ⟨hvoters, ⟨old, hold, hjoint, ho⟩, hlearners, hv⟩
  refine ⟨c.voters, hvoters, old, hold, c.learners, hlearners, (), hv, (), ho, ?_⟩
  rw [← hjoint]
  rfl

theorem isEmpty_iff : s.isEmpty = true ↔ s = ∅ := by
  rw [OrdSet.isEmpty, List.isEmpty_iff]
  constructor
  · intro h
    exact ext fun n => by rw [mem_def, h, mem_def]; rfl
  · rintro rfl
    rfl

theorem ClusterConfig.Encodable.ofPb_toPb (h : c.Encodable) :
    ClusterConfig.ofPb c.toPb = .ok c := by
  refine ClusterConfig.ofPb_eq_ok.2 ⟨parseIds_idStrings _, ?_, parseIds_idStrings _, h.voters⟩
  cases hold : c.oldVoters with
  | none =>
    refine ⟨∅, ?_, rfl, fun n hn => absurd hn (not_mem_empty n)⟩
    rw [ClusterConfig.toPb, hold]
    exact parseIds_idStrings ∅
  | some old =>
    refine ⟨old, ?_, ?_, h.oldVoters old hold⟩
    · rw [ClusterConfig.toPb, hold]
      exact parseIds_idStrings old
    · rw [h.joint old hold]
      rfl

theorem ClusterConfig.toPb_of_ofPb {p : Pb.ClusterConfig} (h : ClusterConfig.ofPb p = .ok c) :
    c.Encodable ∧ c.toPb = p.normal := by
  obtain ⟨hvoters, ⟨old, hold, hjoint, ho⟩, hlearners, hv⟩ := ClusterConfig.ofPb_eq_ok.1 h
  have holdStrings : (c.oldVoters.map idStrings).getD [] = idStrings old := by
    rw [hjoint]
    split
    · rename_i hempty
      rw [isEmpty_iff.1 hempty]
      rfl
    · rfl
  have hold_eq : ∀ old', c.oldVoters = some old' → old' = old ∧ old.isEmpty = false := by
    intro old' heq
    rw [hjoint] at heq
    split at heq
    · cases heq
    · rename_i hne
      exact ⟨(Option.some.inj heq).symm, by simpa using hne⟩
  refine ⟨⟨?_, hv, ?_⟩, ?_⟩
  · intro old' heq
    obtain ⟨rfl, hne⟩ := hold_eq old' heq
    exact hne
  · intro old' heq
    obtain ⟨rfl, -⟩ := hold_eq old' heq
    exact ho
  · rw [ClusterConfig.toPb, holdStrings, idStrings_of_parseIds hvoters, idStrings_of_parseIds hold,
      idStrings_of_parseIds hlearners, Pb.ClusterConfig.normal]

/-! ## Entries -/

theorem Pb.EntryKind.toI32_of_ofI32 {n : ℤ} {k : Pb.EntryKind}
    (h : Pb.EntryKind.ofI32 n = some k) : n = k.toI32 := by
  unfold Pb.EntryKind.ofI32 at h
  split at h
  · cases h
    assumption
  split at h
  · cases h
    assumption
  split at h
  · cases h
    assumption
  · cases h

variable {p : Pb.LogEntry}

theorem LogEntry.configPayload_eq_ok {payload : EntryPayload} :
    LogEntry.configPayload p = .ok payload ↔ p.command = [] ∧
      ∃ pc c, p.config = some pc ∧ ClusterConfig.ofPb pc = .ok c ∧ c.voters.isEmpty = false ∧
        payload = .config c := by
  simp only [LogEntry.configPayload, bind_eq_ok, ensure_eq_ok]
  constructor
  · rintro ⟨-, hcommand, pc, hpc, c, hc, -, hne, hpayload⟩
    refine ⟨hcommand, pc, c, ?_, hc, hne, (Except.ok.inj hpayload).symm⟩
    cases hconfig : p.config with
    | none =>
      rw [hconfig] at hpc
      cases hpc
    | some =>
      rw [hconfig] at hpc
      cases hpc
      rfl
  · rintro ⟨hcommand, pc, c, hpc, hc, hne, rfl⟩
    exact ⟨(), hcommand, pc, by rw [hpc]; rfl, c, hc, (), hne, rfl⟩

theorem LogEntry.Valid.ofPb_toPb {e : LogEntry} (h : e.Valid) :
    LogEntry.ofPb e.toPb = .ok e := by
  obtain ⟨term, index, payload⟩ := e
  cases payload with
  | command => rfl
  | noop => rfl
  | config c =>
    have hpayload : LogEntry.configPayload (LogEntry.toPb ⟨term, index, .config c⟩) =
        .ok (.config c) :=
      LogEntry.configPayload_eq_ok.2
        ⟨rfl, c.toPb, c, rfl, (h.encodable c rfl).ofPb_toPb, h.voters c rfl, rfl⟩
    exact bind_eq_ok.2 ⟨_, hpayload, rfl⟩

theorem LogEntry.payloadOf_cases {payload : EntryPayload}
    (h : LogEntry.payloadOf p = .ok payload) :
    (p.kind = Pb.EntryKind.command.toI32 ∧ p.config = none ∧ payload = .command p.command) ∨
      (p.kind = Pb.EntryKind.noop.toI32 ∧ p.command = [] ∧ p.config = none ∧ payload = .noop) ∨
      (p.kind = Pb.EntryKind.config.toI32 ∧ LogEntry.configPayload p = .ok payload) := by
  unfold LogEntry.payloadOf at h
  cases hkind : Pb.EntryKind.ofI32 p.kind with
  | none =>
    rw [hkind] at h
    cases h
  | some kind =>
    have hn := Pb.EntryKind.toI32_of_ofI32 hkind
    rw [hkind] at h
    cases kind with
    | command =>
      obtain ⟨_, hconfig, hpayload⟩ := bind_eq_ok.1 h
      exact .inl ⟨hn, ensure_eq_ok.1 hconfig, (Except.ok.inj hpayload).symm⟩
    | noop =>
      obtain ⟨_, hempty, hpayload⟩ := bind_eq_ok.1 h
      obtain ⟨hcommand, hconfig⟩ := ensure_eq_ok.1 hempty
      exact .inr (.inl ⟨hn, hcommand, hconfig, (Except.ok.inj hpayload).symm⟩)
    | config => exact .inr (.inr ⟨hn, h⟩)

theorem LogEntry.toPb_of_ofPb {e : LogEntry} (h : LogEntry.ofPb p = .ok e) :
    e.Valid ∧ e.toPb = p.normal := by
  obtain ⟨payload, hpayload, he⟩ := bind_eq_ok.1 h
  cases he
  obtain ⟨term, index, command, kind, config⟩ := p
  rcases LogEntry.payloadOf_cases hpayload with
    ⟨hkind, hconfig, rfl⟩ | ⟨hkind, hcommand, hconfig, rfl⟩ | ⟨hkind, hconfig⟩
  · cases hkind
    cases hconfig
    exact ⟨⟨nofun, nofun⟩, rfl⟩
  · cases hkind
    cases hcommand
    cases hconfig
    exact ⟨⟨nofun, nofun⟩, rfl⟩
  obtain ⟨hcommand, pc, c, hpc, hc, hne, rfl⟩ := LogEntry.configPayload_eq_ok.1 hconfig
  cases hkind
  cases hcommand
  cases hpc
  obtain ⟨henc, hform⟩ := ClusterConfig.toPb_of_ofPb hc
  refine ⟨⟨?_, ?_⟩, ?_⟩
  · rintro c' ⟨⟩
    exact hne
  · rintro c' ⟨⟩
    exact henc
  · simp only [LogEntry.toPb, Pb.LogEntry.normal, hform, Option.map_some]
    rfl

/-! ## Requests -/

theorem mapM_ofPb_toPb {entries : List LogEntry} (h : ∀ e ∈ entries, e.Valid) :
    (entries.map LogEntry.toPb).mapM LogEntry.ofPb = .ok entries := by
  rw [mapM_eq_ok, forall₂_map_left_iff, forall₂_same]
  intro e he
  exact (h e he).ofPb_toPb

theorem AppendEntries.ofPb_toPb {r : AppendEntries} (h : ∀ e ∈ r.entries, e.Valid) :
    AppendEntries.ofPb r.toPb = .ok r :=
  bind_eq_ok.2 ⟨r.leaderId, NodeId.new_eq_ok.2 rfl, bind_eq_ok.2 ⟨r.entries, mapM_ofPb_toPb h, rfl⟩⟩

theorem InstallSnapshot.ofPb_toPb {r : InstallSnapshot} (h : r.config.Encodable) :
    InstallSnapshot.ofPb r.toPb = .ok r :=
  bind_eq_ok.2 ⟨r.leaderId, NodeId.new_eq_ok.2 rfl, bind_eq_ok.2 ⟨r.config, h.ofPb_toPb, rfl⟩⟩

/-- **The codec.**  Valid entries, and requests made of valid entries and encodable
configurations, survive the way through their messages.  A message that decodes gives a
valid entry, whose message is the given one with its identifiers sorted and without
repeats; so entries with the same message are the same, and two messages decode to the same
entry exactly if they differ in the order and repeats of identifiers only. -/
theorem raft_codec : (∀ e : LogEntry, e.Valid → LogEntry.ofPb e.toPb = .ok e) ∧
      (∀ r : AppendEntries, (∀ e ∈ r.entries, e.Valid) → AppendEntries.ofPb r.toPb = .ok r) ∧
      (∀ r : InstallSnapshot, r.config.Encodable → InstallSnapshot.ofPb r.toPb = .ok r) ∧
      (∀ p e, LogEntry.ofPb p = .ok e → e.Valid ∧ e.toPb = p.normal) ∧
      (∀ e e' : LogEntry, e.Valid → e'.Valid → e.toPb = e'.toPb → e = e') ∧
      ∀ p p' e e', LogEntry.ofPb p = .ok e → LogEntry.ofPb p' = .ok e' →
        (p.normal = p'.normal ↔ e = e') := by
  have hinjective : ∀ e e' : LogEntry, e.Valid → e'.Valid → e.toPb = e'.toPb → e = e' := by
    intro e e' he he' heq
    have hdecoded := he.ofPb_toPb
    rw [heq, he'.ofPb_toPb] at hdecoded
    exact (Except.ok.inj hdecoded).symm
  refine ⟨fun e he => he.ofPb_toPb, fun r hr => AppendEntries.ofPb_toPb hr,
    fun r hr => InstallSnapshot.ofPb_toPb hr, fun p e h => LogEntry.toPb_of_ofPb h, hinjective, ?_⟩
  intro p p' e e' h h'
  obtain ⟨hvalid, hform⟩ := LogEntry.toPb_of_ofPb h
  obtain ⟨hvalid', hform'⟩ := LogEntry.toPb_of_ofPb h'
  rw [← hform, ← hform']
  exact ⟨hinjective e e' hvalid hvalid', fun heq => by rw [heq]⟩

/-- A joint configuration, whose message names the voters out of order and twice. -/
theorem raft_codec_sample :
    ∃ e, LogEntry.ofPb ⟨3, 5, [], 2, some ⟨["b", "a", "b"], ["c", "b"], ["d"]⟩⟩ = .ok e ∧
      e.toPb = ⟨3, 5, [], 2, some ⟨["a", "b"], ["b", "c"], ["d"]⟩⟩ ∧
      LogEntry.ofPb e.toPb = .ok e := by
  have hok : (LogEntry.ofPb
      ⟨3, 5, [], 2, some ⟨["b", "a", "b"], ["c", "b"], ["d"]⟩⟩).isOk = true := by decide +kernel
  cases h : LogEntry.ofPb ⟨3, 5, [], 2, some ⟨["b", "a", "b"], ["c", "b"], ["d"]⟩⟩ with
  | error =>
    rw [h] at hok
    cases hok
  | ok e =>
    obtain ⟨hvalid, hform⟩ := raft_codec.2.2.2.1 _ e h
    refine ⟨e, rfl, hform.trans ?_, raft_codec.1 e hvalid⟩
    decide +kernel

end Brokkr.Raft
