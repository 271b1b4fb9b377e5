import Brokkr.Lib.Bytes
import Brokkr.Raft.Driver

/-!
# The metadata store

The replicable metadata store of `brokkr-control` (`metakv.rs`, `raftkv.rs`):
`get`, `put`, `delete` and `scan_prefix` over byte strings.

* `RedbMetaKv` — the single-node store: one redb table.
* `KvMachine` — the state machine of the replicated store: `apply`, `snapshot`,
  `restore`.  `RaftKv` proposes writes as encoded `KvCommand`s and reads the applied
  map.
* `KvSpec` — what a metadata store is: one finite map, scanned in the order of its
  keys.

The encoding of commands is a parameter (`KvCodec`) with its round trip.
-/

namespace Brokkr.Control

open OrdMap

open List

open Raft (Bytes LogEntry StateMachine)

/-! ## Calls -/

/-- A call on a metadata store. -/
inductive KvCall where
  | get (key : Bytes)
  | put (key value : Bytes)
  | delete (key : Bytes)
  | scanPrefix (pre : Bytes)
  deriving DecidableEq

/-- What a completed call returns. -/
inductive KvAnswer where
  | value (v : Option Bytes)
  | done
  | entries (l : List (Bytes × Bytes))
  deriving DecidableEq

/-- The keys and values that a call writes are shorter than 2³² bytes. -/
def KvCall.Short : KvCall → Prop
  | .put key value => key.length < 2 ^ 32 ∧ value.length < 2 ^ 32
  | .delete key => key.length < 2 ^ 32
  | .get _ | .scanPrefix _ => True

instance (c : KvCall) : Decidable c.Short := by
  cases c <;> unfold KvCall.Short <;> infer_instance

/-- The content of a store. -/
abbrev KvMap := OrdMap Bytes Bytes

/-! ## The single-node store -/

namespace RedbMetaKv

/-- The loop of `scan_prefix` over the items of a range: it stops at the first key
past the namespace. -/
def scanLoop (pre : Bytes) : List (Bytes × Bytes) → List (Bytes × Bytes) → List (Bytes × Bytes)
  | out, [] => out
  | out, (k, v) :: items => if pre.isPrefixOf k then scanLoop pre (out ++ [(k, v)]) items else out

/-- One call: its answer, and the table after it. -/
def serve (table : KvMap) : KvCall → KvAnswer × KvMap
  | .get key => (.value (table.get? key), table)
  | .put key value => (.done, table.insert key value)
  | .delete key => (.done, table.erase key)
  | .scanPrefix pre => (.entries (scanLoop pre [] (table.range pre)), table)

/-- The answers to a sequence of calls. -/
def answers (table : KvMap) : List KvCall → List KvAnswer
  | [] => []
  | c :: calls => (serve table c).1 :: answers (serve table c).2 calls

end RedbMetaKv

/-! ## The replicated store -/

/-- The replicated write operation. -/
structure KvCommand where
  op : UInt32
  key : Bytes
  value : Bytes
  deriving DecidableEq

/-- Insert or overwrite. -/
def kvOpPut : UInt32 := 1

/-- Remove (nothing happens if absent). -/
def kvOpDelete : UInt32 := 2

/-- The encoding of commands into the bytes of a log entry. -/
structure KvCodec where
  encode : KvCommand → Bytes
  decode : Bytes → Option KvCommand
  decode_encode : ∀ c : KvCommand, c.key.length < 2 ^ 32 → c.value.length < 2 ^ 32 →
    decode (encode c) = some c

/-- The command bytes of an entry, if it carries a command. -/
def entryCommand (entry : LogEntry) : Option Bytes :=
  match entry.payload with
  | .command bytes => some bytes
  | _ => none

namespace KvMachine

/-- Apply one committed entry. Entries without a command, commands that cannot be
decoded and unknown operations are skipped. -/
def apply (codec : KvCodec) (map : KvMap) (entry : LogEntry) : KvMap :=
  match entryCommand entry with
  | none => map
  | some command =>
    match codec.decode command with
    | none => map
    | some decoded =>
      if decoded.op = kvOpPut then map.insert decoded.key decoded.value
      else if decoded.op = kvOpDelete then map.erase decoded.key
      else map

/-- The snapshot: key and value of every entry as two chunks, ascending by key. -/
def snapshot (map : KvMap) : Bytes :=
  map.toList.foldl (fun out e => out ++ (chunk e.1 ++ chunk e.2)) []

/-- The loop of `restore`: it ends at the end of the input, or at a malformed tail,
which is discarded. -/
def restoreLoop (rest : Bytes) (rebuilt : KvMap) : KvMap :=
  if 4 ≤ rest.length then
    match _hk : takeChunk rest with
    | none => rebuilt
    | some (key, after) =>
      match _hv : takeChunk after with
      | none => rebuilt
      | some (value, after') => restoreLoop after' (rebuilt.insert key value)
  else rebuilt
termination_by rest.length
decreasing_by
  have h1 := takeChunk_length _hk
  have h2 := takeChunk_length _hv
  omega

/-- Replace the map by the one of a snapshot. -/
def restore (_map : KvMap) (snapshot : Bytes) : KvMap := restoreLoop snapshot ∅

/-- The state machine that the driver of a node applies committed entries to. -/
def machine (codec : KvCodec) : StateMachine KvMap where
  init := ∅
  apply := apply codec
  snapshot := snapshot
  restore := restore

end KvMachine

/-- What happens to a replicated store, in the order in which its log is applied. -/
inductive KvEvent where
  | call (c : KvCall) (term index : ℕ)
  | internal (entry : LogEntry) (h : entryCommand entry = none)
  | snapshotRestore (old : KvMap)

/-- The calls among the events. -/
def KvEvent.calls : List KvEvent → List KvCall
  | [] => []
  | .call c _ _ :: events => c :: calls events
  | .internal _ _ :: events => calls events
  | .snapshotRestore _ :: events => calls events

namespace RaftKv

/-- The command that a call proposes. -/
def command : KvCall → Option KvCommand
  | .put key value => some ⟨kvOpPut, key, value⟩
  | .delete key => some ⟨kvOpDelete, key, []⟩
  | .get _ | .scanPrefix _ => none

/-- What a call answers once its command, if it has one, is applied, and a read once
`map` has caught up with the index that the read was confirmed at. -/
def answer (map : KvMap) : KvCall → KvAnswer
  | .get key => .value (map.get? key)
  | .put _ _ | .delete _ => .done
  | .scanPrefix pre => .entries ((map.range pre).takeWhile fun e => pre.isPrefixOf e.1)

/-- The map after a call: its command is applied as an entry of the log. -/
def applied (M : StateMachine KvMap) (codec : KvCodec) (map : KvMap) (c : KvCall)
    (term index : ℕ) : KvMap :=
  match command c with
  | none => map
  | some command => M.apply map (LogEntry.new term index (codec.encode command))

/-- The answers to the calls among a sequence of events. -/
def answers (codec : KvCodec) (map : KvMap) : List KvEvent → List KvAnswer
  | [] => []
  | .call c term index :: events =>
    answer map c :: answers codec (applied (KvMachine.machine codec) codec map c term index) events
  | .internal entry _ :: events => answers codec ((KvMachine.machine codec).apply map entry) events
  | .snapshotRestore old :: events =>
    answers codec
      ((KvMachine.machine codec).restore old ((KvMachine.machine codec).snapshot map)) events

end RaftKv

/-! ## One finite map -/

namespace KvSpec

/-- What is stored under each key. -/
abbrev Content := Bytes → Option Bytes

/-- The content after a call. -/
def next (f : Content) : KvCall → Content
  | .put key value => Function.update f key (some value)
  | .delete key => Function.update f key none
  | .get _ | .scanPrefix _ => f

/-- The answer is right: a scan answers the entries whose key starts with the given
bytes, all of them, in ascending order. -/
def Right (f : Content) : KvCall → KvAnswer → Prop
  | .get key, a => a = .value (f key)
  | .put _ _, a => a = .done
  | .delete _, a => a = .done
  | .scanPrefix pre, a => ∃ l : List (Bytes × Bytes), a = .entries l ∧
      (l.Pairwise fun e e' => e.1 < e'.1) ∧ ∀ k v, (k, v) ∈ l ↔ f k = some v ∧ pre <+: k

/-- The answers to a sequence of calls are right, one by one. -/
def Answers (f : Content) : List KvCall → List KvAnswer → Prop
  | [], [] => True
  | c :: calls, a :: answers => Right f c a ∧ Answers (next f c) calls answers
  | _, _ => False

end KvSpec

/-! ## The single-node store is the map -/

namespace RedbMetaKv

theorem scanLoop_eq (pre : Bytes) (out items : List (Bytes × Bytes)) :
    scanLoop pre out items = out ++ items.takeWhile (fun e => pre.isPrefixOf e.1) := by
  induction items generalizing out with
  | nil => simp [scanLoop]
  | cons e items ih =>
    rw [scanLoop, takeWhile_cons]
    split
    · rw [ih, append_assoc]
      rfl
    · rw [append_nil]

variable (table : KvMap)

theorem scan_eq (pre : Bytes) :
    scanLoop pre [] (table.range pre) = table.startingWith pre := by
  rw [scanLoop_eq, nil_append, takeWhile_range]

theorem serve_right (c : KvCall) :
    KvSpec.Right table.get? c (serve table c).1 := by
  cases c with
  | scanPrefix pre =>
    refine ⟨table.startingWith pre, ?_, table.startingWith_sorted pre, ?_⟩
    · rw [serve, scan_eq]
    · intro k v
      exact mem_startingWith
  | _ => rfl

theorem serve_next (c : KvCall) :
    (serve table c).2.get? = KvSpec.next table.get? c := by
  cases c with
  | get => rfl
  | put key =>
    funext k
    by_cases hk : k = key <;> simp [serve, KvSpec.next, get?_insert, hk]
  | delete key =>
    funext k
    by_cases hk : k = key <;> simp [serve, KvSpec.next, get?_erase, hk]
  | scanPrefix => rfl

theorem answers_right (calls : List KvCall) :
    KvSpec.Answers table.get? calls (answers table calls) := by
  induction calls generalizing table with
  | nil => trivial
  | cons c calls ih =>
    refine ⟨serve_right table c, ?_⟩
    rw [← serve_next]
    exact ih (serve table c).2

end RedbMetaKv

/-! ## Snapshots come back -/

namespace KvMachine

/-- Every key and value fits into a chunk. -/
def Fits (map : KvMap) : Prop := ∀ k v, map.get? k = some v → k.length < 2 ^ 32 ∧ v.length < 2 ^ 32

theorem Fits.insert {map : KvMap} (h : Fits map) {key value : Bytes}
    (hk : key.length < 2 ^ 32) (hv : value.length < 2 ^ 32) : Fits (map.insert key value) := by
  intro k v hkv
  rw [get?_insert] at hkv
  split at hkv
  · rename_i heq
    cases hkv
    exact ⟨heq ▸ hk, hv⟩
  · exact h k v hkv

theorem Fits.erase {map : KvMap} (h : Fits map) (key : Bytes) : Fits (map.erase key) := by
  intro k v hkv
  obtain ⟨-, hkv⟩ := of_get?_erase hkv
  exact h k v hkv

/-- The bytes of a list of entries. -/
def entryBytes (l : List (Bytes × Bytes)) : Bytes := l.flatMap fun e => chunk e.1 ++ chunk e.2

theorem snapshot_eq (map : KvMap) : snapshot map = entryBytes map.toList := by
  have key : ∀ (l : List (Bytes × Bytes)) (out : Bytes),
      l.foldl (fun out e => out ++ (chunk e.1 ++ chunk e.2)) out = out ++ entryBytes l := by
    intro l
    induction l with
    | nil => simp [entryBytes]
    | cons e l ih =>
      intro out
      rw [foldl_cons, ih, entryBytes, entryBytes, flatMap_cons, append_assoc]
  rw [snapshot, key, nil_append]

theorem restoreLoop_entryBytes {l : List (Bytes × Bytes)}
    (hl : ∀ e ∈ l, e.1.length < 2 ^ 32 ∧ e.2.length < 2 ^ 32) (rebuilt : KvMap) :
    restoreLoop (entryBytes l) rebuilt = l.foldl (fun m e => m.insert e.1 e.2) rebuilt := by
  induction l generalizing rebuilt with
  | nil =>
    rw [restoreLoop, if_neg (by simp [entryBytes])]
    rfl
  | cons e l ih =>
    obtain ⟨hk, hv⟩ := hl e mem_cons_self
    have hbytes : entryBytes (e :: l) = chunk e.1 ++ (chunk e.2 ++ entryBytes l) := by
      rw [entryBytes, flatMap_cons, append_assoc]
      rfl
    have hlen : 4 ≤ (entryBytes (e :: l)).length := by
      rw [hbytes]
      simp [chunk]
    have hkey : takeChunk (entryBytes (e :: l)) = some (e.1, chunk e.2 ++ entryBytes l) := by
      rw [hbytes]
      exact takeChunk_chunk hk _
    have hvalue := takeChunk_chunk hv (entryBytes l)
    rw [restoreLoop, if_pos hlen, foldl_cons]
    rw [← ih fun e' he' => hl e' (mem_cons_of_mem _ he')]
    split
    · rename_i hnone
      rw [hkey] at hnone
      cases hnone
    rename_i hsome
    rw [hkey] at hsome
    cases hsome
    split
    · rename_i hnone
      rw [hvalue] at hnone
      cases hnone
    rename_i hsome'
    rw [hvalue] at hsome'
    cases hsome'
    rfl

theorem restore_snapshot {map : KvMap} (h : Fits map) (old : KvMap) :
    restore old (snapshot map) = map := by
  have hl : ∀ e ∈ map.toList, e.1.length < 2 ^ 32 ∧ e.2.length < 2 ^ 32 :=
    fun e he => h e.1 e.2 (get?_eq_some.2 he)
  rw [restore, snapshot_eq, restoreLoop_entryBytes hl, foldl_insert_toList]

end KvMachine

/-! ## The replicated store is the single-node store -/

namespace RaftKv

open KvMachine

theorem answer_eq (map : KvMap) (c : KvCall) : answer map c = (RedbMetaKv.serve map c).1 := by
  cases c with
  | scanPrefix => rw [answer, RedbMetaKv.serve, RedbMetaKv.scan_eq, takeWhile_range]
  | _ => rfl

variable (codec : KvCodec)

theorem applied_eq (map : KvMap) {c : KvCall} (hc : c.Short) (term index : ℕ) :
    applied (machine codec) codec map c term index = (RedbMetaKv.serve map c).2 := by
  cases c with
  | get => rfl
  | put key value =>
    have hdec := codec.decode_encode ⟨kvOpPut, key, value⟩ hc.1 hc.2
    simp [applied, command, machine, KvMachine.apply, entryCommand, LogEntry.new, hdec,
      RedbMetaKv.serve]
  | delete key =>
    have hdec := codec.decode_encode ⟨kvOpDelete, key, []⟩ hc (by simp)
    have hop : kvOpDelete ≠ kvOpPut := by decide
    simp [applied, command, machine, KvMachine.apply, entryCommand, LogEntry.new, hdec, hop,
      RedbMetaKv.serve]
  | scanPrefix => rfl

theorem fits_serve {map : KvMap} (h : Fits map) {c : KvCall} (hc : c.Short) :
    Fits (RedbMetaKv.serve map c).2 := by
  cases c with
  | get => exact h
  | put => exact h.insert hc.1 hc.2
  | delete key => exact h.erase key
  | scanPrefix => exact h

theorem apply_internal (map : KvMap) {entry : LogEntry}
    (h : entryCommand entry = none) : (machine codec).apply map entry = map := by
  simp [machine, KvMachine.apply, h]

theorem answers_eq {map : KvMap} (hfits : Fits map) (events : List KvEvent)
    (h : ∀ c ∈ KvEvent.calls events, c.Short) :
    answers codec map events = RedbMetaKv.answers map (KvEvent.calls events) := by
  induction events generalizing map with
  | nil => rfl
  | cons e events ih =>
    cases e with
    | call c =>
      have hc : c.Short := h c mem_cons_self
      rw [answers, KvEvent.calls, RedbMetaKv.answers, answer_eq, applied_eq codec map hc]
      rw [ih (fits_serve hfits hc) fun c' hc' => h c' (mem_cons_of_mem _ hc')]
    | internal entry hentry =>
      rw [answers, apply_internal codec map hentry]
      exact ih hfits h
    | snapshotRestore old =>
      have hback : (machine codec).restore old ((machine codec).snapshot map) = map :=
        restore_snapshot hfits old
      rw [answers, hback]
      exact ih hfits h

end RaftKv

/-- The single-node store and the replicated one answer every sequence of calls as
one finite map does, wherever the replicated one restores a snapshot in between. -/
theorem metaKv_stores_agree (codec : KvCodec) (events : List KvEvent)
    (h : ∀ c ∈ KvEvent.calls events, c.Short) :
    KvSpec.Answers (fun _ => none) (KvEvent.calls events)
        (RedbMetaKv.answers ∅ (KvEvent.calls events)) ∧
      RaftKv.answers codec (KvMachine.machine codec).init events =
        RedbMetaKv.answers ∅ (KvEvent.calls events) := by
  refine ⟨RedbMetaKv.answers_right ∅ (KvEvent.calls events), ?_⟩
  refine RaftKv.answers_eq codec ?_ events h
  intro k v hkv
  cases hkv

namespace Sample

/-- A codec: the operation, then key and value as chunks. -/
def kvCodec : KvCodec where
  encode c := leBytes 4 c.op.toNat ++ (chunk c.key ++ chunk c.value)
  decode bytes :=
    match takeChunk (bytes.drop 4) with
    | none => none
    | some (key, after) =>
      match takeChunk after with
      | none => none
      | some (value, _) => some ⟨UInt32.ofNat (ofLeBytes (bytes.take 4)), key, value⟩
  decode_encode c hk hv := by
    have hop : ofLeBytes (leBytes 4 c.op.toNat) = c.op.toNat := by
      rw [ofLeBytes_leBytes]
      exact Nat.mod_eq_of_lt c.op.toNat_lt
    have hvalue : takeChunk (chunk c.value) = some (c.value, []) := by
      have := takeChunk_chunk hv []
      rwa [append_nil] at this
    rw [drop_left' (length_leBytes 4 _), take_left' (length_leBytes 4 _), takeChunk_chunk hk, hop]
    simp [hvalue]

/-- Keys that start with the byte 255, one that does not, and a snapshot in between. -/
def kvEvents : List KvEvent :=
  [.call (.put [255] [1]) 1 1, .call (.put [255, 255] []) 1 2, .call (.put [7] [3]) 1 3,
    .internal (LogEntry.withPayload 2 4 .noop) rfl, .snapshotRestore ∅,
    .call (.delete [7]) 2 5, .call (.scanPrefix [255]) 2 5, .call (.get [7]) 2 5,
    .call (.scanPrefix []) 2 5]

end Sample

theorem metaKv_stores_agree_sample :
    RaftKv.answers Sample.kvCodec ∅ Sample.kvEvents =
      [.done, .done, .done, .done, .entries [([255], [1]), ([255, 255], [])], .value none,
        .entries [([255], [1]), ([255, 255], [])]] := by
  refine (metaKv_stores_agree Sample.kvCodec Sample.kvEvents (by decide)).2.trans ?_
  decide +kernel

end Brokkr.Control
