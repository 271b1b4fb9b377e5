import Brokkr.Raft.Types

/-!
# The durable Raft log

The store of one node (`storage.rs`): a `log` table of entries keyed by index
and a `meta` table with the hard state and the snapshot.  Every mutating method
commits one redb write transaction before it returns.  A transaction is atomic
and durable, so a crash leaves the database exactly as some transaction left it.

`RaftLog.commits` records the database after each transaction since the record
was last cleared; these are the states a crash in the middle of a call can leave
behind.

The tables are typed: the protobuf encoding of entries and configurations is
not part of this module, and neither are the storage errors of redb.
-/

namespace Brokkr.Raft

/-- The contents of `raft.redb`. -/
structure Db where
  /-- The `log` table: 1-based index to entry. -/
  log : OrdMap ℕ LogEntry := ∅
  /-- The `current_term` and `voted_for` rows of the `meta` table. -/
  hard : HardState := {}
  /-- The `snapshot_*` rows of the `meta` table, written together. -/
  snapshot : Option (SnapshotMeta × Bytes) := none
  deriving DecidableEq, Inhabited

namespace Db

variable (db : Db)

/-- The entry at `index`. -/
def get (index : ℕ) : Option LogEntry := db.log.get? index

/-- Every entry with index `≥ start`, in ascending order. -/
def entriesFrom (start : ℕ) : List LogEntry :=
  (db.log.toList.filter (fun p => decide (start ≤ p.1))).map Prod.snd

/-- The snapshot's metadata. -/
def snapshotMeta : Option SnapshotMeta := db.snapshot.map Prod.fst

/-- The last `(index, term)`: of the last entry, or of the snapshot when the log
is empty. -/
def lastIndexAndTerm : ℕ × ℕ :=
  match db.log.toList.getLast? with
  | some (key, value) => (key, value.term)
  | none =>
    match db.snapshotMeta with
    | some snap => (snap.lastIncludedIndex, snap.lastIncludedTerm)
    | none => (0, 0)

/-- The highest index present, falling back to the snapshot. -/
def lastIndex : ℕ := db.lastIndexAndTerm.1

/-- The lowest index the log still holds, or `0` for an empty log. -/
def firstIndex : ℕ :=
  match db.log.toList.head? with
  | some (key, _) => key
  | none => 0

/-- Insert a batch of entries, each at its own index. -/
def insertAll (log : OrdMap ℕ LogEntry) (entries : List LogEntry) :
    OrdMap ℕ LogEntry :=
  entries.foldl (fun table entry => table.insert entry.index entry) log

end Db

/-- The durable log and hard state of a single node. -/
structure RaftLog where
  /-- What is on disk. -/
  db : Db := {}
  /-- The database after each committed transaction, oldest first. -/
  commits : List Db := []
  deriving DecidableEq, Inhabited

namespace RaftLog

variable (l : RaftLog)

/-- Commit a write transaction that leaves the database as `db`. -/
def commit (db : Db) : RaftLog := { db := db, commits := l.commits ++ [db] }

/-- Append (or overwrite) a batch of entries in a single transaction. -/
def appendAll (entries : List LogEntry) : RaftLog :=
  l.commit { l.db with log := Db.insertAll l.db.log entries }

/-- Append (or overwrite) a single entry. -/
def append (entry : LogEntry) : RaftLog := l.appendAll [entry]

/-- Remove every entry with index `≥ start`. -/
def truncateFrom (start : ℕ) : RaftLog :=
  l.commit { l.db with log := l.db.log.filter (fun key _ => decide (key < start)) }

/-- Install a snapshot and drop the entries it covers, or the whole log, in one
transaction. -/
def writeSnapshot (info : SnapshotMeta) (data : Bytes) (wipeEntireLog : Bool) :
    RaftLog :=
  l.commit { l.db with
    snapshot := some (info, data)
    log := if wipeEntireLog then ∅
      else l.db.log.filter (fun key _ => decide (info.lastIncludedIndex < key)) }

/-- Install a snapshot, keeping the tail beyond it. -/
def compactTo (info : SnapshotMeta) (data : Bytes) : RaftLog :=
  l.writeSnapshot info data false

/-- Install a snapshot and discard the entire log. -/
def installSnapshotReplacingLog (info : SnapshotMeta) (data : Bytes) : RaftLog :=
  l.writeSnapshot info data true

/-- Persist the term and the vote together. -/
def saveHardState (state : HardState) : RaftLog :=
  l.commit { l.db with hard := state }

@[simp] theorem commit_db (db : Db) : (l.commit db).db = db := rfl

end RaftLog

end Brokkr.Raft
