import Brokkr.Lib.Arena
import Brokkr.Cas.InputTree

/-!
# The inode table

`InodeTable` of `brokkr-worker` (`fuse/inode.rs`): the nodes of an input tree in a vector,
numbered from one in the order in which the walk over the tree comes to them.

* `buildDir`, `build` — the walk, as deep as it is given fuel for.
* `InodeTable.resolve` — from a path to an inode.  A path is given by the pieces between
  its slashes.
* `Fills` — a step of the walk: some children of a directory have been entered, each with
  all that lies below it; `fills_buildDir` — the whole walk.
* `inodeTable_denotes` — the table is the tree.
-/

namespace Brokkr.Worker

open Option

open Blobs List

variable {i : ℕ} {digest : Digest} {names : List String}

/-! ## The table -/

/-- What an inode stands for. -/
inductive InodeKind where
  | dir (entries : OrdMap String ℕ)
  | file (digest : Digest) (size : ℕ) (exec : Bool)
  | link (target : String)

/-- An entry of the table. -/
structure Inode where
  ino : ℕ
  kind : InodeKind

/-- The inodes of an input tree. -/
structure InodeTable where
  inodes : List Inode

/-- The number of the root. -/
def rootIno : ℕ := 1

namespace InodeTable

/-- The table before the walk. -/
def start : InodeTable := ⟨[⟨rootIno, .dir ∅⟩]⟩

/-- How many inodes there are. -/
def len (t : InodeTable) : ℕ := t.inodes.length

/-- The inode with a number. -/
def get (t : InodeTable) (ino : ℕ) : Option Inode := if ino = 0 then none else t.inodes[ino - 1]?

/-- The child of an inode under a name; a name that is not text is no child's. -/
def lookup (t : InodeTable) (parentIno : ℕ) (name : Option String) : Option ℕ :=
  match t.get parentIno with
  | some ⟨_, .dir entries⟩ => name.bind entries.get?
  | _ => none

/-- Add an inode. -/
def push (t : InodeTable) (kind : InodeKind) : ℕ × InodeTable :=
  let ino := t.len + 1
  (ino, ⟨t.inodes ++ [⟨ino, kind⟩]⟩)

/-- Enter an inode in a directory. -/
def linkChild (t : InodeTable) (parentIno : ℕ) (name : String) (childIno : ℕ) :
    Except CasError InodeTable :=
  match t.inodes[parentIno - 1]? with
  | none => .error (.other ("parent inode " ++ toString parentIno ++ " not allocated"))
  | some parent =>
    match parent.kind with
    | .dir entries =>
      if (entries.get? name).isSome then
        .error (.other ("duplicate entry " ++ name.quote ++ " in inode " ++ toString parentIno))
      else
        .ok ⟨t.inodes.set (parentIno - 1)
          { parent with kind := .dir (entries.insert name childIno) }⟩
    | _ => .error (.other ("parent inode " ++ toString parentIno ++ " is not a directory"))

/-- Add an inode and enter it in a directory. -/
def addChild (t : InodeTable) (parentIno : ℕ) (name : String) (kind : InodeKind) :
    Except CasError InodeTable :=
  let (childIno, t) := t.push kind
  t.linkChild parentIno name childIno

end InodeTable

/-! ## The walk -/

/-- The digest of a node. -/
def decodeDigest (proto : Option RawDigest) (name kind : String) : Except CasError Digest :=
  match proto with
  | some raw =>
    match Digest.ofRaw raw with
    | .ok digest => .ok digest
    | .error e => .error (.other ("invalid " ++ kind ++ " digest " ++ name ++ ": " ++ e.toString))
  | none => .error (.other (kind ++ " " ++ name.quote ++ " missing digest"))

/-- The files of a directory. -/
def addFiles (parentIno : ℕ) : List FileNode → InodeTable → Except CasError InodeTable
  | [], t => .ok t
  | node :: rest, t =>
    match validateNodeName node.name with
    | some reason =>
      .error (.other ("FileNode " ++ node.name.quote ++ ": invalid name (" ++ reason ++ ")"))
    | none =>
      match decodeDigest node.digest node.name "FileNode" with
      | .error e => .error e
      | .ok digest =>
        if digest.sizeBytes < 0 then
          .error (.other ("FileNode " ++ node.name.quote ++
            ": negative or oversize digest size " ++ toString digest.sizeBytes))
        else
          match t.addChild parentIno node.name
              (.file digest digest.sizeBytes.toNat node.isExecutable) with
          | .error e => .error e
          | .ok t => addFiles parentIno rest t

/-- The links of a directory. -/
def addSymlinks (parentIno : ℕ) : List SymlinkNode → InodeTable → Except CasError InodeTable
  | [], t => .ok t
  | node :: rest, t =>
    match validateNodeName node.name with
    | some reason =>
      .error (.other ("SymlinkNode " ++ node.name.quote ++ ": invalid name (" ++ reason ++ ")"))
    | none =>
      match t.addChild parentIno node.name (.link node.target) with
      | .error e => .error e
      | .ok t => addSymlinks parentIno rest t

/-- What a walk returns, if it has returned. -/
abbrev BuildResult := Option (Except CasError InodeTable)

/-- The directories in a directory; `recurse` walks each of them. -/
def addDirectories (recurse : Digest → ℕ → InodeTable → BuildResult) (parentIno : ℕ) :
    List DirectoryNode → InodeTable → BuildResult
  | [], t => some (.ok t)
  | node :: rest, t =>
    match validateNodeName node.name with
    | some reason =>
      some (.error (.other
        ("DirectoryNode " ++ node.name.quote ++ ": invalid name (" ++ reason ++ ")")))
    | none =>
      match decodeDigest node.digest node.name "DirectoryNode" with
      | .error e => some (.error e)
      | .ok digest =>
        match t.addChild parentIno node.name (.dir ∅) with
        | .error e => some (.error e)
        | .ok t' =>
          match recurse digest (t.len + 1) t' with
          | some (.ok t) => addDirectories recurse parentIno rest t
          | ended => ended

/-- Walk a directory: its files, its links, and then the directories in it. -/
def buildDir (decode : Bytes → Except String Directory) (cas : MemStore) :
    ℕ → Digest → ℕ → InodeTable → BuildResult
  | 0, _, _, _ => none
  | fuel + 1, digest, parentIno, t =>
    match fetchDirectory decode cas digest with
    | .error e => some (.error e)
    | .ok directory =>
      match addFiles parentIno directory.files t with
      | .error e => some (.error e)
      | .ok t =>
        match addSymlinks parentIno directory.symlinks t with
        | .error e => some (.error e)
        | .ok t => addDirectories (buildDir decode cas fuel) parentIno directory.directories t

/-- The table of an input tree. -/
def build (decode : Bytes → Except String Directory) (cas : MemStore) (fuel : ℕ)
    (root : Digest) : BuildResult :=
  buildDir decode cas fuel root rootIno .start

/-! ## Paths -/

/-- A path, as the pieces between its slashes; `none` is a piece that is not text. -/
abbrev OsPath := List (Option String)

/-- A component of a path. -/
inductive Component where
  | rootDir
  | curDir
  | parentDir
  | normal (name : Option String)
  deriving DecidableEq

/-- The component of a piece that is not the first: empty pieces and dots do not count. -/
def component (piece : Option String) : List Component :=
  if piece = some "" ∨ piece = some "." then []
  else if piece = some ".." then [.parentDir]
  else [.normal piece]

/-- The components of a path. -/
def components : OsPath → List Component
  | [] => []
  | first :: rest =>
    (if first = some "" then (if rest = [] then [] else [.rootDir])
      else if first = some "." then [.curDir]
      else component first) ++ rest.flatMap component

namespace InodeTable

/-- Follow components. -/
def resolveFrom (t : InodeTable) : ℕ → List Component → Option ℕ
  | ino, [] => some ino
  | ino, .rootDir :: rest => t.resolveFrom ino rest
  | ino, .curDir :: rest => t.resolveFrom ino rest
  | ino, .normal name :: rest => (t.lookup ino name).bind fun child => t.resolveFrom child rest
  | _, .parentDir :: _ => none

/-- The inode at a path. -/
def resolve (t : InodeTable) (path : OsPath) : Option ℕ := t.resolveFrom rootIno (components path)

/-! ## Inodes and links -/

variable {t t' : InodeTable} {p ino : ℕ} {name : String} {kind : InodeKind}
  {entries : OrdMap String ℕ}

theorem get_le {inode : Inode} (h : t.get ino = some inode) : ino ≤ t.len := by
  rw [get] at h
  split at h
  · cases h
  have := (List.getElem?_eq_some_iff.1 h).1
  rw [len]
  omega

theorem get_of_lt (hlt : t.len < ino) : t.get ino = none := by
  cases h : t.get ino with
  | none => rfl
  | some => exact absurd (get_le h) (Nat.not_le.2 hlt)

theorem lookup_dir (h : t.get p = some ⟨i, .dir entries⟩) (name : String) :
    t.lookup p (some name) = entries.get? name := by
  simp only [lookup, h]
  rfl

theorem lookup_congr (h : t'.get ino = t.get ino) (name : Option String) :
    t'.lookup ino name = t.lookup ino name := by
  rw [lookup, h, lookup]

/-- The table as numbered nodes with links. -/
def arena (t : InodeTable) : Arena String := ⟨t.len, fun i name => t.lookup i (some name)⟩

/-- An inode without children. -/
def Childless (kind : InodeKind) : Prop := ∀ entries, kind = .dir entries → entries = ∅

theorem lookup_childless (h : t.get ino = some ⟨i, kind⟩) (hkind : Childless kind)
    (name : Option String) : t.lookup ino name = none := by
  simp only [lookup, h]
  cases kind with
  | dir entries =>
    rw [hkind entries rfl]
    cases name <;> rfl
  | _ => rfl

theorem lookup_of_lt (hlt : t.len < ino) (name : Option String) : t.lookup ino name = none := by
  simp only [lookup, get_of_lt hlt]

/-- An inode has been added and entered. -/
structure Added (t : InodeTable) (p : ℕ) (name : String) (kind : InodeKind) (t' : InodeTable)
    (entries : OrdMap String ℕ) : Prop where
  len : t'.len = t.len + 1
  fresh : entries.get? name = none
  parent : t'.get p = some ⟨p, .dir (entries.insert name (t.len + 1))⟩
  new : t'.get (t.len + 1) = some ⟨t.len + 1, kind⟩
  other : ∀ i, i ≤ t.len → i ≠ p → t'.get i = t.get i

theorem added_of_addChild (hp : t.get p = some ⟨p, .dir entries⟩)
    (h : t.addChild p name kind = .ok t') : Added t p name kind t' entries := by
  have hle := get_le hp
  have hpos : p ≠ 0 := by
    rintro rfl
    cases hp
  rw [get, if_neg hpos] at hp
  have hlt : p - 1 < t.inodes.length := (List.getElem?_eq_some_iff.1 hp).1
  rw [addChild, push] at h
  simp only [linkChild, getElem?_append_left hlt, hp] at h
  split at h
  · cases h
  rename_i hfresh
  cases h
  refine ⟨?_, by simpa using hfresh, ?_, ?_, fun i hi hne => ?_⟩
  · simp [len]
  · rw [get, if_neg hpos, getElem?_set_self (by simp; omega)]
  · have hne : p - 1 ≠ t.len := by
      rw [len] at *
      omega
    rw [get, if_neg (Nat.succ_ne_zero _), Nat.add_sub_cancel, getElem?_set_ne hne, len]
    simp
  · rw [get, get]
    split
    · rfl
    · rename_i hi0
      rw [getElem?_set_ne (by omega), getElem?_append_left (by rw [len] at hi; omega)]

theorem Added.arena_eq (h : Added t p name kind t' entries) (hp : t.get p = some ⟨p, .dir entries⟩)
    (hkind : Childless kind) : t'.arena = t.arena.link p name := by
  have hedge : ∀ i name', t'.lookup i (some name') =
      if i = p ∧ name' = name then some (t.len + 1) else t.lookup i (some name') := by
    intro i name'
    by_cases hip : i = p
    · subst hip
      rw [lookup_dir h.parent, lookup_dir hp, OrdMap.get?_insert]
      by_cases hname : name' = name
      · rw [if_pos hname, if_pos ⟨rfl, hname⟩]
      · rw [if_neg hname, if_neg fun hboth => hname hboth.2]
    rw [if_neg fun hboth => hip hboth.1]
    rcases Nat.lt_trichotomy i (t.len + 1) with hlt | rfl | hgt
    · exact lookup_congr (h.other i (by omega) hip) _
    · rw [lookup_childless h.new hkind, lookup_of_lt (Nat.lt_succ_self _)]
    · rw [lookup_of_lt (by rw [h.len]; exact hgt), lookup_of_lt (by omega)]
  rw [arena, Arena.link, h.len]
  exact congrArg _ (funext fun i => funext fun name' => hedge i name')

end InodeTable

/-! ## What an inode shows -/

/-- What a node is, without what lies below it. -/
inductive NodeKind where
  | dir
  | file (digest : Digest) (size : ℕ) (exec : Bool)
  | link (target : String)
  deriving DecidableEq

/-- The kind of a node of an input tree. -/
def nodeKind : InputNode → NodeKind
  | .dir _ => .dir
  | .file digest executable => .file digest digest.sizeBytes.toNat executable
  | .link target => .link target

/-- The kind that an inode shows. -/
def InodeKind.shown : InodeKind → NodeKind
  | .dir _ => .dir
  | .file digest size exec => .file digest size exec
  | .link target => .link target

/-- The kind of the inode with a number. -/
def InodeTable.kindAt (t : InodeTable) (ino : ℕ) : Option NodeKind :=
  (t.get ino).map fun inode => inode.kind.shown

section Shows

variable {decode : Bytes → Except String Directory} {cas : MemStore}

/-- The inodes below a number are the nodes below a node. -/
def Shows (decode : Bytes → Except String Directory) (cas : MemStore) (t : InodeTable) (ino : ℕ)
    (node : InputNode) : Prop :=
  ∀ path kind, (∃ n, NodeAt decode cas node path n ∧ nodeKind n = kind) ↔
    ∃ i, t.arena.resolve ino path = some i ∧ t.kindAt i = some kind

variable {t t' : InodeTable} {ino : ℕ} {node : InputNode}

theorem shows_leaf {kind : InodeKind} (hget : t.get ino = some ⟨i, kind⟩)
    (hkind : InodeTable.Childless kind) (hshown : kind.shown = nodeKind node)
    (hleaf : ∀ digest, node ≠ .dir digest) : Shows decode cas t ino node := by
  have hat : t.kindAt ino = some (nodeKind node) := by
    rw [InodeTable.kindAt, hget, ← hshown]
    rfl
  intro path k
  cases path with
  | nil =>
    constructor
    · rintro ⟨n, hn, rfl⟩
      rw [nodeAt_nil.1 hn]
      exact ⟨ino, rfl, hat⟩
    rintro ⟨_, ⟨⟩, hk⟩
    rw [hat] at hk
    exact ⟨node, .here node, some.inj hk⟩
  | cons name =>
    constructor
    · rintro ⟨n, hn, -⟩
      obtain ⟨digest, -, -, hdir, -⟩ := nodeAt_cons.1 hn
      exact absurd hdir (hleaf digest)
    rintro ⟨j, hj, -⟩
    have hedge : t.arena.edge ino name = none := InodeTable.lookup_childless hget hkind _
    rw [Arena.resolve, hedge] at hj
    cases hj

theorem Shows.congr {S : ℕ → Prop} (h : Shows decode cas t ino node)
    (hagree : ∀ i, S i → t'.get i = t.get i)
    (hclosed : ∀ i name j, S i → t.arena.edge i name = some j → S j) (hino : S ino) :
    Shows decode cas t' ino node := by
  intro path kind
  have hedge : ∀ i, S i → ∀ name, t'.arena.edge i name = t.arena.edge i name :=
    fun i hi name => InodeTable.lookup_congr (hagree i hi) _
  obtain ⟨hresolve, hmem⟩ := Arena.resolve_congr hedge hclosed hino path
  rw [h path kind, hresolve]
  refine exists_congr fun i => and_congr_right fun hi => ?_
  rw [InodeTable.kindAt, InodeTable.kindAt, hagree i (hmem i hi)]

end Shows

/-! ## Filling a directory -/

/-- From `t₀` to `t`, some children have been entered in the directory `p`, each with all
that lies below it. -/
structure Fills (decode : Bytes → Except String Directory) (cas : MemStore) (t₀ t : InodeTable)
    (p : ℕ) (done : List (String × InputNode)) : Prop where
  le : p ≤ t₀.len
  grown : Arena.Grown t₀.arena t.arena p
  frame : ∀ i, i ≤ t₀.len → i ≠ p → t.get i = t₀.get i
  numbered : ∀ i, t₀.len < i → i ≤ t.len → ∃ kind, t.get i = some ⟨i, kind⟩
  isDir : ∃ entries, t.get p = some ⟨p, .dir entries⟩
  child : ∀ name node, (name, node) ∈ done →
    ∃ c, t.lookup p (some name) = some c ∧ Shows decode cas t c node
  named : ∀ name c, t.lookup p (some name) = some c → name ∈ done.map Prod.fst
  nodup : (done.map Prod.fst).Nodup
  plain : ∀ i name c, i = p ∨ t₀.len < i → t.lookup i (some name) = some c → Posix.Plain name

namespace Fills

variable {decode : Bytes → Except String Directory} {cas : MemStore} {t₀ t t' t'' : InodeTable}
  {p : ℕ} {done : List (String × InputNode)} {name : String} {node : InputNode}
  {kind : InodeKind}

theorem start (hp : t₀.get p = some ⟨p, .dir ∅⟩) : Fills decode cas t₀ t₀ p [] := by
  have hnone : ∀ name, t₀.lookup p name = none :=
    InodeTable.lookup_childless hp fun entries heq => by cases heq; rfl
  refine ⟨InodeTable.get_le hp, ?_, fun _ _ _ => rfl, fun i hlt hle => absurd hlt (by omega),
    ⟨∅, hp⟩, nofun, fun name c hc => ?_, nodup_nil, ?_⟩
  · exact .refl (fun name => hnone _) fun i name hi => InodeTable.lookup_of_lt hi _
  · rw [hnone] at hc
    cases hc
  rintro i name c (rfl | hi) hc
  · rw [hnone] at hc
    cases hc
  · rw [InodeTable.lookup_of_lt hi] at hc
    cases hc

/-- **One more child**: it is added and entered, and then filled itself. -/
theorem extend (h : Fills decode cas t₀ t p done) (hadd : t.addChild p name kind = .ok t')
    (hkind : InodeTable.Childless kind) (hgrown : Arena.Grown t'.arena t''.arena (t.len + 1))
    (hframe : ∀ i, i ≤ t'.len → i ≠ t.len + 1 → t''.get i = t'.get i)
    (hnumbered : ∀ i, t'.len < i → i ≤ t''.len → ∃ kind, t''.get i = some ⟨i, kind⟩)
    (hself : ∃ kind, t''.get (t.len + 1) = some ⟨t.len + 1, kind⟩)
    (hshows : Shows decode cas t'' (t.len + 1) node) (hname : Posix.Plain name)
    (hplain : ∀ i name' c, i = t.len + 1 ∨ t'.len < i → t''.lookup i (some name') = some c →
      Posix.Plain name') :
    Fills decode cas t₀ t'' p (done ++ [(name, node)]) := by
  obtain ⟨entries, hp⟩ := h.isDir
  have hle := h.le
  have hlen : t₀.len ≤ t.len := h.grown.size_le
  have ha := InodeTable.added_of_addChild hp hadd
  have hlink := ha.arena_eq hp hkind
  have hlen' := ha.len
  have hfresh : t.lookup p (some name) = none := by
    rw [InodeTable.lookup_dir hp]
    exact ha.fresh
  rw [hlink] at hgrown
  -- the directory and the older inodes are left as the new entry has left them
  have hparent : t''.get p = some ⟨p, .dir (entries.insert name (t.len + 1))⟩ := by
    rw [hframe p (by omega) (by omega), ha.parent]
  have hold : ∀ i, i ≤ t.len → i ≠ p → t''.get i = t.get i := by
    intro i hi hne
    rw [hframe i (by omega) (by omega), ha.other i hi hne]
  have hlookup : ∀ name', t''.lookup p (some name') =
      if name' = name then some (t.len + 1) else t.lookup p (some name') := by
    intro name'
    rw [InodeTable.lookup_dir hparent, InodeTable.lookup_dir hp, OrdMap.get?_insert]
  refine ⟨h.le, h.grown.child h.le hfresh hgrown, fun i hi hne => ?_, fun i hlt hi => ?_,
    ⟨_, hparent⟩, fun name' node' hmem => ?_, fun name' c hc => ?_, ?_, fun i name' c hi hc => ?_⟩
  · rw [hold i (by omega) hne, h.frame i hi hne]
  · rcases Nat.lt_trichotomy i (t.len + 1) with hlt' | rfl | hgt
    · rw [hold i (by omega) (by omega)]
      exact h.numbered i hlt (by omega)
    · exact hself
    · exact hnumbered i (by omega) hi
  · rcases mem_append.1 hmem with hmem | hmem
    · obtain ⟨c, hc, hshows'⟩ := h.child name' node' hmem
      have hne : name' ≠ name := by
        rintro rfl
        rw [hfresh] at hc
        cases hc
      have htarget := h.grown.target p name' c (Or.inl rfl) hc
      refine ⟨c, by rw [hlookup, if_neg hne, hc], hshows'.congr
        (S := fun i => t₀.len < i ∧ i ≤ t.len) ?_ ?_ ⟨htarget.1, htarget.2.2⟩⟩
      · rintro i ⟨hlt, hi⟩
        exact hold i hi (by omega)
      rintro i name₂ j ⟨hlt, -⟩ hedge
      have := h.grown.target i name₂ j (Or.inr hlt) hedge
      exact ⟨this.1, this.2.2⟩
    · cases mem_singleton.1 hmem
      exact ⟨t.len + 1, by rw [hlookup, if_pos rfl], hshows⟩
  · rw [hlookup] at hc
    rw [map_append, mem_append]
    split at hc
    · rename_i heq
      exact .inr (by simp [heq])
    · exact .inl (h.named name' c hc)
  · have hnot : name ∉ done.map Prod.fst := by
      intro hmem
      obtain ⟨⟨name', node'⟩, hdone, rfl⟩ := mem_map.1 hmem
      obtain ⟨c, hc, -⟩ := h.child name' node' hdone
      rw [hfresh] at hc
      cases hc
    rw [map_append, map_singleton, nodup_append_comm, singleton_append, nodup_cons]
    exact ⟨hnot, h.nodup⟩
  · by_cases hnew : i = t.len + 1 ∨ t'.len < i
    · exact hplain i name' c hnew hc
    · by_cases hip : i = p
      · subst hip
        rw [hlookup] at hc
        split at hc
        · rename_i heq
          exact heq ▸ hname
        · exact h.plain i name' c (Or.inl rfl) hc
      · rw [InodeTable.lookup_congr (hold i (by omega) hip)] at hc
        exact h.plain i name' c hi hc

theorem extend_leaf (h : Fills decode cas t₀ t p done) (node : InputNode)
    (hadd : t.addChild p name kind = .ok t')
    (hkind : InodeTable.Childless kind) (hshown : kind.shown = nodeKind node)
    (hleaf : ∀ digest, node ≠ .dir digest) (hname : Posix.Plain name) :
    Fills decode cas t₀ t' p (done ++ [(name, node)]) := by
  obtain ⟨entries, hp⟩ := h.isDir
  have ha := InodeTable.added_of_addChild hp hadd
  have hnone : ∀ i name', i = t.len + 1 ∨ t'.len < i → t'.lookup i (some name') = none := by
    rintro i name' (rfl | hi)
    · exact InodeTable.lookup_childless ha.new hkind _
    · exact InodeTable.lookup_of_lt hi _
  refine h.extend hadd hkind ?_ (fun _ _ _ => rfl) (fun i hlt hle => absurd hlt (by omega))
    ⟨kind, ha.new⟩ (shows_leaf ha.new hkind hshown hleaf) hname fun i name' c hi hc => ?_
  · exact .refl (fun name' => hnone _ name' (Or.inl rfl))
      fun i name' hi => hnone i name' (Or.inr hi)
  · rw [hnone i name' hi] at hc
    cases hc

theorem shows {directory : Directory} (hfetch : fetchDirectory decode cas digest = .ok directory)
    (h : Fills decode cas t₀ t p (children directory)) : Shows decode cas t p (.dir digest) := by
  obtain ⟨entries, hp⟩ := h.isDir
  have hat : t.kindAt p = some .dir := by
    rw [InodeTable.kindAt, hp]
    rfl
  intro path kind
  cases path with
  | nil =>
    constructor
    · rintro ⟨n, hn, rfl⟩
      rw [nodeAt_nil.1 hn]
      exact ⟨p, rfl, hat⟩
    rintro ⟨_, ⟨⟩, hk⟩
    rw [hat] at hk
    exact ⟨.dir digest, .here _, some.inj hk⟩
  | cons name path =>
    constructor
    · rintro ⟨n, hn, rfl⟩
      obtain ⟨_, directory', child, ⟨⟩, hfetch', hmem, hn⟩ := nodeAt_cons.1 hn
      cases hfetch.symm.trans hfetch'
      obtain ⟨c, hc, hshows⟩ := h.child name child hmem
      obtain ⟨i, hi, hkind⟩ := (hshows path (nodeKind n)).1 ⟨n, hn, rfl⟩
      refine ⟨i, ?_, hkind⟩
      have hedge : t.arena.edge p name = some c := hc
      rw [Arena.resolve, hedge]
      exact hi
    · rintro ⟨i, hi, hkind⟩
      obtain ⟨c, hc, hbelow⟩ := bind_eq_some_iff.1 hi
      obtain ⟨⟨_, child⟩, hmem, rfl⟩ := mem_map.1 (h.named name c hc)
      obtain ⟨c', hc', hshows⟩ := h.child _ child hmem
      cases hc'.symm.trans hc
      obtain ⟨n, hn, hk⟩ := (hshows path kind).2 ⟨i, hbelow, hkind⟩
      exact ⟨n, .inside hfetch hmem hn, hk⟩

/-! ### The loops -/

theorem checked_of_decodeDigest {raw : Option RawDigest} {name kind : String}
    (h : decodeDigest raw name kind = .ok digest) : checked raw = some digest := by
  cases raw with
  | none => cases h
  | some raw =>
    rw [decodeDigest] at h
    split at h
    · rename_i hraw
      cases h
      exact checked_eq_some.2 ⟨raw, rfl, hraw⟩
    · cases h

theorem addFiles (h : Fills decode cas t₀ t p done) {nodes : List FileNode}
    (hok : addFiles p nodes t = .ok t') :
    Fills decode cas t₀ t' p (done ++ nodes.filterMap fileChild) := by
  induction nodes generalizing t done with
  | nil =>
    cases hok
    rwa [filterMap_nil, append_nil]
  | cons node rest ih =>
    rw [Worker.addFiles] at hok
    split at hok
    · cases hok
    rename_i hname
    split at hok
    · cases hok
    rename_i digest hdigest
    split at hok
    · cases hok
    split at hok
    · cases hok
    rename_i t₁ hadd
    have hchild := fileChild_eq (checked_of_decodeDigest hdigest)
    have hleaf := h.extend_leaf (.file digest node.isExecutable) hadd nofun rfl
      nofun (plain_of_validateNodeName hname)
    rw [filterMap_cons_some hchild, append_cons]
    exact ih hleaf hok

theorem addSymlinks (h : Fills decode cas t₀ t p done) {nodes : List SymlinkNode}
    (hok : addSymlinks p nodes t = .ok t') :
    Fills decode cas t₀ t' p (done ++ nodes.map symlinkChild) := by
  induction nodes generalizing t done with
  | nil =>
    cases hok
    rwa [map_nil, append_nil]
  | cons node rest ih =>
    rw [Worker.addSymlinks] at hok
    split at hok
    · cases hok
    rename_i hname
    split at hok
    · cases hok
    rename_i t₁ hadd
    have hleaf := h.extend_leaf (.link node.target) hadd nofun rfl nofun
      (plain_of_validateNodeName hname)
    rw [map_cons, append_cons]
    exact ih hleaf hok

theorem addDirectories {recurse : Digest → ℕ → InodeTable → BuildResult}
    (hrec : ∀ digest q u u', u.get q = some ⟨q, .dir ∅⟩ → recurse digest q u = some (.ok u') →
      ∃ directory, fetchDirectory decode cas digest = .ok directory ∧
        Fills decode cas u u' q (children directory))
    (h : Fills decode cas t₀ t p done) {nodes : List DirectoryNode}
    (hok : addDirectories recurse p nodes t = some (.ok t')) :
    Fills decode cas t₀ t' p (done ++ nodes.filterMap directoryChild) := by
  induction nodes generalizing t done with
  | nil =>
    cases hok
    rwa [filterMap_nil, append_nil]
  | cons node rest ih =>
    rw [Worker.addDirectories] at hok
    split at hok
    · cases hok
    rename_i hname
    split at hok
    · cases hok
    rename_i digest hdigest
    split at hok
    · cases hok
    rename_i t₁ hadd
    split at hok
    · rename_i t₂ hwalk
      obtain ⟨entries, hp⟩ := h.isDir
      have ha := InodeTable.added_of_addChild hp hadd
      obtain ⟨directory, hfetch, hfills⟩ := hrec digest (t.len + 1) t₁ t₂ ha.new hwalk
      obtain ⟨entries', hself⟩ := hfills.isDir
      have hchild := directoryChild_eq (checked_of_decodeDigest hdigest)
      have hempty : InodeTable.Childless (.dir ∅) := fun entries heq => by cases heq; rfl
      have hmore := h.extend hadd hempty hfills.grown hfills.frame hfills.numbered
        ⟨_, hself⟩ (hfills.shows hfetch) (plain_of_validateNodeName hname) hfills.plain
      rw [filterMap_cons_some hchild, append_cons]
      exact ih hmore hok
    · rename_i hnot
      exact absurd hok (hnot t')

end Fills

/-- **The walk enters the children of its directory**, with all that lies below them. -/
theorem fills_buildDir {decode : Bytes → Except String Directory} {cas : MemStore} {fuel : ℕ}
    {p : ℕ} {t t' : InodeTable} (hp : t.get p = some ⟨p, .dir ∅⟩)
    (hok : buildDir decode cas fuel digest p t = some (.ok t')) :
    ∃ directory, fetchDirectory decode cas digest = .ok directory ∧
      Fills decode cas t t' p (children directory) := by
  induction fuel generalizing digest p t t' with
  | zero => cases hok
  | succ fuel ih =>
    rw [buildDir] at hok
    split at hok
    · cases hok
    rename_i directory hfetch
    split at hok
    · cases hok
    rename_i t₁ hfiles
    split at hok
    · cases hok
    rename_i t₂ hlinks
    have hstart : Fills decode cas t t p [] := .start hp
    have hdone := (hstart.addFiles hfiles).addSymlinks hlinks
    exact ⟨directory, hfetch, Fills.addDirectories (fun _ _ _ _ hq hwalk => ih hq hwalk)
      hdone hok⟩

/-! ## The table is the tree -/

/-- The names that components spell below the root, if they do. -/
def spelled : List Component → Option (List String)
  | [] => some []
  | .rootDir :: rest => spelled rest
  | .curDir :: rest => spelled rest
  | .normal (some name) :: rest => (spelled rest).map fun names => name :: names
  | .normal none :: _ => none
  | .parentDir :: _ => none

theorem resolveFrom_eq (t : InodeTable) (ino : ℕ) (path : List Component) :
    t.resolveFrom ino path = (spelled path).bind (t.arena.resolve ino) := by
  induction path generalizing ino with
  | nil => rfl
  | cons c rest ih =>
    cases c with
    | rootDir => exact ih ino
    | curDir => exact ih ino
    | parentDir => rfl
    | normal name =>
      rw [InodeTable.resolveFrom]
      cases name with
      | none =>
        have hnone : t.lookup ino none = none := by
          rw [InodeTable.lookup]
          split <;> rfl
        rw [hnone]
        rfl
      | some =>
        rw [spelled]
        cases hspelled : spelled rest with
        | none => simp only [ih, hspelled, bind_none, map_none, bind_fun_none]
        | some =>
          simp only [ih, hspelled, bind_some, map_some]
          rfl

theorem spelled_components (hplain : ∀ name ∈ names, Posix.Plain name) :
    spelled (components (names.map some)) = some names := by
  have hone : ∀ name, Posix.Plain name → component (some name) = [.normal (some name)] := by
    rintro name ⟨hempty, hdot, hdots⟩
    rw [component, if_neg (by simp [hempty, hdot]), if_neg (by simp [hdots])]
  have htail : ∀ names : List String, (∀ name ∈ names, Posix.Plain name) →
      spelled ((names.map some).flatMap component) = some names := by
    intro names
    induction names with
    | nil => exact fun _ => rfl
    | cons name names ih =>
      intro hplain
      rw [map_cons, flatMap_cons, hone name (hplain name mem_cons_self),
        singleton_append, spelled, ih fun n hn => hplain n (mem_cons_of_mem _ hn)]
      rfl
  cases names with
  | nil => rfl
  | cons name names =>
    obtain ⟨hempty, hdot, -⟩ := hplain name mem_cons_self
    have hfirst : components ((name :: names).map some) =
        ((name :: names).map some).flatMap component := by
      rw [map_cons, components, if_neg (by simpa using hempty), if_neg (by simpa using hdot),
        flatMap_cons]
    rw [hfirst, htail _ hplain]

theorem resolve_map_some (t : InodeTable) (hplain : ∀ name ∈ names, Posix.Plain name) :
    t.resolve (names.map some) = t.arena.resolve rootIno names := by
  rw [InodeTable.resolve, resolveFrom_eq, spelled_components hplain]
  rfl

theorem arena_start : InodeTable.start.arena = Arena.root String := by
  have hroot : InodeTable.start.get rootIno = some ⟨rootIno, .dir ∅⟩ := rfl
  refine congrArg _ (funext fun i => funext fun name => ?_)
  rcases Nat.lt_trichotomy i 1 with hlt | rfl | hgt
  · rw [Nat.lt_one_iff.1 hlt]
    rfl
  · exact InodeTable.lookup_childless hroot (fun entries heq => by cases heq; rfl) _
  · exact InodeTable.lookup_of_lt hgt _

section Built

variable {decode : Bytes → Except String Directory} {cas : MemStore} {t : InodeTable}
  {done : List (String × InputNode)}

theorem Fills.plain_of_resolve (h : Fills decode cas .start t rootIno done) {j : ℕ}
    (hi : rootIno ≤ i) (hresolve : t.arena.resolve i names = some j) :
    ∀ name ∈ names, Posix.Plain name := by
  induction names generalizing i with
  | nil => exact nofun
  | cons name names ih =>
    obtain ⟨c, hc, hrest⟩ := bind_eq_some_iff.1 hresolve
    have hnew : i = rootIno ∨ InodeTable.start.len < i := (Nat.eq_or_lt_of_le hi).imp_left Eq.symm
    have htarget := (h.grown.target i name c hnew hc).2.1
    intro name' hmem
    rcases mem_cons.1 hmem with rfl | hmem
    · exact h.plain i name' c hnew hc
    · exact ih (Nat.le_of_lt (Nat.lt_of_le_of_lt hi htarget)) hrest name' hmem

theorem Fills.ino_eq (h : Fills decode cas .start t rootIno done) {k : ℕ} {inode : Inode}
    (hk : t.inodes[k]? = some inode) : inode.ino = k + 1 := by
  have hget : t.get (k + 1) = some inode := hk
  cases k with
  | zero =>
    obtain ⟨entries, hp⟩ := h.isDir
    cases hget.symm.trans hp
    rfl
  | succ k =>
    obtain ⟨kind, hkind⟩ := h.numbered (k + 2) (Nat.succ_lt_succ (Nat.succ_pos k))
      (InodeTable.get_le hget)
    cases hget.symm.trans hkind
    rfl

theorem pos_of_lookup {j : ℕ} {name : Option String} (h : t.lookup i name = some j) :
    rootIno ≤ i := by
  cases i with
  | zero => cases h
  | succ i => exact Nat.succ_pos i

theorem Fills.existsUnique_entry (h : Fills decode cas .start t rootIno done) {ino : ℕ}
    (hlt : rootIno < ino) (hle : ino ≤ t.len) :
    ∃! entry : ℕ × String, t.lookup entry.1 (some entry.2) = some ino := by
  obtain ⟨i, name, hi, hedge⟩ := h.grown.linked ino hlt hle
  refine ⟨(i, name), hedge, ?_⟩
  rintro ⟨i', name'⟩ hedge'
  have hi' := (Nat.eq_or_lt_of_le (pos_of_lookup hedge')).imp_left Eq.symm
  obtain ⟨rfl, rfl⟩ := h.grown.once hi hedge hi' hedge'
  rfl

theorem exists_kindAt {ino : ℕ} (hpos : rootIno ≤ ino) (hle : ino ≤ t.len) :
    ∃ kind, t.kindAt ino = some kind := by
  rw [InodeTable.len] at hle
  have hne : ino ≠ 0 := Nat.ne_of_gt hpos
  rw [InodeTable.kindAt, InodeTable.get, if_neg hne, getElem?_eq_getElem (by omega)]
  exact ⟨_, rfl⟩

end Built

/-- **The table is the tree.**  Inodes are numbered by position; each but the root is the
target of one entry of one directory and stands for one path of the tree.  A path of the
tree leads to an inode of the node's kind, and a path that leads to an inode spells a path of
the tree. -/
theorem inodeTable_denotes (decode : Bytes → Except String Directory) (cas : MemStore) (fuel : ℕ)
    (root : Digest) (table : InodeTable) (hbuild : build decode cas fuel root = some (.ok table)) :
    (∀ k inode, table.inodes[k]? = some inode → inode.ino = k + 1) ∧
    (∀ ino, rootIno < ino → ino ≤ table.len →
      ∃! entry : ℕ × String, table.lookup entry.1 (some entry.2) = some ino) ∧
    (∀ ino, rootIno ≤ ino → ino ≤ table.len →
      ∃! names : List String, (∃ node, NodeAt decode cas (.dir root) names node) ∧
        table.resolve (names.map some) = some ino) ∧
    (∀ names node, NodeAt decode cas (.dir root) names node →
      ∃ ino, table.resolve (names.map some) = some ino ∧ table.kindAt ino = some (nodeKind node)) ∧
    ∀ path ino, table.resolve path = some ino →
      ∃ names node, spelled (components path) = some names ∧
        NodeAt decode cas (.dir root) names node ∧ table.kindAt ino = some (nodeKind node) := by
  obtain ⟨directory, hfetch, h⟩ := fills_buildDir (t := .start) rfl hbuild
  have hshows := h.shows hfetch
  have hgrown := h.grown
  rw [arena_start] at hgrown
  have hplain : ∀ {names ino}, table.arena.resolve rootIno names = some ino →
      ∀ name ∈ names, Posix.Plain name := fun hino => h.plain_of_resolve (Nat.le_refl _) hino
  have hto : ∀ names node, NodeAt decode cas (.dir root) names node →
      ∃ ino, table.resolve (names.map some) = some ino ∧
        table.arena.resolve rootIno names = some ino ∧
        table.kindAt ino = some (nodeKind node) := by
    intro names node hnode
    obtain ⟨ino, hino, hkind⟩ := (hshows names (nodeKind node)).1 ⟨node, hnode, rfl⟩
    exact ⟨ino, (resolve_map_some table (hplain hino)).trans hino, hino, hkind⟩
  have hfrom : ∀ names ino, table.arena.resolve rootIno names = some ino →
      ∃ node, NodeAt decode cas (.dir root) names node ∧
        table.kindAt ino = some (nodeKind node) := by
    intro names ino hino
    obtain ⟨hpos, hle⟩ := hgrown.mem_of_resolve hino
    obtain ⟨kind, hkind⟩ := exists_kindAt hpos hle
    obtain ⟨node, hnode, rfl⟩ := (hshows names kind).2 ⟨ino, hino, hkind⟩
    exact ⟨node, hnode, hkind⟩
  refine ⟨fun k inode => h.ino_eq, fun ino => h.existsUnique_entry, fun ino hpos hle => ?_,
    fun names node hnode => ?_, fun path ino hino => ?_⟩
  · obtain ⟨names, hnames, huniq⟩ := hgrown.existsUnique_path hpos hle
    obtain ⟨node, hnode, -⟩ := hfrom names ino hnames
    refine ⟨names, ⟨⟨node, hnode⟩, (resolve_map_some table (hplain hnames)).trans hnames⟩, ?_⟩
    rintro names' ⟨⟨node', hnode'⟩, hresolve⟩
    obtain ⟨ino', hino', hnames', -⟩ := hto names' node' hnode'
    cases hresolve.symm.trans hino'
    exact huniq names' hnames'
  · obtain ⟨ino, hino, -, hkind⟩ := hto names node hnode
    exact ⟨ino, hino, hkind⟩
  · rw [InodeTable.resolve, resolveFrom_eq] at hino
    obtain ⟨names, hnames, hino⟩ := bind_eq_some_iff.1 hino
    obtain ⟨node, hnode, hkind⟩ := hfrom names ino hino
    exact ⟨names, node, hnames, hnode, hkind⟩

theorem exists_sampleTable :
    ∃ table, build (sampleDecode "l" ["d"]) (sampleStore "l" ["d"]) 3
        (Digest.of (linkBytes "l" ["d"])) =
      some (.ok table) ∧ table.len = 4 := by
  have hrun : ((build (sampleDecode "l" ["d"]) (sampleStore "l" ["d"]) 3
      (Digest.of (linkBytes "l" ["d"]))).bind Except.toOption).map InodeTable.len = some 4 := by
    decide +kernel
  obtain ⟨table, htable, hlen⟩ := map_eq_some_iff.1 hrun
  obtain ⟨result, hresult, hok⟩ := bind_eq_some_iff.1 htable
  cases result with
  | error => cases hok
  | ok =>
    cases hok
    exact ⟨table, hresult, hlen⟩

/-- There is one path to the last inode. -/
theorem inodeTable_denotes_sample :
    ∃ table, build (sampleDecode "l" ["d"]) (sampleStore "l" ["d"]) 3
        (Digest.of (linkBytes "l" ["d"])) =
        some (.ok table) ∧
      ∃! names : List String, (∃ node, NodeAt (sampleDecode "l" ["d"]) (sampleStore "l" ["d"])
        (.dir (Digest.of (linkBytes "l" ["d"]))) names node) ∧
        table.resolve (names.map some) = some 4 := by
  obtain ⟨table, hbuild, hlen⟩ := exists_sampleTable
  exact ⟨table, hbuild, (inodeTable_denotes _ _ _ _ _ hbuild).2.2.1 4 (by decide)
    (Nat.le_of_eq hlen.symm)⟩

end Brokkr.Worker
