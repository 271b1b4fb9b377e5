import Brokkr.Cas.Tree

/-!
# Input trees

What an input tree is, whoever reads it: nodes under paths, from a root directory on, with
directories fetched from the store.  A directory that is used in two places stands in the
tree twice.

* `InputNode`, `children` — the nodes of a directory whose digests are well formed.
* `NodeAt` — the node at the end of a path.
* `Walkable` — a walk over the whole tree finds every directory and nothing malformed.
* `Throughout` — what holds of every directory of the tree.
* `Unambiguous`, `Separate` — a directory without two nodes of one name, or without any
  but perhaps a file and a directory.
* `Storable` — a tree that a host can hold below a path.
-/

namespace Brokkr.Blobs

open List

/-- A node of an input tree, as it is shown. -/
inductive InputNode where
  | file (digest : Digest) (executable : Bool)
  | link (target : String)
  | dir (digest : Digest)
  deriving DecidableEq

theorem checked_eq_some {raw : Option RawDigest} {digest : Digest} :
    checked raw = some digest ↔ ∃ r, raw = some r ∧ Digest.ofRaw r = .ok digest := by
  rw [checked, Option.bind_eq_some_iff]
  refine exists_congr fun r => and_congr_right fun _ => ?_
  cases Digest.ofRaw r with
  | error => simp [Except.toOption]
  | ok => simp [Except.toOption]

/-- A file, if its digest is well formed. -/
def fileChild (node : FileNode) : Option (String × InputNode) :=
  (checked node.digest).map fun digest => (node.name, .file digest node.isExecutable)

/-- A link. -/
def symlinkChild (node : SymlinkNode) : String × InputNode := (node.name, .link node.target)

/-- A directory, if its digest is well formed. -/
def directoryChild (node : DirectoryNode) : Option (String × InputNode) :=
  (checked node.digest).map fun digest => (node.name, .dir digest)

/-- The nodes in a directory: files, links, directories. -/
def children (directory : Directory) : List (String × InputNode) :=
  directory.files.filterMap fileChild ++ directory.symlinks.map symlinkChild ++
    directory.directories.filterMap directoryChild

variable (decode : Bytes → Except String Directory) (cas : MemStore)

/-- From a node a path leads to another, through directories of the store. -/
inductive NodeAt : InputNode → List String → InputNode → Prop
  | here (node : InputNode) : NodeAt node [] node
  | inside {digest : Digest} {directory : Directory} {name : String} {child node : InputNode}
      {path : List String} :
      fetchDirectory decode cas digest = .ok directory → (name, child) ∈ children directory →
        NodeAt child path node → NodeAt (.dir digest) (name :: path) node

variable {decode cas}

theorem nodeAt_nil {root node : InputNode} : NodeAt decode cas root [] node ↔ node = root := by
  constructor
  · rintro ⟨⟩
    rfl
  · rintro rfl
    exact .here _

theorem nodeAt_cons {root node : InputNode} {name : String} {path : List String} :
    NodeAt decode cas root (name :: path) node ↔ ∃ digest directory child, root = .dir digest ∧
        fetchDirectory decode cas digest = .ok directory ∧ (name, child) ∈ children directory ∧
        NodeAt decode cas child path node := by
  constructor
  · intro h
    cases h with
    | inside hfetch hchild hnode => exact ⟨_, _, _, rfl, hfetch, hchild, hnode⟩
  · rintro ⟨digest, directory, child, rfl, hfetch, hchild, hnode⟩
    exact .inside hfetch hchild hnode

/-! ## Trees that can be walked -/

/-- The names in a directory are single components, and its digests are well formed. -/
structure Wellformed (directory : Directory) : Prop where
  files : ∀ node ∈ directory.files,
    validateNodeName node.name = none ∧ ∃ digest, checked node.digest = some digest
  symlinks : ∀ node ∈ directory.symlinks, validateNodeName node.name = none
  directories : ∀ node ∈ directory.directories,
    validateNodeName node.name = none ∧ ∃ digest, checked node.digest = some digest

/-- All directories are there and well formed, down to a depth below which there are
none. -/
def Walkable (decode : Bytes → Except String Directory) (cas : MemStore) : ℕ → Digest → Prop
  | 0, _ => False
  | depth + 1, digest =>
    ∃ directory, fetchDirectory decode cas digest = .ok directory ∧ Wellformed directory ∧
      ∀ node ∈ directory.directories, ∀ d, checked node.digest = some d →
        Walkable decode cas depth d

/-- The directories that a walk from `d` may come to. -/
inductive Reaches (decode : Bytes → Except String Directory) (cas : MemStore) :
    Digest → Digest → Prop
  | refl (d : Digest) : Reaches decode cas d d
  | step {d d' e : Digest} {directory : Directory} {node : DirectoryNode} :
      fetchDirectory decode cas d = .ok directory → node ∈ directory.directories →
        checked node.digest = some d' → Reaches decode cas d' e → Reaches decode cas d e

/-- Every directory of a tree is such. -/
def Throughout (decode : Bytes → Except String Directory) (cas : MemStore) (root : Digest)
    (P : Directory → Prop) : Prop :=
  ∀ d directory, Reaches decode cas root d → fetchDirectory decode cas d = .ok directory →
    P directory

namespace Throughout

variable {root d : Digest} {directory : Directory} {node : DirectoryNode} {P : Directory → Prop}

theorem here (h : Throughout decode cas root P)
    (hfetch : fetchDirectory decode cas root = .ok directory) : P directory :=
  h root directory (.refl root) hfetch

theorem child (h : Throughout decode cas root P)
    (hfetch : fetchDirectory decode cas root = .ok directory)
    (hmem : node ∈ directory.directories) (hd : checked node.digest = some d) :
    Throughout decode cas d P :=
  fun e directory' hreach => h e directory' (.step hfetch hmem hd hreach)

theorem of_children (hfetch : fetchDirectory decode cas root = .ok directory) (hP : P directory)
    (hbelow : ∀ node ∈ directory.directories, ∀ d, checked node.digest = some d →
      Throughout decode cas d P) : Throughout decode cas root P := by
  intro e directory' hreach hfetch'
  cases hreach with
  | refl =>
    cases hfetch.symm.trans hfetch'
    exact hP
  | step hfetch₁ hmem hd hreach =>
    cases hfetch.symm.trans hfetch₁
    exact hbelow _ hmem _ hd e directory' hreach hfetch'

end Throughout

/-- In a directory no two nodes have one name. -/
def Unambiguous (directory : Directory) : Prop :=
  (directory.files.map FileNode.name ++ directory.symlinks.map SymlinkNode.name ++
    directory.directories.map DirectoryNode.name).Nodup

/-- In a directory no two nodes have one name, unless one is a file and the other a
directory. -/
structure Separate (directory : Directory) : Prop where
  files : (directory.files.map FileNode.name ++ directory.symlinks.map SymlinkNode.name).Nodup
  directories :
    (directory.symlinks.map SymlinkNode.name ++ directory.directories.map DirectoryNode.name).Nodup

theorem Separate.unambiguous_iff {directory : Directory} (h : Separate directory) :
    Unambiguous directory ↔ ∀ node ∈ directory.directories,
      node.name ∉ directory.files.map FileNode.name := by
  obtain ⟨-, hdirs, hapart⟩ := nodup_append'.1 h.directories
  rw [Unambiguous, nodup_append', disjoint_append_left]
  constructor
  · rintro ⟨-, -, hdisjoint, -⟩ node hnode hfile
    exact hdisjoint hfile (mem_map_of_mem hnode)
  · intro hnot
    refine ⟨h.files, hdirs, fun name hfile hdir => ?_, hapart⟩
    obtain ⟨node, hnode, rfl⟩ := mem_map.1 hdir
    exact hnot node hnode hfile

/-- The contents of the files of a directory are in the store. -/
def Present (cas : MemStore) (directory : Directory) : Prop :=
  ∀ node ∈ directory.files, ∀ digest, checked node.digest = some digest →
    ∃ bytes, readBlob cas digest = .ok bytes

/-! ## Trees that a host can hold -/

/-- A host can hold a node at a path. -/
def InputNode.StorableAt : InputNode → Posix.Path → Prop
  | .link text, path => Posix.Short path ∧ Posix.LinkText text
  | _, path => Posix.Short path

/-- A host can hold all that is below a directory, at a path. -/
def Storable (decode : Bytes → Except String Directory) (cas : MemStore) (dir : Posix.Path)
    (digest : Digest) : Prop :=
  ∀ name rest node, NodeAt decode cas (.dir digest) (name :: rest) node →
    node.StorableAt (dir ++ name :: rest)

/-! ## Names of children -/

theorem fileChild_eq {node : FileNode} {digest : Digest} (h : checked node.digest = some digest) :
    fileChild node = some (node.name, .file digest node.isExecutable) := by
  rw [fileChild, h]
  rfl

theorem directoryChild_eq {node : DirectoryNode} {digest : Digest}
    (h : checked node.digest = some digest) :
    directoryChild node = some (node.name, .dir digest) := by
  rw [directoryChild, h]
  rfl

theorem map_fst_symlinkChild (nodes : List SymlinkNode) :
    (nodes.map symlinkChild).map Prod.fst = nodes.map SymlinkNode.name := by
  rw [map_map]
  rfl

theorem map_fst_fileChild {nodes : List FileNode}
    (h : ∀ node ∈ nodes, ∃ digest, checked node.digest = some digest) :
    (nodes.filterMap fileChild).map Prod.fst = nodes.map FileNode.name := by
  induction nodes with
  | nil => rfl
  | cons node rest ih =>
    obtain ⟨digest, hdigest⟩ := h node mem_cons_self
    rw [filterMap_cons_some (fileChild_eq hdigest), map_cons, map_cons,
      ih fun n hn => h n (mem_cons_of_mem _ hn)]

theorem map_fst_directoryChild {nodes : List DirectoryNode}
    (h : ∀ node ∈ nodes, ∃ digest, checked node.digest = some digest) :
    (nodes.filterMap directoryChild).map Prod.fst = nodes.map DirectoryNode.name := by
  induction nodes with
  | nil => rfl
  | cons node rest ih =>
    obtain ⟨digest, hdigest⟩ := h node mem_cons_self
    rw [filterMap_cons_some (directoryChild_eq hdigest), map_cons, map_cons,
      ih fun n hn => h n (mem_cons_of_mem _ hn)]

/-- **What a host has to hold of a directory**: its files, its links with their texts, and
the directories in it with all that is below. -/
theorem storable_iff {dir : Posix.Path} {digest : Digest} {directory : Directory}
    (hfetch : fetchDirectory decode cas digest = .ok directory) (hwell : Wellformed directory) :
    Storable decode cas dir digest ↔
      (∀ node ∈ directory.files, Posix.Short (dir ++ [node.name])) ∧
      (∀ node ∈ directory.symlinks,
        Posix.Short (dir ++ [node.name]) ∧ Posix.LinkText node.target) ∧
      ∀ node ∈ directory.directories, Posix.Short (dir ++ [node.name]) ∧
        ∀ d, checked node.digest = some d → Storable decode cas (dir ++ [node.name]) d := by
  have hchild : ∀ {name node}, (name, node) ∈ children directory →
      NodeAt decode cas (.dir digest) [name] node := fun hmem => .inside hfetch hmem (.here _)
  constructor
  · intro h
    refine ⟨fun node hn => ?_, fun node hn => ?_, fun node hn => ?_⟩
    · obtain ⟨d, hd⟩ := (hwell.files node hn).2
      exact h _ [] (.file d node.isExecutable) (hchild (mem_append_left _ (mem_append_left _
        (mem_filterMap.2 ⟨node, hn, fileChild_eq hd⟩))))
    · exact h _ [] (.link node.target)
        (hchild (mem_append_left _ (mem_append_right _ (mem_map.2 ⟨node, hn, rfl⟩))))
    · obtain ⟨d, hd⟩ := (hwell.directories node hn).2
      have hmem : (node.name, .dir d) ∈ children directory :=
        mem_append_right _ (mem_filterMap.2 ⟨node, hn, directoryChild_eq hd⟩)
      refine ⟨h _ [] (.dir d) (hchild hmem), fun d' hd' name rest node' hnode' => ?_⟩
      cases hd.symm.trans hd'
      rw [append_assoc]
      exact h _ _ node' (.inside hfetch hmem hnode')
  · rintro ⟨hfiles, hlinks, hdirs⟩ name rest node hnode
    obtain ⟨_, directory', child, ⟨⟩, hfetch', hmem, hbelow⟩ := nodeAt_cons.1 hnode
    cases hfetch.symm.trans hfetch'
    have hone : child.StorableAt (dir ++ [name]) ∧
        ∀ d, child = .dir d → Storable decode cas (dir ++ [name]) d := by
      rcases mem_append.1 hmem with hleaf | hdir
      · rcases mem_append.1 hleaf with hfile | hlink
        · obtain ⟨n, hn, heq⟩ := mem_filterMap.1 hfile
          obtain ⟨d, hd⟩ := (hwell.files n hn).2
          cases (fileChild_eq hd).symm.trans heq
          exact ⟨hfiles n hn, fun d hd => by cases hd⟩
        · obtain ⟨n, hn, heq⟩ := mem_map.1 hlink
          cases heq
          exact ⟨hlinks n hn, fun d hd => by cases hd⟩
      · obtain ⟨n, hn, heq⟩ := mem_filterMap.1 hdir
        obtain ⟨d, hd⟩ := (hwell.directories n hn).2
        cases (directoryChild_eq hd).symm.trans heq
        refine ⟨(hdirs n hn).1, fun d' hd' => ?_⟩
        cases hd'
        exact (hdirs n hn).2 d hd
    cases rest with
    | nil =>
      rw [nodeAt_nil.1 hbelow]
      exact hone.1
    | cons c rest =>
      obtain ⟨d, -, -, hdir, -⟩ := nodeAt_cons.1 hbelow
      have hstore := hone.2 d hdir c rest node (hdir ▸ hbelow)
      rwa [append_assoc] at hstore

end Brokkr.Blobs
