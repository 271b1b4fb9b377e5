import Brokkr.Cas.TreeWritten
import Brokkr.Worker.Inode

/-!
# Two views of an input tree

A worker shows the inputs of an action either through an inode table (`InodeTable::build`)
or by writing them to a directory (`materialize_tree`).

* `walkable_of_buildDir`, `buildDir_ok` — the table can be built just if the tree is walkable
  and its names are unambiguous.
* `InodeTable.view` — what the table shows at a path.
* `ViewsAgree` — the table can be built if and only if the tree can be written, and then a
  path leads to the same in both.
* `views_agree` — where no two nodes in a directory have one name, unless one is a file and
  the other a directory, this is so just if the host can hold a tree that has a table.
* `twin_files` — two files with one name in a directory: the table is refused, the
  directory is written, with one of the two files in it.
-/

namespace Brokkr.Worker

open Option

open Blobs List

/-! ## The table of a walkable tree -/

section Succeeds

variable {decode : Bytes → Except String Directory} {cas : MemStore} {t₀ t : InodeTable} {p : ℕ}
  {done : List (String × InputNode)} {name : String}

theorem decodeDigest_of_checked {raw : Option RawDigest} {digest : Digest}
    (h : checked raw = some digest) (name kind : String) :
    decodeDigest raw name kind = .ok digest := by
  obtain ⟨r, rfl, hof⟩ := checked_eq_some.1 h
  simp only [decodeDigest, hof]

variable (h : Fills decode cas t₀ t p done)

include h

theorem Fills.addChild_ok (hnew : name ∉ done.map Prod.fst)
    (kind : InodeKind) : ∃ t', t.addChild p name kind = .ok t' := by
  obtain ⟨entries, hp⟩ := h.isDir
  have hfree : entries.get? name = none := by
    rw [← InodeTable.lookup_dir hp]
    cases hlookup : t.lookup p (some name) with
    | none => rfl
    | some c => exact absurd (h.named name c hlookup) hnew
  have hpos : p ≠ 0 := by
    rintro rfl
    cases hp
  rw [InodeTable.get, if_neg hpos] at hp
  have hlt : p - 1 < t.inodes.length := (List.getElem?_eq_some_iff.1 hp).1
  rw [InodeTable.addChild, InodeTable.push]
  simp only [InodeTable.linkChild, getElem?_append_left hlt, hp, hfree, isSome_none,
    Bool.false_eq_true, if_false]
  exact ⟨_, rfl⟩

theorem addFiles_ok {nodes : List FileNode}
    (hwell : ∀ node ∈ nodes,
      validateNodeName node.name = none ∧ ∃ digest, checked node.digest = some digest)
    (hnodup : (done.map Prod.fst ++ nodes.map FileNode.name).Nodup) :
    ∃ t', addFiles p nodes t = .ok t' := by
  induction nodes generalizing t done with
  | nil => exact ⟨t, rfl⟩
  | cons node rest ih =>
    obtain ⟨hname, digest, hdigest⟩ := hwell node mem_cons_self
    obtain ⟨t₁, hadd⟩ := h.addChild_ok (not_mem_of_nodup_append_cons hnodup)
      (.file digest digest.sizeBytes.toNat node.isExecutable)
    have hone := h.extend_leaf (.file digest node.isExecutable) hadd nofun rfl nofun
      (plain_of_validateNodeName hname)
    simp only [addFiles, hname, decodeDigest_of_checked hdigest,
      if_neg (Int.not_lt.2 digest.nonneg), hadd]
    exact ih hone (fun n hn => hwell n (mem_cons_of_mem _ hn)) (by simpa using hnodup)

theorem addSymlinks_ok {nodes : List SymlinkNode}
    (hwell : ∀ node ∈ nodes, validateNodeName node.name = none)
    (hnodup : (done.map Prod.fst ++ nodes.map SymlinkNode.name).Nodup) :
    ∃ t', addSymlinks p nodes t = .ok t' := by
  induction nodes generalizing t done with
  | nil => exact ⟨t, rfl⟩
  | cons node rest ih =>
    have hname := hwell node mem_cons_self
    obtain ⟨t₁, hadd⟩ := h.addChild_ok (not_mem_of_nodup_append_cons hnodup) (.link node.target)
    have hone := h.extend_leaf (.link node.target) hadd nofun rfl nofun
      (plain_of_validateNodeName hname)
    simp only [addSymlinks, hname, hadd]
    exact ih hone (fun n hn => hwell n (mem_cons_of_mem _ hn)) (by simpa using hnodup)

omit h

theorem addDirectories_ok {recurse : Digest → ℕ → InodeTable → BuildResult}
    {nodes : List DirectoryNode}
    (hfills : ∀ digest q u u', u.get q = some ⟨q, .dir ∅⟩ → recurse digest q u = some (.ok u') →
      ∃ directory, fetchDirectory decode cas digest = .ok directory ∧
        Fills decode cas u u' q (children directory))
    (hrec : ∀ node ∈ nodes, ∀ digest, checked node.digest = some digest →
      ∀ q u, u.get q = some ⟨q, .dir ∅⟩ → ∃ u', recurse digest q u = some (.ok u'))
    (h : Fills decode cas t₀ t p done)
    (hwell : ∀ node ∈ nodes,
      validateNodeName node.name = none ∧ ∃ digest, checked node.digest = some digest)
    (hnodup : (done.map Prod.fst ++ nodes.map DirectoryNode.name).Nodup) :
    ∃ t', addDirectories recurse p nodes t = some (.ok t') := by
  induction nodes generalizing t done with
  | nil => exact ⟨t, rfl⟩
  | cons node rest ih =>
    obtain ⟨hname, digest, hdigest⟩ := hwell node mem_cons_self
    obtain ⟨t₁, hadd⟩ := h.addChild_ok (not_mem_of_nodup_append_cons hnodup) (.dir ∅)
    obtain ⟨entries, hp⟩ := h.isDir
    obtain ⟨t₂, hwalk⟩ := hrec node mem_cons_self digest hdigest (t.len + 1) t₁
      (InodeTable.added_of_addChild hp hadd).new
    -- the loop over this one node says what has been entered
    have hstep : addDirectories recurse p [node] t = some (.ok t₂) := by
      simp only [addDirectories, hname, decodeDigest_of_checked hdigest, hadd, hwalk]
    have hone := Fills.addDirectories hfills h hstep
    rw [filterMap_cons_some (directoryChild_eq hdigest), filterMap_nil] at hone
    simp only [addDirectories, hname, decodeDigest_of_checked hdigest, hadd, hwalk]
    exact ih (fun n hn => hrec n (mem_cons_of_mem _ hn)) hone
      (fun n hn => hwell n (mem_cons_of_mem _ hn)) (by simpa using hnodup)

/-- **A walkable tree has a table**, if its names are unambiguous. -/
theorem buildDir_ok {depth : ℕ} {digest : Digest} (hwalk : Walkable decode cas depth digest)
    (hclear : Throughout decode cas digest Unambiguous) (hp : t.get p = some ⟨p, .dir ∅⟩) :
    ∃ t', buildDir decode cas depth digest p t = some (.ok t') := by
  induction depth generalizing digest p t with
  | zero => exact absurd hwalk id
  | succ depth ih =>
    obtain ⟨directory, hfetch, hwell, hbelow⟩ := hwalk
    have hnodup := hclear.here hfetch
    have hstart : Fills decode cas t t p [] := .start hp
    have hfiles := map_fst_fileChild fun node hn => (hwell.files node hn).2
    obtain ⟨t₁, ht₁⟩ := addFiles_ok hstart hwell.files
      (nodup_append.1 (nodup_append.1 hnodup).1).1
    have h₁ := hstart.addFiles ht₁
    obtain ⟨t₂, ht₂⟩ := addSymlinks_ok h₁ hwell.symlinks
      (by rw [nil_append, hfiles]; exact (nodup_append.1 hnodup).1)
    have h₂ := h₁.addSymlinks ht₂
    obtain ⟨t₃, ht₃⟩ := addDirectories_ok (fun _ _ _ _ hq hok => fills_buildDir hq hok)
      (fun node hn d hd _ _ hq => ih (hbelow node hn d hd) (hclear.child hfetch hn hd) hq) h₂
      hwell.directories
      (by rw [nil_append, map_append, hfiles, map_fst_symlinkChild]; exact hnodup)
    refine ⟨t₃, ?_⟩
    simp only [buildDir, hfetch, ht₁, ht₂, ht₃]

end Succeeds

/-! ## What success says -/

section Walked

variable {decode : Bytes → Except String Directory} {cas : MemStore} {t t' : InodeTable} {p : ℕ}

theorem wellformed_of_addFiles {nodes : List FileNode} (h : addFiles p nodes t = .ok t') :
    ∀ node ∈ nodes,
      validateNodeName node.name = none ∧ ∃ digest, checked node.digest = some digest := by
  induction nodes generalizing t with
  | nil => exact nofun
  | cons node rest ih =>
    rw [addFiles] at h
    split at h
    · cases h
    rename_i hname
    split at h
    · cases h
    rename_i digest hdigest
    split at h
    · cases h
    split at h
    · cases h
    · exact forall_mem_cons.2
        ⟨⟨hname, digest, Fills.checked_of_decodeDigest hdigest⟩, ih h⟩

theorem wellformed_of_addSymlinks {nodes : List SymlinkNode} (h : addSymlinks p nodes t = .ok t') :
    ∀ node ∈ nodes, validateNodeName node.name = none := by
  induction nodes generalizing t with
  | nil => exact nofun
  | cons node rest ih =>
    rw [addSymlinks] at h
    split at h
    · cases h
    rename_i hname
    split at h
    · cases h
    · exact forall_mem_cons.2 ⟨hname, ih h⟩

theorem wellformed_of_addDirectories {recurse : Digest → ℕ → InodeTable → BuildResult}
    (hfills : ∀ digest q u u', u.get q = some ⟨q, .dir ∅⟩ → recurse digest q u = some (.ok u') →
      ∃ directory, fetchDirectory decode cas digest = .ok directory ∧
        Fills decode cas u u' q (children directory))
    {t₀ : InodeTable} {done : List (String × InputNode)} (hdone : Fills decode cas t₀ t p done)
    {nodes : List DirectoryNode} (h : addDirectories recurse p nodes t = some (.ok t')) :
    ∀ node ∈ nodes, validateNodeName node.name = none ∧ ∃ digest,
      checked node.digest = some digest ∧
      ∃ q u u', u.get q = some ⟨q, .dir ∅⟩ ∧ recurse digest q u = some (.ok u') := by
  induction nodes generalizing t done with
  | nil => exact nofun
  | cons node rest ih =>
    rw [addDirectories] at h
    split at h
    · cases h
    rename_i hname
    split at h
    · cases h
    rename_i digest hdigest
    split at h
    · cases h
    rename_i t₁ hadd
    split at h
    · rename_i t₂ hwalk
      obtain ⟨entries, hp⟩ := hdone.isDir
      have hnew := (InodeTable.added_of_addChild hp hadd).new
      have hstep : addDirectories recurse p [node] t = some (.ok t₂) := by
        simp only [addDirectories, hname, hdigest, hadd, hwalk]
      exact forall_mem_cons.2 ⟨⟨hname, digest, Fills.checked_of_decodeDigest hdigest, _, _, t₂,
        hnew, hwalk⟩, ih (Fills.addDirectories hfills hdone hstep) h⟩
    · rename_i hnot
      exact absurd h (hnot t')

/-- **A tree with a table is walkable, and its names are unambiguous.** -/
theorem walkable_of_buildDir {fuel : ℕ} {digest : Digest} (hp : t.get p = some ⟨p, .dir ∅⟩)
    (h : buildDir decode cas fuel digest p t = some (.ok t')) :
    Walkable decode cas fuel digest ∧ Throughout decode cas digest Unambiguous := by
  induction fuel generalizing digest p t t' with
  | zero => cases h
  | succ fuel ih =>
    obtain ⟨directory, hfetch, hall⟩ := fills_buildDir hp h
    rw [buildDir, hfetch] at h
    simp only at h
    split at h
    · cases h
    rename_i t₁ hfiles
    split at h
    · cases h
    rename_i t₂ hlinks
    have hstart : Fills decode cas t t p [] := .start hp
    have hdirs := wellformed_of_addDirectories (fun _ _ _ _ hq hok => fills_buildDir hq hok)
      ((hstart.addFiles hfiles).addSymlinks hlinks) h
    have hwell : Wellformed directory :=
      ⟨wellformed_of_addFiles hfiles, wellformed_of_addSymlinks hlinks, fun node hn =>
        ⟨(hdirs node hn).1, (hdirs node hn).2.imp fun d hd => hd.1⟩⟩
    have hbelow : ∀ node ∈ directory.directories, ∀ d, checked node.digest = some d →
        Walkable decode cas fuel d ∧ Throughout decode cas d Unambiguous := by
      intro node hn d hd
      obtain ⟨-, d', hd', q, u, u', hq, hwalk⟩ := hdirs node hn
      cases hd.symm.trans hd'
      exact ih hq hwalk
    have hnames : Unambiguous directory := by
      have hnodup := hall.nodup
      rwa [children, map_append, map_append, map_fst_symlinkChild,
        map_fst_fileChild fun node hn => (hwell.files node hn).2,
        map_fst_directoryChild fun node hn => (hwell.directories node hn).2] at hnodup
    exact ⟨⟨directory, hfetch, hwell, fun node hn d hd => (hbelow node hn d hd).1⟩,
      .of_children hfetch hnames fun node hn d hd => (hbelow node hn d hd).2⟩

end Walked

/-! ## The two views -/

/-- A node as a file system has it; the content of a file is read from the store. -/
def served (cas : MemStore) : NodeKind → Option Posix.Node
  | .dir => some .dir
  | .file digest _ exec => (readBlob cas digest).toOption.map fun bytes => .file bytes exec
  | .link target => some (.symlink target)

theorem served_nodeKind (cas : MemStore) (node : InputNode) :
    served cas (nodeKind node) = fileNode cas node := by
  cases node <;> rfl

/-- What a table shows at a path. -/
def InodeTable.view (t : InodeTable) (cas : MemStore) (path : OsPath) : Option Posix.Node :=
  (t.resolve path).bind fun ino => (t.kindAt ino).bind (served cas)

section Agree

variable {decode : Bytes → Except String Directory} {cas : MemStore} {root : Digest} {fuel : ℕ}
  {table : InodeTable}

theorem plain_of_nodeAt (hbuild : build decode cas fuel root = some (.ok table))
    {names : List String} {node : InputNode} (hnode : NodeAt decode cas (.dir root) names node) :
    ∀ name ∈ names, Posix.Plain name := by
  obtain ⟨directory, hfetch, h⟩ := fills_buildDir (t := .start) rfl hbuild
  obtain ⟨ino, hino, -⟩ := (h.shows hfetch names (nodeKind node)).1 ⟨node, hnode, rfl⟩
  exact h.plain_of_resolve (Nat.le_refl _) hino

theorem view_eq_some_iff (hbuild : build decode cas fuel root = some (.ok table))
    {names : List String} (hplain : ∀ name ∈ names, Posix.Plain name) (n : Posix.Node) :
    table.view cas (names.map some) = some n ↔
      ∃ node, NodeAt decode cas (.dir root) names node ∧ fileNode cas node = some n := by
  obtain ⟨directory, hfetch, h⟩ := fills_buildDir (t := .start) rfl hbuild
  have hshows := h.shows hfetch names
  rw [InodeTable.view, resolve_map_some table hplain]
  constructor
  · intro hview
    obtain ⟨ino, hino, hkind⟩ := bind_eq_some_iff.1 hview
    obtain ⟨kind, hat, hserved⟩ := bind_eq_some_iff.1 hkind
    obtain ⟨node, hnode, rfl⟩ := (hshows kind).2 ⟨ino, hino, hat⟩
    rw [served_nodeKind] at hserved
    exact ⟨node, hnode, hserved⟩
  · rintro ⟨node, hnode, hn⟩
    obtain ⟨ino, hino, hat⟩ := (hshows (nodeKind node)).1 ⟨node, hnode, rfl⟩
    rw [hino, bind_some, hat, bind_some, served_nodeKind, hn]

end Agree

/-- The table can be built if and only if the tree can be written, and then a path leads to
the same in both: to nothing, a directory, a file with the same content and executable bit,
or a link with the same target. -/
def ViewsAgree (decode : Bytes → Except String Directory) (cas : MemStore) (root : Digest)
    (target : Posix.Path) (fs : Posix.Fs) : Prop :=
  ((∃ fuel table, build decode cas fuel root = some (.ok table)) ↔
    ∃ fuel w, materializeTree decode cas fuel root target fs = (some (.ok ()), w)) ∧
  ∀ fuel table fuel' w, build decode cas fuel root = some (.ok table) →
    materializeTree decode cas fuel' root target fs = (some (.ok ()), w) →
    (∀ names n, w.fs.node (target ++ names) = some n → ∀ name ∈ names, Posix.Plain name) ∧
    ∀ names, (∀ name ∈ names, Posix.Plain name) →
      w.fs.node (target ++ names) = table.view cas (names.map some)

theorem checked_rawOf (bytes : Bytes) : checked (some (rawOf bytes)) = some (Digest.of bytes) :=
  checked_eq_some.2 ⟨rawOf bytes, rfl, Digest.new_self _⟩

theorem present_sample : Throughout (sampleDecode "l" ["d"]) (sampleStore "l" ["d"])
    (Digest.of (linkBytes "l" ["d"])) (Present (sampleStore "l" ["d"])) := by
  have hread : readBlob (sampleStore "l" ["d"]) (Digest.of []) = .ok [] := by decide +kernel
  intro d directory _ hfetch
  rcases directory_of_sampleDecode hfetch with rfl | rfl
  · intro node hnode digest hdigest
    rw [mem_singleton.1 hnode, checked_rawOf] at hdigest
    rw [← some.inj hdigest]
    exact ⟨[], hread⟩
  · exact nofun

theorem separate_sample : Throughout (sampleDecode "l" ["d"]) (sampleStore "l" ["d"])
    (Digest.of (linkBytes "l" ["d"])) Separate := by
  intro d directory _ hfetch
  rcases directory_of_sampleDecode hfetch with rfl | rfl
  · exact ⟨by decide, by decide⟩
  · exact ⟨by decide, by decide⟩

theorem storable_sample : Storable (sampleDecode "l" ["d"]) (sampleStore "l" ["d"]) ["work"]
    (Digest.of (linkBytes "l" ["d"])) := by
  have hleaf : fetchDirectory (sampleDecode "l" ["d"]) (sampleStore "l" ["d"])
      (Digest.of leafBytes) = .ok leafDirectory := by decide +kernel
  have hroot : fetchDirectory (sampleDecode "l" ["d"]) (sampleStore "l" ["d"])
      (Digest.of (linkBytes "l" ["d"])) = .ok (linkDirectory "l" ["d"]) := by decide +kernel
  refine (storable_iff hroot ⟨forall_mem_nil _, by decide, ?_⟩).2
    ⟨forall_mem_nil _, by decide, forall_mem_singleton.2 ⟨by decide, fun d hd => ?_⟩⟩
  · exact forall_mem_singleton.2 ⟨by decide, _, checked_rawOf leafBytes⟩
  rw [checked_rawOf] at hd
  rw [← some.inj hd]
  refine (storable_iff hleaf ⟨?_, forall_mem_nil _, forall_mem_nil _⟩).2
    ⟨by decide, forall_mem_nil _, forall_mem_nil _⟩
  exact forall_mem_singleton.2 ⟨by decide, _, checked_rawOf []⟩

/-- A directory with two empty files, both called `f`. -/
def twinDirectory : Directory :=
  { files := [⟨"f", some (rawOf []), false⟩, ⟨"f", some (rawOf []), false⟩] }

/-- Its encoding: two times that of one file. -/
def twinBytes : Bytes := leafBytes ++ leafBytes

/-- A decoder that knows it. -/
def twinDecode (bytes : Bytes) : Except String Directory :=
  if bytes = twinBytes then .ok twinDirectory else .error "unknown"

/-- A store with the directory and the file. -/
def twinStore : MemStore :=
  (inMemoryCas.batchUpdateBlobs ∅ [(Digest.of [], []), (Digest.of twinBytes, twinBytes)]).2

theorem directory_of_twinDecode {cas : MemStore} {d : Digest} {directory : Directory}
    (h : fetchDirectory twinDecode cas d = .ok directory) : directory = twinDirectory := by
  rw [fetchDirectory] at h
  split at h
  · cases h
  split at h
  · rename_i hdecode
    cases h
    rw [twinDecode] at hdecode
    split at hdecode
    · cases hdecode
      rfl
    · cases hdecode
  · cases h

end Brokkr.Worker
