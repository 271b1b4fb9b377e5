import Brokkr.Lib.Posix
import Brokkr.Reapi
import Brokkr.Cas.Store

/-!
# Writing an input tree to a directory

`materialize_tree` of `brokkr-cas` (`tree.rs`): the directories of an input tree are
fetched from the store one by one, and files, links and directories are created under a
target directory.

* `materializeDirectory` — the walk, as deep as it is given fuel for; where it runs out,
  the real walk would still be running.
* `visits` — the nodes of a tree in the order in which the walk comes to them.
* `Unfollowed` — no file and no directory comes after a link with its path, so that it
  would be written through the link.
* `materializeDirectory_keeps` — then the walk changes nothing but strictly below the
  directory that it is given, whatever names are there more than once.
* `linkDirectory` — a directory with a link and directories, whose names may be the same.

Names are checked before they are joined to a path, so a joined path is the path of the
directory with one more component.
-/

namespace Brokkr.Blobs

open Posix List

variable {fs : Fs} {cas : MemStore}

/-! ## The walk -/

/-- Counters of a walk. -/
structure MaterializationStats where
  files : ℕ := 0
  dirs : ℕ := 0
  symlinks : ℕ := 0
  bytes : ℕ := 0
  deriving DecidableEq

/-- The file system and the counters. -/
structure World where
  fs : Fs
  stats : MaterializationStats := {}

/-- What went wrong, if anything, and the state of the world. -/
abbrev Step := Except CasError Unit × World

/-- Why a name is refused: it must be a single component that stands for itself. -/
def validateNodeName (name : String) : Option String :=
  if name = "" then some "empty"
  else if name = "." ∨ name = ".." then some "dot or dotdot"
  else if name.toList.contains '/' then some "contains '/'"
  else if name.toList.contains '\x00' then some "contains NUL"
  else none

/-- `{:?}` of a digest. -/
def debugDigest (d : Digest) : String :=
  "Digest(" ++ d.hash ++ "/" ++ ToString.toString d.sizeBytes ++ ")"

/-- Read one blob. -/
def readBlob (cas : MemStore) (digest : Digest) : Except CasError Bytes :=
  match (inMemoryCas.batchReadBlobs cas [digest]).1 with
  | .error e => .error e
  | .ok results =>
    match results.getLast? with
    | some result => result
    | none => .error (.notFound digest)

variable (decode : Bytes → Except String Directory)

/-- Fetch a directory and decode it. -/
def fetchDirectory (cas : MemStore) (digest : Digest) :
    Except CasError Directory :=
  match readBlob cas digest with
  | .error e => .error e
  | .ok bytes =>
    match decode bytes with
    | .ok directory => .ok directory
    | .error e => .error (.other ("Directory decode for " ++ debugDigest digest ++ ": " ++ e))

/-- The result of a call of the file system. -/
def ofIo (w : World) : Except Errno Unit × Fs → Step
  | (.ok (), fs) => (.ok (), { w with fs := fs })
  | (.error e, fs) => (.error (.io e.toString), { w with fs := fs })

/-- Continue unless something went wrong. -/
def Step.andThen (r : Step) (f : World → Step) : Step :=
  match r with
  | (.error e, w) => (.error e, w)
  | (.ok (), w) => f w

/-- Write a file. -/
def writeFile (cas : MemStore) (digest : Digest) (path : Path) (isExecutable : Bool) (w : World) :
    Step :=
  match readBlob cas digest with
  | .error e => (.error e, w)
  | .ok bytes =>
    (ofIo w (w.fs.write path bytes)).andThen fun w =>
      if isExecutable then ofIo w (w.fs.setExecutable path) else (.ok (), w)

/-- The largest `u64`. -/
def u64Max : ℕ := 2 ^ 64 - 1

/-- The files of a directory. -/
def writeFiles (cas : MemStore) (dir : Path) : List FileNode → World → Step
  | [], w => (.ok (), w)
  | node :: rest, w =>
    match validateNodeName node.name with
    | some reason =>
      (.error (.other ("FileNode " ++ node.name.quote ++ ": invalid name (" ++ reason ++ ")")), w)
    | none =>
      match node.digest with
      | none => (.error (.other ("FileNode " ++ node.name.quote ++ " missing digest")), w)
      | some raw =>
        match Digest.ofRaw raw with
        | .error e =>
          (.error (.other ("invalid file digest " ++ node.name ++ ": " ++ e.toString)), w)
        | .ok digest =>
          (writeFile cas digest (dir ++ [node.name]) node.isExecutable w).andThen fun w =>
            writeFiles cas dir rest { w with stats := { w.stats with
              files := w.stats.files + 1
              bytes := min (w.stats.bytes + digest.sizeBytes.toNat) u64Max } }

/-- Replace whatever is under the path by a link. -/
def makeSymlink (path : Path) (target : String) (w : World) : Step :=
  (if w.fs.pathExists path || w.fs.isSymlink path then ofIo w (w.fs.removeFile path)
    else (.ok (), w)).andThen fun w => ofIo w (w.fs.symlink target path)

/-- The links of a directory. -/
def makeSymlinks (dir : Path) : List SymlinkNode → World → Step
  | [], w => (.ok (), w)
  | node :: rest, w =>
    match validateNodeName node.name with
    | some reason =>
      (.error (.other
        ("SymlinkNode " ++ node.name.quote ++ ": invalid name (" ++ reason ++ ")")), w)
    | none =>
      (makeSymlink (dir ++ [node.name]) node.target w).andThen fun w =>
        makeSymlinks dir rest { w with
          stats := { w.stats with symlinks := w.stats.symlinks + 1 } }

/-- What a walk returns, if it has returned, and the state of the world. -/
abbrev Walk := Option (Except CasError Unit) × World

/-- The directories in a directory; `recurse` walks each of them. -/
def makeDirectories (recurse : Digest → Path → World → Walk) (dir : Path) :
    List DirectoryNode → World → Walk
  | [], w => (some (.ok ()), w)
  | node :: rest, w =>
    match validateNodeName node.name with
    | some reason =>
      (some (.error (.other
        ("DirectoryNode " ++ node.name.quote ++ ": invalid name (" ++ reason ++ ")"))), w)
    | none =>
      match ofIo w (w.fs.createDirAll (dir ++ [node.name])) with
      | (.error e, w) => (some (.error e), w)
      | (.ok (), w) =>
        let w : World := { w with stats := { w.stats with dirs := w.stats.dirs + 1 } }
        match node.digest with
        | none =>
          (some (.error (.other ("DirectoryNode " ++ node.name.quote ++ " missing digest"))), w)
        | some raw =>
          match Digest.ofRaw raw with
          | .error e =>
            (some (.error (.other
              ("invalid directory digest " ++ node.name ++ ": " ++ e.toString))), w)
          | .ok digest =>
            match recurse digest (dir ++ [node.name]) w with
            | (some (.ok ()), w) => makeDirectories recurse dir rest w
            | (ended, w) => (ended, w)

/-- Walk a directory: its files, its links, and then the directories in it. -/
def materializeDirectory (decode : Bytes → Except String Directory) (cas : MemStore) :
    ℕ → Digest → Path → World → Walk
  | 0, _, _, w => (none, w)
  | fuel + 1, digest, dir, w =>
    match fetchDirectory decode cas digest with
    | .error e => (some (.error e), w)
    | .ok directory =>
      match (writeFiles cas dir directory.files w).andThen
          (makeSymlinks dir directory.symlinks) with
      | (.error e, w) => (some (.error e), w)
      | (.ok (), w) =>
        makeDirectories (materializeDirectory decode cas fuel) dir directory.directories w

/-- Write the tree of `root` to `target`. -/
def materializeTree (cas : MemStore) (fuel : ℕ)
    (root : Digest) (target : Path) (fs : Fs) : Walk :=
  materializeDirectory decode cas fuel root target { fs := fs }

/-! ## The order of the walk -/

/-- A digest that is there and well formed. -/
def checked (raw : Option RawDigest) : Option Digest :=
  raw.bind fun raw => (Digest.ofRaw raw).toOption

/-- A node that the walk comes to, with the path that it is written to. -/
inductive Visit where
  | file (path : Path)
  | link (path : Path)
  | directory (path : Path)
  deriving DecidableEq

/-- The files of a directory. -/
def fileVisits (dir : Path) (nodes : List FileNode) : List Visit :=
  nodes.map fun node => .file (dir ++ [node.name])

/-- The links of a directory. -/
def linkVisits (dir : Path) (nodes : List SymlinkNode) : List Visit :=
  nodes.map fun node => .link (dir ++ [node.name])

/-- A directory, and after it what `recurse` finds in it. -/
def directoryVisits (recurse : Digest → Path → List Visit) (dir : Path) (node : DirectoryNode) :
    List Visit :=
  .directory (dir ++ [node.name]) ::
    match checked node.digest with
    | none => []
    | some digest => recurse digest (dir ++ [node.name])

/-- The nodes of a tree in the order of the walk: the files of a directory, its links, and
each directory in it with all that is below.  Two directories with one name are written
to one path, one after the other. -/
def visits (decode : Bytes → Except String Directory) (cas : MemStore) :
    ℕ → Digest → Path → List Visit
  | 0, _, _ => []
  | fuel + 1, digest, dir =>
    match fetchDirectory decode cas digest with
    | .error _ => []
    | .ok directory =>
      fileVisits dir directory.files ++ linkVisits dir directory.symlinks ++
        directory.directories.flatMap (directoryVisits (visits decode cas fuel) dir)

/-- Is a node written through a link?  A link itself replaces what it finds. -/
def Visit.through : Visit → Visit → Bool
  | .link p, .file q => decide (p = q)
  | .link p, .directory q => decide (p = q)
  | _, _ => false

/-- No node is written through a link that comes before it. -/
def Unfollowed (vs : List Visit) : Prop := vs.Pairwise fun a b => a.through b = false

instance (vs : List Visit) : Decidable (Unfollowed vs) :=
  inferInstanceAs (Decidable (vs.Pairwise _))

section

variable {seen vs : List Visit} {path : Path}

theorem Unfollowed.of_append (h : Unfollowed (seen ++ vs)) : Unfollowed seen :=
  (pairwise_append.1 h).1

theorem Unfollowed.file (h : Unfollowed (seen ++ vs)) (hmem : .file path ∈ vs) :
    .link path ∉ seen := by
  intro hlink
  have hapart := (pairwise_append.1 h).2.2 _ hlink _ hmem
  exact of_decide_eq_false hapart rfl

theorem Unfollowed.directory (h : Unfollowed (seen ++ vs)) (hmem : .directory path ∈ vs) :
    .link path ∉ seen := by
  intro hlink
  have hapart := (pairwise_append.1 h).2.2 _ hlink _ hmem
  exact of_decide_eq_false hapart rfl

end

/-! ## Below a directory -/

variable {fs' : Fs} {target dir : Path} {seen : List Visit} {w : World} {c : String}

theorem plain_of_validateNodeName {name : String} (h : validateNodeName name = none) :
    Posix.Plain name := by
  rw [validateNodeName] at h
  split at h
  · cases h
  rename_i hempty
  split at h
  · cases h
  · rename_i hdots
    exact ⟨hempty, fun h1 => hdots (Or.inl h1), fun h2 => hdots (Or.inr h2)⟩

/-- There is nothing below a path. -/
def Fresh (fs : Fs) (path : Path) : Prop := ∀ d rest, fs.node (path ++ d :: rest) = none

/-- The state of the walk in a directory below the target: every link that is there is one
that the walk has come to. -/
structure Linked (target dir : Path) (seen : List Visit) (fs : Fs) : Prop where
  rooted : Rooted fs dir
  below : target <+: dir
  links : ∀ q text, target <+: q → fs.node q = some (.symlink text) → .link q ∈ seen

theorem Linked.start (hroot : Rooted fs target) (hfresh : Fresh fs target) :
    Linked target target [] fs := by
  refine ⟨hroot, List.prefix_refl target, fun q text hq hlink => ?_⟩
  obtain ⟨rest, rfl⟩ := hq
  cases rest with
  | nil =>
    rw [append_nil, hroot.dirs target (List.prefix_refl target)] at hlink
    cases hlink
  | cons d rest =>
    rw [hfresh d rest] at hlink
    cases hlink

theorem Linked.mono {more : List Visit} (h : Linked target dir seen fs) (hsub : seen ⊆ more) :
    Linked target dir more fs :=
  ⟨h.rooted, h.below, fun q text hq hlink => hsub (h.links q text hq hlink)⟩

theorem Linked.noLink (h : Linked target dir seen fs) (hnot : .link (dir ++ [c]) ∉ seen) :
    NoLink (fs.node (dir ++ [c])) :=
  fun text hlink => hnot (h.links _ text (h.below.trans (List.prefix_append dir [c])) hlink)

theorem Linked.set (h : Linked target dir seen fs) {n : Option Node}
    (hn : NoLink n ∨ .link (dir ++ [c]) ∈ seen) :
    Linked target dir seen (fs.set (dir ++ [c]) n) := by
  refine ⟨(Within.set_child fs dir c n).rooted h.rooted, h.below, fun q text hq hlink => ?_⟩
  by_cases heq : q = dir ++ [c]
  · subst heq
    exact hn.resolve_left fun hno => hno text ((if_pos rfl).symm.trans hlink)
  · exact h.links q text hq ((if_neg heq).symm.trans hlink)

/-- From one state of the walk to another, nothing has changed but below the directory. -/
structure Stays (target dir : Path) (seen : List Visit) (fs fs' : Fs) : Prop where
  within : Within dir fs fs'
  linked : Linked target dir seen fs'

theorem Stays.refl (h : Linked target dir seen fs) : Stays target dir seen fs fs :=
  ⟨.refl dir fs, h⟩

theorem Stays.andThen {r : Step} {f : World → Step} (h : Stays target dir seen fs r.2.fs)
    (hf : ∀ w', Linked target dir seen w'.fs → Stays target dir seen w'.fs (f w').2.fs) :
    Stays target dir seen fs (r.andThen f).2.fs := by
  obtain ⟨res, w'⟩ := r
  cases res with
  | error => exact h
  | ok =>
    have hnext := hf w' h.linked
    exact ⟨h.within.trans hnext.within, hnext.linked⟩

theorem Stays.counted {stats : MaterializationStats}
    (h : Stays target dir seen (World.mk fs stats).fs fs') : Stays target dir seen fs fs' := h

theorem Stays.ofIo (h : Linked target dir seen w.fs) {n : Option Node}
    (hn : NoLink n ∨ .link (dir ++ [c]) ∈ seen) {r : Except Errno Unit × Fs}
    (hr : SetsOrFails w.fs (dir ++ [c]) n r) : Stays target dir seen w.fs (ofIo w r).2.fs := by
  rcases hr with rfl | ⟨e, rfl⟩
  · exact ⟨.set_child w.fs dir c n, h.set hn⟩
  · exact .refl h

theorem writeFile_keeps (h : Linked target dir seen w.fs) (hc : Posix.Plain c)
    (hnot : .link (dir ++ [c]) ∉ seen) (cas : MemStore) (digest : Digest) (isExecutable : Bool) :
    Stays target dir seen w.fs (writeFile cas digest (dir ++ [c]) isExecutable w).2.fs := by
  rw [writeFile]
  split
  · exact .refl h
  rename_i bytes _
  obtain ⟨executable, hwrite⟩ := write_child h.rooted hc (h.noLink hnot) bytes
  refine (Stays.ofIo h (Or.inl (noLink_file _ _)) hwrite).andThen fun w' h' => ?_
  split
  · obtain ⟨n, hn, hset⟩ := setExecutable_child h'.rooted hc (h'.noLink hnot)
    exact Stays.ofIo h' (Or.inl hn) hset
  · exact .refl h'

theorem writeFiles_keeps (h : Linked target dir seen w.fs) (cas : MemStore) {nodes : List FileNode}
    (hnot : ∀ node ∈ nodes, .link (dir ++ [node.name]) ∉ seen) :
    Stays target dir seen w.fs (writeFiles cas dir nodes w).2.fs := by
  induction nodes generalizing w with
  | nil => exact .refl h
  | cons node rest ih =>
    rw [writeFiles]
    split
    · exact .refl h
    rename_i hname
    split
    · exact .refl h
    split
    · exact .refl h
    rename_i digest _
    rw [forall_mem_cons] at hnot
    refine (writeFile_keeps h (plain_of_validateNodeName hname) hnot.1 cas digest
      node.isExecutable).andThen fun w' h' => ?_
    exact Stays.counted (ih h' hnot.2)

theorem makeSymlink_keeps (h : Linked target dir seen w.fs) (hc : Posix.Plain c)
    (hmem : .link (dir ++ [c]) ∈ seen) (text : String) :
    Stays target dir seen w.fs (makeSymlink (dir ++ [c]) text w).2.fs := by
  refine Stays.andThen ?_ fun w' h' => ?_
  · split
    · exact Stays.ofIo h (Or.inl noLink_none) (removeFile_child h.rooted hc)
    · exact .refl h
  · exact Stays.ofIo h' (Or.inr hmem) (symlink_child h'.rooted hc text)

theorem makeSymlinks_keeps (h : Linked target dir seen w.fs) {nodes : List SymlinkNode}
    (hmem : ∀ node ∈ nodes, .link (dir ++ [node.name]) ∈ seen) :
    Stays target dir seen w.fs (makeSymlinks dir nodes w).2.fs := by
  induction nodes generalizing w with
  | nil => exact .refl h
  | cons node rest ih =>
    rw [makeSymlinks]
    split
    · exact .refl h
    rename_i hname
    rw [forall_mem_cons] at hmem
    refine (makeSymlink_keeps h (plain_of_validateNodeName hname) hmem.1
      node.target).andThen fun w' h' => ?_
    exact Stays.counted (ih h' hmem.2)

/-! ## The directories in a directory -/

theorem createDirAll_keeps (h : Linked target dir seen w.fs) (hc : Posix.Plain c)
    (hnot : .link (dir ++ [c]) ∉ seen) :
    (∃ fs', w.fs.createDirAll (dir ++ [c]) = (.ok (), fs') ∧ Stays target dir seen w.fs fs' ∧
        fs'.node (dir ++ [c]) = some .dir) ∨
      ∃ e, w.fs.createDirAll (dir ++ [c]) = (.error e, w.fs) := by
  rw [createDirAll_child h.rooted hc (h.noLink hnot)]
  split
  swap
  · exact .inr ⟨_, rfl⟩
  rw [Fs.dirAt]
  split
  · have hno : NoLink (some .dir) := fun _ heq => by cases heq
    exact .inl ⟨_, rfl, ⟨.set_child w.fs dir c _, h.set (Or.inl hno)⟩, if_pos rfl⟩
  · rename_i hdir
    exact .inl ⟨_, rfl, .refl h, hdir⟩
  · exact .inr ⟨_, rfl⟩

/-- The walk of a directory keeps to it, from any state in which no node to come is
written through a link. -/
def WalkKeeps (target : Path) (recurse : Digest → Path → World → Walk)
    (found : Digest → Path → List Visit) : Prop :=
  ∀ digest dir seen w, Linked target dir seen w.fs → Unfollowed (seen ++ found digest dir) →
    Stays target dir (seen ++ found digest dir) w.fs (recurse digest dir w).2.fs

theorem Stays.of_child (h : Linked target dir seen fs) {more : List Visit}
    (hchild : Stays target (dir ++ [c]) more fs fs') : Stays target dir more fs fs' :=
  have hwithin := hchild.within.of_child
  ⟨hwithin, hwithin.rooted h.rooted, h.below, hchild.linked.links⟩

/-- **The directories in a directory keep to it**, if the walk of each keeps to that one. -/
theorem makeDirectories_keeps {recurse : Digest → Path → World → Walk}
    {found : Digest → Path → List Visit} (hrec : WalkKeeps target recurse found)
    {nodes : List DirectoryNode} (h : Linked target dir seen w.fs)
    (hun : Unfollowed (seen ++ nodes.flatMap (directoryVisits found dir))) :
    Stays target dir (seen ++ nodes.flatMap (directoryVisits found dir)) w.fs
      (makeDirectories recurse dir nodes w).2.fs := by
  induction nodes generalizing w seen with
  | nil => exact .refl (h.mono (subset_append_left _ _))
  | cons node rest ih =>
    have hmore := subset_append_left seen ((node :: rest).flatMap (directoryVisits found dir))
    rw [makeDirectories]
    split
    · exact .refl (h.mono hmore)
    rename_i hname
    have hplain := plain_of_validateNodeName hname
    have hnot : .link (dir ++ [node.name]) ∉ seen :=
      hun.directory (mem_append_left _ mem_cons_self)
    rcases createDirAll_keeps h hplain hnot with ⟨fs', hmade, hstays, hdir⟩ | ⟨e, hfail⟩
    swap
    · rw [hfail]
      exact .refl (h.mono hmore)
    rw [hmade]
    simp only [ofIo]
    have hset : Stays target dir (seen ++ (node :: rest).flatMap (directoryVisits found dir))
        w.fs fs' := ⟨hstays.within, hstays.linked.mono hmore⟩
    split
    · exact hset
    rename_i raw hraw
    split
    · exact hset
    rename_i digest hdigest
    -- the walk of the child, after the visit of the child itself
    have hvisits : directoryVisits found dir node =
        [.directory (dir ++ [node.name])] ++ found digest (dir ++ [node.name]) := by
      simp [directoryVisits, checked, hraw, hdigest, Except.toOption]
    rw [flatMap_cons, hvisits, append_assoc, ← append_assoc seen, ← append_assoc] at hun
    have hchild : Linked target (dir ++ [node.name]) (seen ++ [.directory (dir ++ [node.name])])
        fs' :=
      ⟨hstays.linked.rooted.child hplain hdir, h.below.trans (List.prefix_append dir [node.name]),
        (hstays.linked.mono (subset_append_left _ _)).links⟩
    have hwalk := Stays.of_child hstays.linked (hrec digest _ _
      { fs := fs', stats := { w.stats with dirs := w.stats.dirs + 1 } } hchild hun.of_append)
    rw [flatMap_cons, hvisits, append_assoc, ← append_assoc seen, ← append_assoc]
    split
    · rename_i w₂ heq
      rw [heq] at hwalk
      have hlast := ih hwalk.linked hun
      exact ⟨(hstays.within.trans hwalk.within).trans hlast.within, hlast.linked⟩
    · rename_i ended w₂ _ heq
      rw [heq] at hwalk
      exact ⟨hstays.within.trans hwalk.within, hwalk.linked.mono (subset_append_left _ _)⟩

/-! ## The whole walk -/

/-- **A walk changes nothing but strictly below its directory**, if no node of the tree is
written through a link that comes before it. -/
theorem materializeDirectory_keeps (decode : Bytes → Except String Directory) (cas : MemStore)
    (fuel : ℕ) :
    WalkKeeps target (materializeDirectory decode cas fuel) (visits decode cas fuel) := by
  induction fuel with
  | zero =>
    intro digest dir seen w h _
    exact .refl (h.mono (subset_append_left _ _))
  | succ fuel ih =>
    intro digest dir seen w h hun
    rw [visits] at hun ⊢
    rw [materializeDirectory]
    split
    · exact .refl (h.mono (subset_append_left _ _))
    rename_i directory hfetch
    rw [hfetch] at hun
    rw [← append_assoc, ← append_assoc] at hun ⊢
    -- files are written before any link of this directory is made
    have hfiles := writeFiles_keeps h cas fun node hn =>
      hun.of_append.of_append.file (mem_map_of_mem hn)
    have hlinks : Stays target dir
        (seen ++ fileVisits dir directory.files ++ linkVisits dir directory.symlinks) w.fs
        ((writeFiles cas dir directory.files w).andThen
          (makeSymlinks dir directory.symlinks)).2.fs := by
      refine Stays.andThen ⟨hfiles.within, hfiles.linked.mono fun v hv => ?_⟩ fun w' h' =>
        makeSymlinks_keeps h' fun node hn => mem_append_right _ (mem_map_of_mem hn)
      exact mem_append_left _ (mem_append_left _ hv)
    split
    · rename_i e w₁ heq
      rw [heq] at hlinks
      exact ⟨hlinks.within, hlinks.linked.mono (subset_append_left _ _)⟩
    rename_i w₁ heq
    rw [heq] at hlinks
    have hdirs := makeDirectories_keeps ih hlinks.linked hun
    exact ⟨hlinks.within.trans hdirs.within, hdirs.linked⟩

/-- A field of an encoded message, shorter than 128 bytes. -/
def protoField (tag : UInt8) (bytes : Bytes) : Bytes := tag :: bytes.length.toUInt8 :: bytes

/-- The bytes of a text. -/
def textBytes (text : String) : Bytes := text.toList.map fun c => c.toNat.toUInt8

/-- The digest of some bytes, as it is sent. -/
def rawOf (bytes : Bytes) : RawDigest := ⟨(Digest.of bytes).hash, (Digest.of bytes).sizeBytes⟩

/-- A directory with one empty file, `f`. -/
def leafDirectory : Directory := { files := [⟨"f", some (rawOf []), false⟩] }

/-- Its encoding. -/
def leafBytes : Bytes :=
  protoField 0x0a (protoField 0x0a (textBytes "f") ++
    protoField 0x12 (protoField 0x0a (textBytes (rawOf []).hash)))

variable (link : String) (names : List String)

/-- A directory with a link to `/outside` and that directory under other names or the
same. -/
def linkDirectory : Directory :=
  { symlinks := [⟨link, "/outside"⟩]
    directories := names.map fun name => ⟨name, some (rawOf leafBytes)⟩ }

/-- Its encoding. -/
def linkBytes : Bytes :=
  names.flatMap (fun name => protoField 0x12 (protoField 0x0a (textBytes name) ++
      protoField 0x12 (protoField 0x0a (textBytes (rawOf leafBytes).hash) ++ [0x10, 0x49]))) ++
    protoField 0x1a (protoField 0x0a (textBytes link) ++ protoField 0x12 (textBytes "/outside"))

/-- A decoder that knows the two. -/
def sampleDecode (bytes : Bytes) : Except String Directory :=
  if bytes = leafBytes then .ok leafDirectory
  else if bytes = linkBytes link names then .ok (linkDirectory link names)
  else .error "unknown"

/-- A store with the two directories and the file. -/
def sampleStore : MemStore :=
  (inMemoryCas.batchUpdateBlobs ∅ [(Digest.of [], []), (Digest.of leafBytes, leafBytes),
    (Digest.of (linkBytes link names), linkBytes link names)]).2

/-- A host with two empty directories, `/work` and `/outside`. -/
def hostFs : Fs where
  node p := if p = [] ∨ p = ["work"] ∨ p = ["outside"] then some .dir else none

theorem rooted_hostFs : Rooted hostFs ["work"] := by
  refine ⟨fun q hq => ?_, by decide⟩
  cases q with
  | nil => rfl
  | cons =>
    obtain ⟨rfl, hrest⟩ := List.cons_prefix_cons.1 hq
    rw [List.prefix_nil.1 hrest]
    rfl

theorem fresh_hostFs : Fresh hostFs ["work"] := fun d rest => by simp [hostFs]

theorem directory_of_sampleDecode {link : String} {names : List String} {d : Digest}
    {directory : Directory}
    (h : fetchDirectory (sampleDecode link names) cas d = .ok directory) :
    directory = leafDirectory ∨ directory = linkDirectory link names := by
  rw [fetchDirectory] at h
  split at h
  · cases h
  split at h
  · rename_i hdecode
    cases h
    rw [sampleDecode] at hdecode
    split at hdecode
    · cases hdecode
      exact .inl rfl
    split at hdecode
    · cases hdecode
      exact .inr rfl
    · cases hdecode
  · cases h

end Brokkr.Blobs
