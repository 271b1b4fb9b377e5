import Brokkr.Cas.InputTree

/-!
# What a walk writes

`materialize_tree` against the input tree.  A walk that comes to its end has found the
tree walkable; and a walkable tree whose files are in the store is written to an empty
directory as it is, just if its names are unambiguous and the host can hold it.  (Two
files, two directories, or a link and something else with one name are not looked at here:
they overwrite, merge or lead elsewhere.)

* `Written` — below a path there is a tree, and nothing else.
* `Holding` — some children of a directory have been written, each with all that lies
  below it; one loop of the walk after the other adds its own.
* `Enters` — a loop ends well just if a condition holds, and then has added its own.
* `walkable_of_materializeDirectory`, `materializeDirectory_spec` — the walk.
-/

namespace Brokkr.Blobs

open Posix List

/-! ## Trees below a path -/

/-- A node of an input tree as a file system has it. -/
def fileNode (cas : MemStore) : InputNode → Option Node
  | .dir _ => some .dir
  | .file digest executable =>
    (readBlob cas digest).toOption.map fun bytes => .file bytes executable
  | .link target => some (.symlink target)

section Written

variable {decode : Bytes → Except String Directory} {cas : MemStore} {fs₀ fs fs' : Fs}
  {dir path : Path} {name : String} {node : InputNode} {n : Node}
  {done : List (String × InputNode)}

/-- Below a path there is a tree, and nothing else. -/
def Written (decode : Bytes → Except String Directory) (cas : MemStore) (fs : Fs) (path : Path)
    (node : InputNode) : Prop :=
  ∀ rest n, fs.node (path ++ rest) = some n ↔
    ∃ node', NodeAt decode cas node rest node' ∧ fileNode cas node' = some n

theorem written_leaf (hat : fs.node path = some n)
    (hbelow : ∀ d rest, fs.node (path ++ d :: rest) = none)
    (hleaf : ∀ digest, node ≠ .dir digest) (hnode : fileNode cas node = some n) :
    Written decode cas fs path node := by
  intro rest n'
  cases rest with
  | nil =>
    rw [append_nil, hat, ← hnode]
    constructor
    · exact fun h => ⟨node, .here node, h⟩
    · rintro ⟨node', hnode', h⟩
      rwa [nodeAt_nil.1 hnode'] at h
  | cons d rest =>
    rw [hbelow d rest]
    constructor
    · nofun
    rintro ⟨node', hnode', -⟩
    obtain ⟨digest, -, -, hdir, -⟩ := nodeAt_cons.1 hnode'
    exact absurd hdir (hleaf digest)

/-- From `fs₀` to `fs`, some children have been written to an empty directory, each with all
that lies below it. -/
structure Holding (decode : Bytes → Except String Directory) (cas : MemStore) (fs₀ fs : Fs)
    (dir : Path) (done : List (String × InputNode)) : Prop where
  rooted : Rooted fs dir
  same : SameBut dir fs₀ fs
  child : ∀ name node, (name, node) ∈ done → Written decode cas fs (dir ++ [name]) node
  vacant : ∀ name, name ∉ done.map Prod.fst → ∀ path, fs.node (dir ++ name :: path) = none

namespace Holding

theorem start (hroot : Rooted fs dir) (hfresh : Fresh fs dir) : Holding decode cas fs fs dir [] :=
  ⟨hroot, fun _ _ => rfl, nofun, fun name _ path => hfresh name path⟩

/-- **One more child.** -/
theorem extend (h : Holding decode cas fs₀ fs dir done) (hsame : SameBut (dir ++ [name]) fs fs')
    (hnew : name ∉ done.map Prod.fst) (hwritten : Written decode cas fs' (dir ++ [name]) node) :
    Holding decode cas fs₀ fs' dir (done ++ [(name, node)]) := by
  have hother : ∀ name', name' ≠ name → ∀ path,
      fs'.node (dir ++ name' :: path) = fs.node (dir ++ name' :: path) :=
    fun name' hne path => hsame _ (not_prefix_sibling hne path)
  refine ⟨hsame.rooted h.rooted, h.same.trans hsame.of_child, fun name' node' hmem => ?_,
    fun name' hnot path => ?_⟩
  · rcases mem_append.1 hmem with hdone | hlast
    · have hne : name' ≠ name := by
        rintro rfl
        exact hnew (mem_map.2 ⟨_, hdone, rfl⟩)
      intro rest n
      have hold := h.child name' node' hdone rest n
      rw [append_assoc, singleton_append] at hold ⊢
      rw [hother name' hne rest, hold]
    · cases mem_singleton.1 hlast
      exact hwritten
  · rw [map_append, mem_append, not_or] at hnot
    have hne : name' ≠ name := fun heq => hnot.2 (by simp [heq])
    rw [hother name' hne path, h.vacant name' hnot.1 path]

theorem extend_leaf (h : Holding decode cas fs₀ fs dir done) (node : InputNode)
    (hnew : name ∉ done.map Prod.fst)
    (hset : ∀ q, fs'.node q = if q = dir ++ [name] then some n else fs.node q)
    (hleaf : ∀ digest, node ≠ .dir digest) (hnode : fileNode cas node = some n) :
    Holding decode cas fs₀ fs' dir (done ++ [(name, node)]) := by
  refine h.extend (fun q hq => ?_) hnew (written_leaf ?_ (fun d rest => ?_) hleaf hnode)
  · rw [hset q, if_neg]
    rintro rfl
    exact hq (List.prefix_refl _)
  · rw [hset, if_pos rfl]
  · rw [hset, if_neg (by simp), append_assoc, singleton_append]
    exact h.vacant name hnew (d :: rest)

theorem written {digest : Digest} {directory : Directory}
    (hfetch : fetchDirectory decode cas digest = .ok directory)
    (h : Holding decode cas fs₀ fs dir (children directory)) :
    Written decode cas fs dir (.dir digest) := by
  intro rest n
  cases rest with
  | nil =>
    rw [append_nil, h.rooted.dirs dir (List.prefix_refl dir)]
    constructor
    · exact fun hn => ⟨.dir digest, .here _, hn⟩
    · rintro ⟨node', hnode', hn⟩
      rwa [nodeAt_nil.1 hnode'] at hn
  | cons name rest =>
    constructor
    · intro hn
      have hmem : name ∈ (children directory).map Prod.fst := by
        by_contra hnot
        rw [h.vacant name hnot rest] at hn
        cases hn
      obtain ⟨⟨_, child⟩, hchild, rfl⟩ := mem_map.1 hmem
      rw [append_cons] at hn
      obtain ⟨node', hnode', hn⟩ := (h.child _ child hchild rest n).1 hn
      exact ⟨node', .inside hfetch hchild hnode', hn⟩
    · rintro ⟨node', hnode', hn⟩
      obtain ⟨_, directory', child, ⟨⟩, hfetch', hchild, hbelow⟩ := nodeAt_cons.1 hnode'
      cases hfetch.symm.trans hfetch'
      rw [append_cons]
      exact (h.child name child hchild rest n).2 ⟨node', hbelow, hn⟩

end Holding

end Written

/-! ## The loops -/

section Loops

variable {decode : Bytes → Except String Directory} {cas : MemStore} {fs₀ fs : Fs} {dir : Path}
  {w : World} {done : List (String × InputNode)} {c : String} {ok cond cond' : Prop}

theorem not_mem_of_nodup_append_cons {α : Type} {xs ys : List α} {x : α}
    (h : (xs ++ x :: ys).Nodup) : x ∉ xs :=
  fun hmem => (nodup_cons.1 (nodup_middle.1 h)).1 (mem_append_left _ hmem)

/-- A loop that ends in `fs` ends well just if a condition holds, and then children have
been written. -/
structure Enters (decode : Bytes → Except String Directory) (cas : MemStore) (fs₀ : Fs)
    (dir : Path) (done : List (String × InputNode)) (ok cond : Prop) (fs : Fs) : Prop where
  iff : ok ↔ cond
  holding : ok → Holding decode cas fs₀ fs dir done

theorem Enters.fails (hok : ¬ ok) (hcond : ¬ cond) : Enters decode cas fs₀ dir done ok cond fs :=
  ⟨iff_of_false hok hcond, fun h => absurd h hok⟩

theorem Enters.congr (h : Enters decode cas fs₀ dir done ok cond fs) (hiff : cond ↔ cond') :
    Enters decode cas fs₀ dir done ok cond' fs :=
  ⟨h.iff.trans hiff, h.holding⟩

theorem writeFile_none (hroot : Rooted w.fs dir) (hc : Posix.Plain c)
    (hnone : w.fs.node (dir ++ [c]) = none) (hshort : Short (dir ++ [c])) {digest : Digest}
    {bytes : Bytes} (hread : readBlob cas digest = .ok bytes) (isExecutable : Bool) :
    ∃ w', writeFile cas digest (dir ++ [c]) isExecutable w = (.ok (), w') ∧ ∀ q, w'.fs.node q =
        if q = dir ++ [c] then some (.file bytes isExecutable) else w.fs.node q := by
  simp only [writeFile, hread, write_none hroot hc hnone, if_pos hshort, ofIo, Step.andThen]
  cases isExecutable with
  | false => exact ⟨_, rfl, fun q => rfl⟩
  | true =>
    have hset : Rooted (w.fs.set (dir ++ [c]) (some (.file bytes false))) dir :=
      (SameBut.set _ _ _).rooted hroot
    rw [if_pos rfl, setExecutable_file hset hc hshort (if_pos rfl)]
    refine ⟨_, rfl, fun q => ?_⟩
    by_cases hq : q = dir ++ [c]
    · rw [if_pos hq]
      exact if_pos hq
    · rw [if_neg hq]
      exact (if_neg hq).trans (if_neg hq)

variable (h : Holding decode cas fs₀ w.fs dir done)

include h

theorem Holding.node_none
    (hnew : c ∉ done.map Prod.fst) : w.fs.node (dir ++ [c]) = none := h.vacant c hnew []

theorem writeFiles_enters {nodes : List FileNode}
    (hwell : ∀ node ∈ nodes,
      validateNodeName node.name = none ∧ ∃ digest, checked node.digest = some digest)
    (hpresent : ∀ node ∈ nodes, ∀ digest, checked node.digest = some digest →
      ∃ bytes, readBlob cas digest = .ok bytes)
    (hnodup : (done.map Prod.fst ++ nodes.map FileNode.name).Nodup) :
    Enters decode cas fs₀ dir (done ++ nodes.filterMap fileChild)
      ((writeFiles cas dir nodes w).1 = .ok ()) (∀ node ∈ nodes, Short (dir ++ [node.name]))
      (writeFiles cas dir nodes w).2.fs := by
  induction nodes generalizing w done with
  | nil =>
    rw [filterMap_nil, append_nil]
    exact ⟨iff_of_true rfl (forall_mem_nil _), fun _ => h⟩
  | cons node rest ih =>
    obtain ⟨hname, digest, hdigest⟩ := hwell node mem_cons_self
    obtain ⟨bytes, hread⟩ := hpresent node mem_cons_self digest hdigest
    obtain ⟨raw, hraw, hof⟩ := checked_eq_some.1 hdigest
    have hplain := plain_of_validateNodeName hname
    have hnew := not_mem_of_nodup_append_cons hnodup
    by_cases hshort : Short (dir ++ [node.name])
    swap
    · refine .fails ?_ fun hall => hshort (hall node mem_cons_self)
      simp only [writeFiles, hname, hraw, hof, writeFile, hread,
        write_none h.rooted hplain (h.node_none hnew), if_neg hshort, ofIo, Step.andThen]
      exact fun herror => by cases herror
    obtain ⟨w₁, hwrite, hset⟩ := writeFile_none h.rooted hplain (h.node_none hnew) hshort hread
      node.isExecutable
    have hfile : fileNode cas (.file digest node.isExecutable) =
        some (.file bytes node.isExecutable) := by
      rw [fileNode, hread]
      rfl
    have hmore := h.extend_leaf (.file digest node.isExecutable) hnew hset (by simp) hfile
    rw [map_cons, append_cons] at hnodup
    rw [filterMap_cons_some (fileChild_eq hdigest), append_cons, forall_mem_cons]
    simp only [writeFiles, hname, hraw, hof, hwrite, Step.andThen]
    refine Enters.congr (ih ?_ (fun n hn => hwell n (mem_cons_of_mem _ hn))
      (fun n hn => hpresent n (mem_cons_of_mem _ hn)) (by simpa using hnodup))
      (and_iff_right hshort).symm
    exact hmore

theorem makeSymlinks_enters {nodes : List SymlinkNode}
    (hwell : ∀ node ∈ nodes, validateNodeName node.name = none)
    (hnodup : (done.map Prod.fst ++ nodes.map SymlinkNode.name).Nodup) :
    Enters decode cas fs₀ dir (done ++ nodes.map symlinkChild)
      ((makeSymlinks dir nodes w).1 = .ok ())
      (∀ node ∈ nodes, Short (dir ++ [node.name]) ∧ LinkText node.target)
      (makeSymlinks dir nodes w).2.fs := by
  induction nodes generalizing w done with
  | nil =>
    rw [map_nil, append_nil]
    exact ⟨iff_of_true rfl (forall_mem_nil _), fun _ => h⟩
  | cons node rest ih =>
    have hname := hwell node mem_cons_self
    have hplain := plain_of_validateNodeName hname
    have hnew := not_mem_of_nodup_append_cons hnodup
    have hnone := h.node_none hnew
    have hmake : makeSymlink (dir ++ [node.name]) node.target w =
        ofIo w (w.fs.symlink node.target (dir ++ [node.name])) := by
      rw [makeSymlink, pathExists_none h.rooted hplain hnone,
        isSymlink_none h.rooted hplain hnone]
      rfl
    by_cases hstore : Short (dir ++ [node.name]) ∧ LinkText node.target
    swap
    · obtain ⟨e, hfail⟩ := symlink_fails h.rooted hplain hstore
      refine .fails ?_ fun hall => hstore (hall node mem_cons_self)
      simp only [makeSymlinks, hname, hmake, hfail, ofIo, Step.andThen]
      exact fun herror => by cases herror
    have hset : ∀ q, (w.fs.set (dir ++ [node.name]) (some (.symlink node.target))).node q =
        if q = dir ++ [node.name] then some (.symlink node.target) else w.fs.node q :=
      fun q => rfl
    have hmore := h.extend_leaf (.link node.target) hnew hset (by simp) rfl
    rw [map_cons, append_cons] at hnodup
    rw [map_cons, append_cons, forall_mem_cons]
    simp only [makeSymlinks, hname, hmake, symlink_none h.rooted hplain hnone hstore.1 hstore.2,
      ofIo, Step.andThen]
    refine Enters.congr (ih ?_ (fun n hn => hwell n (mem_cons_of_mem _ hn))
      (by simpa [symlinkChild] using hnodup)) (and_iff_right hstore).symm
    exact hmore

omit h

/-- A tree that can be written to an empty directory, if it is walkable. -/
structure Writable (decode : Bytes → Except String Directory) (cas : MemStore) (dir : Path)
    (digest : Digest) : Prop where
  clear : Throughout decode cas digest Unambiguous
  storable : Storable decode cas dir digest

/-- What a walk does in an empty directory: it ends well just if the tree can be written,
and then it has written it. -/
def WalkSpec (decode : Bytes → Except String Directory) (cas : MemStore) (digest : Digest)
    (dir : Path) (walk : World → Walk) : Prop :=
  ∀ w : World, Rooted w.fs dir → Fresh w.fs dir →
    ((walk w).1 = some (.ok ()) ↔ Writable decode cas dir digest) ∧
    ((walk w).1 = some (.ok ()) → SameBut dir w.fs (walk w).2.fs ∧
      Written decode cas (walk w).2.fs dir (.dir digest))

theorem Holding.createDirAll_fails (h : Holding decode cas fs₀ w.fs dir done)
    (hc : Posix.Plain c) {n : Option Node} (hn : w.fs.node (dir ++ [c]) = n)
    (hnot : (∃ content executable, n = some (.file content executable)) ∨
      n = none ∧ ¬ Short (dir ++ [c])) :
    ∃ e, w.fs.createDirAll (dir ++ [c]) = (.error e, w.fs) := by
  rcases hnot with ⟨content, executable, rfl⟩ | ⟨rfl, hlong⟩
  · rw [createDirAll_child h.rooted hc (hn ▸ noLink_file _ _)]
    split
    · rw [Fs.dirAt, hn]
      exact ⟨_, rfl⟩
    · exact ⟨_, rfl⟩
  · rw [createDirAll_child h.rooted hc (hn ▸ noLink_none), if_neg hlong]
    exact ⟨_, rfl⟩

theorem makeDirectories_enters {recurse : Digest → Path → World → Walk}
    {nodes : List DirectoryNode} (taken : List String)
    (hrec : ∀ node ∈ nodes, ∀ digest, checked node.digest = some digest →
      WalkSpec decode cas digest (dir ++ [node.name]) (recurse digest (dir ++ [node.name])))
    (h : Holding decode cas fs₀ w.fs dir done)
    (hwell : ∀ node ∈ nodes,
      validateNodeName node.name = none ∧ ∃ digest, checked node.digest = some digest)
    (hnodup : (nodes.map DirectoryNode.name).Nodup)
    (htaken : ∀ node ∈ nodes, node.name ∈ taken → ∃ child content executable,
      (node.name, child) ∈ done ∧ fileNode cas child = some (.file content executable))
    (hfree : ∀ node ∈ nodes, node.name ∉ taken → node.name ∉ done.map Prod.fst) :
    Enters decode cas fs₀ dir (done ++ nodes.filterMap directoryChild)
      ((makeDirectories recurse dir nodes w).1 = some (.ok ()))
      (∀ node ∈ nodes, node.name ∉ taken ∧ Short (dir ++ [node.name]) ∧
        ∀ d, checked node.digest = some d → Writable decode cas (dir ++ [node.name]) d)
      (makeDirectories recurse dir nodes w).2.fs := by
  induction nodes generalizing w done with
  | nil =>
    rw [filterMap_nil, append_nil]
    exact ⟨iff_of_true rfl (forall_mem_nil _), fun _ => h⟩
  | cons node rest ih =>
    obtain ⟨hname, digest, hdigest⟩ := hwell node mem_cons_self
    obtain ⟨raw, hraw, hof⟩ := checked_eq_some.1 hdigest
    have hplain := plain_of_validateNodeName hname
    by_cases hhere : node.name ∉ taken ∧ Short (dir ++ [node.name])
    swap
    · -- a file is in the way, or the path is too long
      have hnot : (∃ content executable,
          w.fs.node (dir ++ [node.name]) = some (.file content executable)) ∨
            w.fs.node (dir ++ [node.name]) = none ∧ ¬ Short (dir ++ [node.name]) := by
        by_cases hin : node.name ∈ taken
        · obtain ⟨child, content, executable, hmem, hfile⟩ := htaken node mem_cons_self hin
          have hat := (h.child _ child hmem [] _).2 ⟨child, .here child, hfile⟩
          rw [append_nil] at hat
          exact .inl ⟨content, executable, hat⟩
        · exact .inr ⟨h.node_none (hfree node mem_cons_self hin), fun hshort => hhere ⟨hin, hshort⟩⟩
      obtain ⟨e, hfail⟩ := h.createDirAll_fails hplain rfl hnot
      refine .fails ?_ fun hall => hhere ?_
      swap
      · exact ⟨(hall node mem_cons_self).1, (hall node mem_cons_self).2.1⟩
      simp only [makeDirectories, hname, hfail, ofIo]
      exact fun herror => by cases herror
    obtain ⟨hnot, hshort⟩ := hhere
    have hnew := hfree node mem_cons_self hnot
    have hnone := h.node_none hnew
    have hmake : w.fs.createDirAll (dir ++ [node.name]) =
        (.ok (), w.fs.set (dir ++ [node.name]) (some .dir)) := by
      rw [createDirAll_child h.rooted hplain (hnone ▸ noLink_none), if_pos hshort, Fs.dirAt, hnone]
    -- the new directory is empty, and the walk of it fills it
    have hmade : SameBut (dir ++ [node.name]) w.fs
      (w.fs.set (dir ++ [node.name]) (some .dir)) := .set _ _ _
    have hroot := (hmade.rooted h.rooted).child hplain (if_pos rfl)
    have hfresh : Fresh (w.fs.set (dir ++ [node.name]) (some .dir)) (dir ++ [node.name]) := by
      intro d rest'
      refine (if_neg (by simp)).trans ?_
      rw [append_assoc, singleton_append]
      exact h.vacant node.name hnew (d :: rest')
    obtain ⟨hiff, hends⟩ := hrec node mem_cons_self digest hdigest
      { fs := w.fs.set (dir ++ [node.name]) (some .dir)
        stats := { w.stats with dirs := w.stats.dirs + 1 } } hroot hfresh
    simp only [makeDirectories, hname, hmake, ofIo, hraw, hof]
    split
    · rename_i w₁ hwalk
      rw [hwalk] at hiff hends
      obtain ⟨hsame, hwritten⟩ := hends rfl
      have hmore := h.extend (hmade.trans hsame) hnew hwritten
      rw [map_cons, nodup_cons] at hnodup
      rw [filterMap_cons_some (directoryChild_eq hdigest), append_cons, forall_mem_cons]
      refine (ih (fun n hn => hrec n (mem_cons_of_mem _ hn)) hmore
        (fun n hn => hwell n (mem_cons_of_mem _ hn)) hnodup.2 (fun n hn hin => ?_)
        fun n hn hout => ?_).congr (and_iff_right ⟨hnot, hshort, fun d hd => ?_⟩).symm
      · obtain ⟨child, content, executable, hmem, hfile⟩ := htaken n (mem_cons_of_mem _ hn) hin
        exact ⟨child, content, executable, mem_append_left _ hmem, hfile⟩
      · have hne : n.name ≠ node.name := fun heq => hnodup.1 (heq ▸ mem_map_of_mem hn)
        simpa [hne] using hfree n (mem_cons_of_mem _ hn) hout
      · cases hdigest.symm.trans hd
        exact hiff.1 rfl
    · rename_i ended w₁ hended hwalk
      rw [hwalk] at hiff
      have hne : ended ≠ some (.ok ()) := fun heq => hended heq
      exact .fails hne fun hall => hne (hiff.2 ((hall node mem_cons_self).2.2 digest hdigest))

theorem writable_iff {digest : Digest} {directory : Directory}
    (hfetch : fetchDirectory decode cas digest = .ok directory) (hwell : Wellformed directory)
    (hsep : Separate directory) :
    Writable decode cas dir digest ↔ (∀ node ∈ directory.files, Short (dir ++ [node.name])) ∧
      (∀ node ∈ directory.symlinks, Short (dir ++ [node.name]) ∧ LinkText node.target) ∧
      ∀ node ∈ directory.directories, node.name ∉ directory.files.map FileNode.name ∧
        Short (dir ++ [node.name]) ∧
        ∀ d, checked node.digest = some d → Writable decode cas (dir ++ [node.name]) d := by
  constructor
  · rintro ⟨hclear, hstore⟩
    obtain ⟨hfiles, hlinks, hdirs⟩ := (storable_iff hfetch hwell).1 hstore
    refine ⟨hfiles, hlinks, fun node hn => ⟨?_, (hdirs node hn).1, fun d hd => ?_⟩⟩
    · exact hsep.unambiguous_iff.1 (hclear.here hfetch) node hn
    · exact ⟨hclear.child hfetch hn hd, (hdirs node hn).2 d hd⟩
  · rintro ⟨hfiles, hlinks, hdirs⟩
    refine ⟨.of_children hfetch (hsep.unambiguous_iff.2 fun node hn => (hdirs node hn).1)
      fun node hn d hd => ((hdirs node hn).2.2 d hd).clear, (storable_iff hfetch hwell).2
        ⟨hfiles, hlinks, fun node hn => ⟨(hdirs node hn).2.1, fun d hd => ?_⟩⟩⟩
    exact ((hdirs node hn).2.2 d hd).storable

/-- **A walkable tree is written as it is**, to an empty directory, just if its names are
unambiguous and the host can hold it. -/
theorem materializeDirectory_spec {depth : ℕ} {digest : Digest}
    (hwalk : Walkable decode cas depth digest) (hsep : Throughout decode cas digest Separate)
    (hpresent : Throughout decode cas digest (Present cas)) (dir : Path) :
    WalkSpec decode cas digest dir (materializeDirectory decode cas depth digest dir) := by
  induction depth generalizing digest dir with
  | zero => exact absurd hwalk id
  | succ depth ih =>
    intro w hroot hfresh
    obtain ⟨directory, hfetch, hwell, hbelow⟩ := hwalk
    have hsep' := hsep.here hfetch
    have hpresent' := hpresent.here hfetch
    have hstart : Holding decode cas w.fs w.fs dir [] := .start hroot hfresh
    have hfiles := map_fst_fileChild fun node hn => (hwell.files node hn).2
    have h₁ := writeFiles_enters hstart hwell.files hpresent' (nodup_append.1 hsep'.files).1
    rw [writable_iff hfetch hwell hsep']
    simp only [materializeDirectory, hfetch]
    cases hw₁ : writeFiles cas dir directory.files w with
    | mk res₁ w₁ =>
    rw [hw₁] at h₁
    cases res₁ with
    | error e =>
      have hnot : (some (.error e) : Option (Except CasError Unit)) ≠ some (.ok ()) := by simp
      exact ⟨iff_of_false hnot fun hall => (by cases h₁.iff.2 hall.1), fun hok => absurd hok hnot⟩
    | ok =>
    have hshort := h₁.iff.1 rfl
    have h₂ := makeSymlinks_enters (h₁.holding rfl) hwell.symlinks
      (by rw [nil_append, hfiles]; exact hsep'.files)
    simp only [Step.andThen]
    cases hw₂ : makeSymlinks dir directory.symlinks w₁ with
    | mk res₂ w₂ =>
    rw [hw₂] at h₂
    cases res₂ with
    | error e =>
      have hnot : (some (.error e) : Option (Except CasError Unit)) ≠ some (.ok ()) := by simp
      exact ⟨iff_of_false hnot fun hall => (by cases h₂.iff.2 hall.2.1),
        fun hok => absurd hok hnot⟩
    | ok =>
    obtain ⟨-, hdirs, hapart⟩ := nodup_append'.1 hsep'.directories
    have h₃ := makeDirectories_enters (directory.files.map FileNode.name)
      (fun node hn d hd => ih (hbelow node hn d hd) (hsep.child hfetch hn hd)
        (hpresent.child hfetch hn hd) (dir ++ [node.name])) (h₂.holding rfl) hwell.directories hdirs
      (fun node hn hin => ?_) fun node hn hout => ?_
    · refine ⟨?_, fun hok => ⟨(h₃.holding hok).same, (h₃.holding hok).written hfetch⟩⟩
      rw [h₃.iff, and_iff_right hshort, and_iff_right (h₂.iff.1 rfl)]
    · obtain ⟨file, hfile, hname⟩ := mem_map.1 hin
      obtain ⟨d, hd⟩ := (hwell.files file hfile).2
      obtain ⟨bytes, hread⟩ := hpresent' file hfile d hd
      refine ⟨.file d file.isExecutable, bytes, file.isExecutable, mem_append_left _ ?_, ?_⟩
      · exact mem_filterMap.2 ⟨file, hfile, hname ▸ fileChild_eq hd⟩
      · rw [fileNode, hread]
        rfl
    · rw [nil_append, map_append, hfiles, map_fst_symlinkChild, mem_append, not_or]
      exact ⟨hout, fun hlink => hapart hlink (mem_map_of_mem hn)⟩

end Loops

/-! ## What success says -/

section Walked

variable {decode : Bytes → Except String Directory} {cas : MemStore} {dir : Path} {w w' : World}

theorem Step.andThen_eq_ok {r : Step} {f : World → Step} (h : r.andThen f = (.ok (), w')) :
    ∃ w₁, r = (.ok (), w₁) ∧ f w₁ = (.ok (), w') := by
  obtain ⟨res, w₁⟩ := r
  cases res with
  | error => cases h
  | ok => exact ⟨w₁, rfl, h⟩

theorem wellformed_of_writeFiles {nodes : List FileNode}
    (h : writeFiles cas dir nodes w = (.ok (), w')) :
    ∀ node ∈ nodes,
      validateNodeName node.name = none ∧ ∃ digest, checked node.digest = some digest := by
  induction nodes generalizing w with
  | nil => exact nofun
  | cons node rest ih =>
    rw [writeFiles] at h
    split at h
    · cases h
    rename_i hname
    split at h
    · cases h
    rename_i raw hraw
    split at h
    · cases h
    rename_i digest hof
    obtain ⟨w₁, -, hrest⟩ := Step.andThen_eq_ok h
    exact forall_mem_cons.2
      ⟨⟨hname, digest, checked_eq_some.2 ⟨raw, hraw, hof⟩⟩, ih hrest⟩

theorem wellformed_of_makeSymlinks {nodes : List SymlinkNode}
    (h : makeSymlinks dir nodes w = (.ok (), w')) :
    ∀ node ∈ nodes, validateNodeName node.name = none := by
  induction nodes generalizing w with
  | nil => exact nofun
  | cons node rest ih =>
    rw [makeSymlinks] at h
    split at h
    · cases h
    rename_i hname
    obtain ⟨w₁, -, hrest⟩ := Step.andThen_eq_ok h
    exact forall_mem_cons.2 ⟨hname, ih hrest⟩

theorem wellformed_of_makeDirectories {recurse : Digest → Path → World → Walk}
    {nodes : List DirectoryNode} (h : makeDirectories recurse dir nodes w = (some (.ok ()), w')) :
    ∀ node ∈ nodes, validateNodeName node.name = none ∧ ∃ digest,
      checked node.digest = some digest ∧
      ∃ w₁ w₂, recurse digest (dir ++ [node.name]) w₁ = (some (.ok ()), w₂) := by
  induction nodes generalizing w with
  | nil => exact nofun
  | cons node rest ih =>
    rw [makeDirectories] at h
    split at h
    · cases h
    rename_i hname
    split at h
    · cases h
    dsimp only at h
    split at h
    · cases h
    rename_i raw hraw
    split at h
    · cases h
    rename_i digest hof
    split at h
    · rename_i w₂ hwalk
      exact forall_mem_cons.2
        ⟨⟨hname, digest, checked_eq_some.2 ⟨raw, hraw, hof⟩, _, w₂, hwalk⟩, ih h⟩
    rename_i ended w₂ hnot hwalk
    cases h
    exact (hnot rfl).elim

/-- **A walk that comes to its end has found the tree walkable.** -/
theorem walkable_of_materializeDirectory {fuel : ℕ} {digest : Digest}
    (h : materializeDirectory decode cas fuel digest dir w = (some (.ok ()), w')) :
    Walkable decode cas fuel digest := by
  induction fuel generalizing digest dir w w' with
  | zero => cases h
  | succ fuel ih =>
    rw [materializeDirectory] at h
    split at h
    · cases h
    rename_i directory hfetch
    split at h
    · cases h
    rename_i w₁ hleaves
    obtain ⟨w₀, hfiles, hlinks⟩ := Step.andThen_eq_ok hleaves
    have hdirs := wellformed_of_makeDirectories h
    refine ⟨directory, hfetch, ⟨wellformed_of_writeFiles hfiles,
      wellformed_of_makeSymlinks hlinks, fun node hn => ?_⟩, fun node hn d hd => ?_⟩
    · obtain ⟨hname, d, hd, -⟩ := hdirs node hn
      exact ⟨hname, d, hd⟩
    obtain ⟨-, d', hd', w₂, w₃, hwalk⟩ := hdirs node hn
    cases hd.symm.trans hd'
    exact ih hwalk

end Walked

end Brokkr.Blobs
