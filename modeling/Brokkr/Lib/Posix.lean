import Mathlib.Data.List.Infix
import Mathlib.Order.Basic

/-!
# Files, directories and symbolic links

A file system as the system calls see it: nodes under canonical paths, and paths that
are resolved component by component, through symbolic links wherever these lead.

* `walk`, `Fs.resolve` — path resolution.  It gives the canonical path of what a path
  names, which need not exist; a link in the last place is followed or not, as the call
  at hand wants it.
* `Fs.write`, `Fs.setExecutable`, `Fs.removeFile`, `Fs.symlink`, `Fs.createDir`,
  `Fs.createDirAll` — the calls that change something.  Each notes the canonical path
  of what it creates, overwrites or removes (`Fs.touched`).
* `Rooted` — a path that consists of directories; `resolve_child` says that a path
  right below one names what it seems to name, unless it is too long (`Short`).
* `Within` — nothing has changed but strictly below a directory.
* `SameBut` — nothing has changed but at a path and below it.
-/

namespace Brokkr.Posix

open List

/-- A path from the root, as its components. -/
abbrev Path := List String

/-- Why a call failed. -/
inductive Errno where
  | noEntry
  | exists
  | notDirectory
  | isDirectory
  | loop
  | nameTooLong
  | containsNul
  deriving DecidableEq

/-- The text of an error. -/
def Errno.toString : Errno → String
  | .noEntry => "No such file or directory (os error 2)"
  | .exists => "File exists (os error 17)"
  | .notDirectory => "Not a directory (os error 20)"
  | .isDirectory => "Is a directory (os error 21)"
  | .nameTooLong => "File name too long (os error 36)"
  | .loop => "Too many levels of symbolic links (os error 40)"
  | .containsNul => "file name contained an unexpected NUL byte"

/-- What is found under a canonical path. -/
inductive Node where
  | dir
  | file (content : List UInt8) (executable : Bool)
  | symlink (target : String)
  deriving DecidableEq

/-- A file system. -/
structure Fs where
  node : Path → Option Node
  touched : List Path := []

/-! ## Resolving paths -/

/-- The longest name of a file, in bytes. -/
def nameMax : ℕ := 255

/-- The longest text of a path or of a link, in bytes. -/
def pathMax : ℕ := 4095

/-- How long the text of a path is: every component stands after a slash. -/
def textLength (path : Path) : ℕ := path.foldr (fun c n => c.utf8ByteSize + 1 + n) 0

/-- A path that a call can be given. -/
structure Short (path : Path) : Prop where
  text : textLength path ≤ pathMax
  names : ∀ c ∈ path, c.utf8ByteSize ≤ nameMax

instance (path : Path) : Decidable (Short path) :=
  decidable_of_iff (textLength path ≤ pathMax ∧ ∀ c ∈ path, c.utf8ByteSize ≤ nameMax)
    ⟨fun h => ⟨h.1, h.2⟩, fun h => ⟨h.text, h.names⟩⟩

/-- The texts that a link can hold. -/
def LinkText (text : String) : Prop :=
  text ≠ "" ∧ text.toList.contains '\x00' = false ∧ text.utf8ByteSize ≤ pathMax

instance (text : String) : Decidable (LinkText text) := inferInstanceAs (Decidable (_ ∧ _ ∧ _))

/-- The pieces between slashes. -/
def splitSlash : List Char → List (List Char)
  | [] => [[]]
  | c :: rest =>
    match splitSlash rest with
    | [] => [[c]]
    | piece :: pieces => if c = '/' then [] :: piece :: pieces else (c :: piece) :: pieces

/-- The components of the text of a link. -/
def components (text : String) : List String := (splitSlash text.toList).map String.ofList

/-- Does the text of a link start at the root? -/
def isAbsolute (text : String) : Bool := decide (text.toList.head? = some '/')

/-- A component that stands for itself. -/
def Plain (name : String) : Prop := name ≠ "" ∧ name ≠ "." ∧ name ≠ ".."

instance (name : String) : Decidable (Plain name) := inferInstanceAs (Decidable (_ ∧ _))

/-- How far components lead without following a link. -/
inductive Walked where
  | done (path : Path)
  | link (dir : Path) (target : String) (rest : List String)
  | failed (e : Errno)

/-- Follow components from a directory on, up to the first link that has to be followed:
one that is not in the last place, or any if `follow` is set. -/
def walk (node : Path → Option Node) (follow : Bool) : Path → List String → Walked
  | cur, [] => .done cur
  | cur, c :: rest =>
    if c = "" ∨ c = "." then walk node follow cur rest
    else if c = ".." then walk node follow cur.dropLast rest
    else if nameMax < c.utf8ByteSize then .failed .nameTooLong
    else
      match node (cur ++ [c]) with
      | some .dir => walk node follow (cur ++ [c]) rest
      | some (.symlink target) =>
        if rest = [] ∧ follow = false then .done (cur ++ [c]) else .link cur target rest
      | some (.file _ _) => if rest = [] then .done (cur ++ [c]) else .failed .notDirectory
      | none => if rest = [] then .done (cur ++ [c]) else .failed .noEntry

/-- Follow components, and as many links as are allowed. -/
def resolveFrom (node : Path → Option Node) (follow : Bool) :
    ℕ → Path → List String → Except Errno Path
  | links, cur, comps =>
    match walk node follow cur comps with
    | .done path => .ok path
    | .failed e => .error e
    | .link dir target rest =>
      match links with
      | 0 => .error .loop
      | links + 1 =>
        resolveFrom node follow links (if isAbsolute target then [] else dir)
          (components target ++ rest)

/-- How many links a path may lead through. -/
def maxLinks : ℕ := 40

namespace Fs

/-- The canonical path of what a path names. -/
def resolve (fs : Fs) (follow : Bool) (path : Path) : Except Errno Path :=
  if pathMax < textLength path then .error .nameTooLong
  else resolveFrom fs.node follow maxLinks [] path

/-! ## Calls -/

/-- Put a node under a canonical path, or take it away. -/
def set (fs : Fs) (path : Path) (n : Option Node) : Fs where
  node := fun q => if q = path then n else fs.node q
  touched := fs.touched ++ [path]

/-- Create a file, or replace the content of one. -/
def write (fs : Fs) (path : Path) (content : List UInt8) : Except Errno Unit × Fs :=
  match fs.resolve true path with
  | .error e => (.error e, fs)
  | .ok p =>
    match fs.node p with
    | some .dir => (.error .isDirectory, fs)
    | some (.file _ executable) => (.ok (), fs.set p (some (.file content executable)))
    | some (.symlink _) => (.error .loop, fs)
    | none => (.ok (), fs.set p (some (.file content false)))

/-- Make a file executable. -/
def setExecutable (fs : Fs) (path : Path) : Except Errno Unit × Fs :=
  match fs.resolve true path with
  | .error e => (.error e, fs)
  | .ok p =>
    match fs.node p with
    | some (.file content _) => (.ok (), fs.set p (some (.file content true)))
    | some n => (.ok (), fs.set p (some n))
    | none => (.error .noEntry, fs)

/-- Does a path name something, links followed? -/
def pathExists (fs : Fs) (path : Path) : Bool :=
  match fs.resolve true path with
  | .error _ => false
  | .ok p => (fs.node p).isSome

/-- Does a path name a link? -/
def isSymlink (fs : Fs) (path : Path) : Bool :=
  match fs.resolve false path with
  | .error _ => false
  | .ok p =>
    match fs.node p with
    | some (.symlink _) => true
    | _ => false

/-- Does a path name a directory, links followed? -/
def isDir (fs : Fs) (path : Path) : Bool :=
  match fs.resolve true path with
  | .error _ => false
  | .ok p => decide (fs.node p = some .dir)

/-- Remove a file or a link. -/
def removeFile (fs : Fs) (path : Path) : Except Errno Unit × Fs :=
  match fs.resolve false path with
  | .error e => (.error e, fs)
  | .ok p =>
    match fs.node p with
    | none => (.error .noEntry, fs)
    | some .dir => (.error .isDirectory, fs)
    | some _ => (.ok (), fs.set p none)

/-- Create a link with the text `target`. -/
def symlink (fs : Fs) (target : String) (path : Path) : Except Errno Unit × Fs :=
  if target.toList.contains '\x00' then (.error .containsNul, fs)
  else if target = "" then (.error .noEntry, fs)
  else if pathMax < target.utf8ByteSize then (.error .nameTooLong, fs)
  else
    match fs.resolve false path with
    | .error e => (.error e, fs)
    | .ok p =>
      match fs.node p with
      | some _ => (.error .exists, fs)
      | none => (.ok (), fs.set p (some (.symlink target)))

/-- Create a directory. -/
def createDir (fs : Fs) (path : Path) : Except Errno Unit × Fs :=
  match fs.resolve false path with
  | .error e => (.error e, fs)
  | .ok p =>
    match fs.node p with
    | some _ => (.error .exists, fs)
    | none => (.ok (), fs.set p (some .dir))

/-- Create a directory whose parent exists, unless there is one. -/
def createOrFind (fs : Fs) (path : Path) : Except Errno Unit × Fs :=
  match fs.createDir path with
  | (.ok (), fs) => (.ok (), fs)
  | (.error e, fs) => if fs.isDir path then (.ok (), fs) else (.error e, fs)

/-- Create a directory and all its parents; the path is given from its end. -/
def createDirAllRev : List String → Fs → Except Errno Unit × Fs
  | [], fs => (.ok (), fs)
  | c :: parent, fs =>
    match fs.createDir (c :: parent).reverse with
    | (.error .noEntry, fs) =>
      match createDirAllRev parent fs with
      | (.error e, fs) => (.error e, fs)
      | (.ok (), fs) => fs.createOrFind (c :: parent).reverse
    | (.ok (), fs) => (.ok (), fs)
    | (.error e, fs) => if fs.isDir (c :: parent).reverse then (.ok (), fs) else (.error e, fs)

/-- Create a directory and all its parents. -/
def createDirAll (fs : Fs) (path : Path) : Except Errno Unit × Fs := createDirAllRev path.reverse fs

end Fs

/-! ## Paths of directories -/

section

/-- A path that consists of directories, each under its own name. -/
structure Rooted (fs : Fs) (path : Path) : Prop where
  dirs : ∀ q, q <+: path → fs.node q = some .dir
  plain : ∀ c ∈ path, Plain c

variable {fs fs' fs'' : Fs} {dir : Path} {c : String}

theorem walk_dirs {node : Path → Option Node} {follow : Bool} {cur l rest : List String}
    (hdirs : ∀ q, q <+: l → q ≠ [] → node (cur ++ q) = some .dir) (hplain : ∀ c ∈ l, Plain c) :
    walk node follow cur (l ++ rest) =
      if ∀ c ∈ l, c.utf8ByteSize ≤ nameMax then walk node follow (cur ++ l) rest
      else .failed .nameTooLong := by
  induction l generalizing cur with
  | nil => rw [append_nil, nil_append, if_pos (forall_mem_nil _)]
  | cons c l ih =>
    obtain ⟨h1, h2, h3⟩ := hplain c mem_cons_self
    rw [cons_append, walk, if_neg (by simp [h1, h2]), if_neg h3]
    by_cases hlong : nameMax < c.utf8ByteSize
    · rw [if_pos hlong, if_neg fun h => Nat.not_le.2 hlong (h c mem_cons_self)]
    have hdir : node (cur ++ [c]) = some .dir :=
      hdirs [c] (List.prefix_cons_inj c |>.2 List.nil_prefix) (cons_ne_nil c [])
    have hrest : walk node follow (cur ++ [c]) (l ++ rest) =
        if ∀ c ∈ l, c.utf8ByteSize ≤ nameMax then walk node follow (cur ++ [c] ++ l) rest
        else .failed .nameTooLong := by
      refine ih (fun q hq hne => ?_) fun d hd => hplain d (mem_cons_of_mem c hd)
      have := hdirs (c :: q) ((List.prefix_cons_inj c).2 hq) (cons_ne_nil c q)
      rwa [append_cons] at this
    rw [if_neg hlong, hdir, hrest, append_assoc, singleton_append]
    simp only [forall_mem_cons, Nat.not_lt.1 hlong, true_and]

/-- There is no link. -/
def NoLink (n : Option Node) : Prop := ∀ target, n ≠ some (.symlink target)

theorem noLink_none : NoLink none := fun _ h => by cases h

theorem noLink_file (content : List UInt8) (executable : Bool) :
    NoLink (some (.file content executable)) := fun _ h => by cases h

/-- **A path right below a directory names what it seems to name**, unless it is too long,
or there is a link and it is followed. -/
theorem resolve_child (h : Rooted fs dir) (hc : Plain c) {follow : Bool}
    (hlink : follow = false ∨ NoLink (fs.node (dir ++ [c]))) :
    fs.resolve follow (dir ++ [c]) =
      if Short (dir ++ [c]) then .ok (dir ++ [c]) else .error .nameTooLong := by
  obtain ⟨h1, h2, h3⟩ := hc
  rw [Fs.resolve]
  by_cases htext : pathMax < textLength (dir ++ [c])
  · rw [if_pos htext, if_neg fun hshort => Nat.not_le.2 htext hshort.text]
  have hwalk : walk fs.node follow [] (dir ++ [c]) =
      if ∀ c ∈ dir, c.utf8ByteSize ≤ nameMax then walk fs.node follow dir [c]
      else .failed .nameTooLong := by
    have := @walk_dirs fs.node follow [] dir [c] (fun q hq _ => h.dirs q hq) h.plain
    rwa [nil_append] at this
  rw [if_neg htext, resolveFrom, hwalk]
  by_cases hnames : ∀ c ∈ dir, c.utf8ByteSize ≤ nameMax
  swap
  · rw [if_neg hnames, if_neg fun hshort : Short (dir ++ [c]) =>
      hnames fun d hd => hshort.names d (mem_append_left _ hd)]
  rw [if_pos hnames, walk, if_neg (by simp [h1, h2]), if_neg h3]
  by_cases hlong : nameMax < c.utf8ByteSize
  · rw [if_pos hlong, if_neg fun hshort : Short (dir ++ [c]) =>
      Nat.not_le.2 hlong (hshort.names c mem_concat_self)]
  have hshort : Short (dir ++ [c]) :=
    ⟨Nat.not_lt.1 htext, forall_mem_append.2 ⟨hnames, forall_mem_singleton.2 (Nat.not_lt.1 hlong)⟩⟩
  rw [if_neg hlong, if_pos hshort]
  -- whatever is there, the last component is the end, but for a link that is followed
  cases hnode : fs.node (dir ++ [c]) with
  | none => rfl
  | some n =>
    cases n with
    | dir => rfl
    | file => rfl
    | symlink target =>
      rcases hlink with hf | hne
      · simp only [hf, and_self, if_true]
      · exact absurd hnode (hne target)

/-! ## What has changed -/

/-- Nothing has changed but strictly below a directory. -/
structure Within (dir : Path) (fs fs' : Fs) : Prop where
  node : ∀ q, ¬ (dir <+: q ∧ q ≠ dir) → fs'.node q = fs.node q
  touched : ∃ l, fs'.touched = fs.touched ++ l ∧ ∀ p ∈ l, dir <+: p

namespace Within

theorem refl (dir : Path) (fs : Fs) : Within dir fs fs :=
  ⟨fun _ _ => rfl, [], (append_nil _).symm, nofun⟩

theorem trans (h : Within dir fs fs') (h' : Within dir fs' fs'') : Within dir fs fs'' := by
  obtain ⟨l, hl, hin⟩ := h.touched
  obtain ⟨l', hl', hin'⟩ := h'.touched
  refine ⟨fun q hq => (h'.node q hq).trans (h.node q hq), l ++ l', ?_, fun p hp => ?_⟩
  · rw [hl', hl, append_assoc]
  · exact (mem_append.1 hp).elim (hin p) (hin' p)

theorem of_child (h : Within (dir ++ [c]) fs fs') : Within dir fs fs' := by
  have hparent : dir <+: dir ++ [c] := List.prefix_append dir [c]
  obtain ⟨l, hl, hin⟩ := h.touched
  refine ⟨fun q hq => h.node q fun hbelow => hq ⟨hparent.trans hbelow.1, ?_⟩, l, hl,
    fun p hp => hparent.trans (hin p hp)⟩
  rintro rfl
  have hlen := hbelow.1.length_le
  rw [length_append, length_singleton] at hlen
  exact Nat.not_succ_le_self _ hlen

theorem set_child (fs : Fs) (dir : Path) (c : String) (n : Option Node) :
    Within dir fs (fs.set (dir ++ [c]) n) := by
  refine ⟨fun q hq => if_neg ?_, [dir ++ [c]], rfl, fun p hp => ?_⟩
  · rintro rfl
    exact hq ⟨List.prefix_append dir [c], by simp⟩
  · rw [mem_singleton.1 hp]
    exact List.prefix_append dir [c]

theorem rooted (h : Within dir fs fs') (hr : Rooted fs dir) : Rooted fs' dir := by
  refine ⟨fun q hq => ?_, hr.plain⟩
  rw [h.node q, hr.dirs q hq]
  rintro ⟨hdir, hne⟩
  exact hne (hq.eq_of_length_le hdir.length_le)

end Within

theorem Rooted.child (h : Rooted fs dir) (hc : Plain c) (hdir : fs.node (dir ++ [c]) = some .dir) :
    Rooted fs (dir ++ [c]) := by
  refine ⟨fun q hq => ?_, fun d hd => ?_⟩
  · rcases List.prefix_concat_iff.1 hq with rfl | hq
    · exact hdir
    · exact h.dirs q hq
  rcases mem_append.1 hd with hd | hd
  · exact h.plain d hd
  · rw [mem_singleton.1 hd]
    exact hc

/-! ## What has stayed beside a path -/

/-- Nothing has changed but at a path and below it. -/
def SameBut (path : Path) (fs fs' : Fs) : Prop := ∀ q, ¬ path <+: q → fs'.node q = fs.node q

theorem SameBut.trans {path : Path} (h : SameBut path fs fs') (h' : SameBut path fs' fs'') :
    SameBut path fs fs'' :=
  fun q hq => (h' q hq).trans (h q hq)

theorem SameBut.set (fs : Fs) (path : Path) (n : Option Node) :
    SameBut path fs (fs.set path n) := by
  intro q hq
  refine if_neg ?_
  rintro rfl
  exact hq (List.prefix_refl q)

theorem SameBut.of_child (h : SameBut (dir ++ [c]) fs fs') : SameBut dir fs fs' :=
  fun q hq => h q fun hchild => hq ((List.prefix_append dir [c]).trans hchild)

theorem SameBut.rooted (h : SameBut (dir ++ [c]) fs fs') (hroot : Rooted fs dir) :
    Rooted fs' dir := by
  refine ⟨fun q hq => ?_, hroot.plain⟩
  rw [h q, hroot.dirs q hq]
  intro hchild
  have hlen := hchild.length_le.trans hq.length_le
  rw [length_append, length_singleton] at hlen
  exact Nat.not_succ_le_self _ hlen

theorem not_prefix_sibling {c' : String} (hne : c' ≠ c) (path : Path) :
    ¬ dir ++ [c] <+: dir ++ c' :: path := by
  rintro ⟨rest, hrest⟩
  rw [append_assoc, append_cancel_left_eq] at hrest
  exact hne (List.cons.inj hrest).1.symm

/-! ## Calls right below a directory -/

/-- A call that changes one place, or fails. -/
def SetsOrFails (fs : Fs) (path : Path) (n : Option Node) (r : Except Errno Unit × Fs) : Prop :=
  r = (.ok (), fs.set path n) ∨ ∃ e, r = (.error e, fs)

/-- A directory in a place, created unless there is one. -/
def Fs.dirAt (fs : Fs) (path : Path) : Except Errno Unit × Fs :=
  match fs.node path with
  | none => (.ok (), fs.set path (some .dir))
  | some .dir => (.ok (), fs)
  | some _ => (.error .exists, fs)

variable (h : Rooted fs dir)

include h

variable (hc : Plain c)

include hc

theorem write_child (hlink : NoLink (fs.node (dir ++ [c]))) (content : List UInt8) :
    ∃ executable, SetsOrFails fs (dir ++ [c]) (some (.file content executable))
      (fs.write (dir ++ [c]) content) := by
  rw [Fs.write, resolve_child h hc (Or.inr hlink)]
  by_cases hshort : Short (dir ++ [c])
  swap
  · rw [if_neg hshort]
    exact ⟨false, .inr ⟨_, rfl⟩⟩
  rw [if_pos hshort]
  dsimp only
  cases hnode : fs.node (dir ++ [c]) with
  | none => exact ⟨false, .inl rfl⟩
  | some n =>
    cases n with
    | dir => exact ⟨false, .inr ⟨_, rfl⟩⟩
    | file => exact ⟨_, .inl rfl⟩
    | symlink target => exact absurd hnode (hlink target)

theorem setExecutable_child (hlink : NoLink (fs.node (dir ++ [c]))) :
    ∃ n, NoLink n ∧ SetsOrFails fs (dir ++ [c]) n (fs.setExecutable (dir ++ [c])) := by
  rw [Fs.setExecutable, resolve_child h hc (Or.inr hlink)]
  by_cases hshort : Short (dir ++ [c])
  swap
  · rw [if_neg hshort]
    exact ⟨none, noLink_none, .inr ⟨_, rfl⟩⟩
  rw [if_pos hshort]
  dsimp only
  split
  · exact ⟨_, noLink_file _ _, .inl rfl⟩
  · rename_i n _ hnode
    exact ⟨some n, hnode ▸ hlink, .inl rfl⟩
  · exact ⟨none, noLink_none, .inr ⟨_, rfl⟩⟩

theorem removeFile_child : SetsOrFails fs (dir ++ [c]) none (fs.removeFile (dir ++ [c])) := by
  rw [Fs.removeFile, resolve_child h hc (Or.inl rfl)]
  by_cases hshort : Short (dir ++ [c])
  swap
  · rw [if_neg hshort]
    exact .inr ⟨_, rfl⟩
  rw [if_pos hshort]
  dsimp only
  split
  · exact .inr ⟨_, rfl⟩
  · exact .inr ⟨_, rfl⟩
  · exact .inl rfl

theorem symlink_child (target : String) :
    SetsOrFails fs (dir ++ [c]) (some (.symlink target)) (fs.symlink target (dir ++ [c])) := by
  rw [Fs.symlink, resolve_child h hc (Or.inl rfl)]
  split
  · exact .inr ⟨_, rfl⟩
  split
  · exact .inr ⟨_, rfl⟩
  split
  · exact .inr ⟨_, rfl⟩
  by_cases hshort : Short (dir ++ [c])
  swap
  · rw [if_neg hshort]
    exact .inr ⟨_, rfl⟩
  rw [if_pos hshort]
  dsimp only
  split
  · exact .inr ⟨_, rfl⟩
  · exact .inl rfl

theorem symlink_fails {target : String} (hnot : ¬ (Short (dir ++ [c]) ∧ LinkText target)) :
    ∃ e, fs.symlink target (dir ++ [c]) = (.error e, fs) := by
  rw [Fs.symlink, resolve_child h hc (Or.inl rfl)]
  split
  · exact ⟨_, rfl⟩
  rename_i hnul
  split
  · exact ⟨_, rfl⟩
  rename_i hempty
  split
  · exact ⟨_, rfl⟩
  rename_i hlen
  have hlong : ¬ Short (dir ++ [c]) := fun hshort =>
    hnot ⟨hshort, hempty, Bool.not_eq_true _ ▸ hnul, Nat.not_lt.1 hlen⟩
  rw [if_neg hlong]
  exact ⟨_, rfl⟩

/-- **Where there is no link, a directory is created or found**, or a file is in the way. -/
theorem createDirAll_child (hlink : NoLink (fs.node (dir ++ [c]))) :
    fs.createDirAll (dir ++ [c]) =
      if Short (dir ++ [c]) then fs.dirAt (dir ++ [c]) else (.error .nameTooLong, fs) := by
  have hresolve := fun follow : Bool =>
    resolve_child h hc (Or.inr hlink : follow = false ∨ NoLink (fs.node (dir ++ [c])))
  rw [Fs.createDirAll, reverse_concat, Fs.createDirAllRev, reverse_cons, reverse_reverse,
    Fs.createDir, hresolve]
  by_cases hshort : Short (dir ++ [c])
  swap
  · simp only [Fs.isDir, hresolve, if_neg hshort, Bool.false_eq_true, if_false]
  rw [if_pos hshort, if_pos hshort, Fs.dirAt]
  cases hnode : fs.node (dir ++ [c]) with
  | none => simp only [hnode]
  | some n =>
    cases n with
    | dir => simp only [Fs.isDir, hresolve, if_pos hshort, hnode, decide_true, if_true]
    | file => simp [Fs.isDir, hresolve, hshort, hnode]
    | symlink target => exact absurd hnode (hlink target)

/-! ## Calls where there is nothing -/

section Nothing

variable (hnone : fs.node (dir ++ [c]) = none)

include hnone

theorem resolve_none (follow : Bool) : fs.resolve follow (dir ++ [c]) =
    if Short (dir ++ [c]) then .ok (dir ++ [c]) else .error .nameTooLong :=
  resolve_child h hc (Or.inr (hnone ▸ noLink_none))

theorem write_none (content : List UInt8) :
    fs.write (dir ++ [c]) content =
      if Short (dir ++ [c]) then (.ok (), fs.set (dir ++ [c]) (some (.file content false)))
      else (.error .nameTooLong, fs) := by
  by_cases hshort : Short (dir ++ [c])
  · simp only [Fs.write, resolve_none h hc hnone, if_pos hshort, hnone]
  · simp only [Fs.write, resolve_none h hc hnone, if_neg hshort]

theorem symlink_none {target : String} (hshort : Short (dir ++ [c])) (htext : LinkText target) :
    fs.symlink target (dir ++ [c]) = (.ok (), fs.set (dir ++ [c]) (some (.symlink target))) := by
  obtain ⟨hempty, hnul, hlen⟩ := htext
  simp only [Fs.symlink, hnul, Bool.false_eq_true, if_false, if_neg hempty,
    if_neg (Nat.not_lt.2 hlen), resolve_none h hc hnone, if_pos hshort, hnone]

theorem pathExists_none : fs.pathExists (dir ++ [c]) = false := by
  rw [Fs.pathExists, resolve_none h hc hnone]
  by_cases hshort : Short (dir ++ [c])
  · simp only [if_pos hshort, hnone, Option.isSome_none]
  · simp only [if_neg hshort]

theorem isSymlink_none : fs.isSymlink (dir ++ [c]) = false := by
  rw [Fs.isSymlink, resolve_none h hc hnone]
  by_cases hshort : Short (dir ++ [c])
  · simp only [if_pos hshort, hnone]
  · simp only [if_neg hshort]

end Nothing

theorem setExecutable_file (hshort : Short (dir ++ [c])) {content : List UInt8}
    {executable : Bool} (hfile : fs.node (dir ++ [c]) = some (.file content executable)) :
    fs.setExecutable (dir ++ [c]) = (.ok (), fs.set (dir ++ [c]) (some (.file content true))) := by
  have hlink : NoLink (fs.node (dir ++ [c])) := hfile ▸ noLink_file _ _
  simp only [Fs.setExecutable, resolve_child h hc (Or.inr hlink), if_pos hshort, hfile]

end

end Brokkr.Posix
