import Brokkr.Worker.Inode

/-!
# Reading through the mount

`fuse/mount.rs`: `read` answers from a memory mapping of the file in the mount's cache
directory.  Each inode has a cell for its mapping.  The first read of an inode fills the
cell: it fetches the blob, writes it to the file named by the digest's hash and maps it
(`fetch_and_mmap`).  Other reads of the inode wait for the cell, and a failure leaves it
empty for the next.

* `BrokkrFs` — the mount with all reads under way; `step` is one step of one of them, with
  what the system and the CAS answer, `run` any interleaving.
* `Advance` — all that a step can do; `advance_spec`.
* `Sound` — the invariant, as long as no two of the files that are read have one hash; the
  step is `Sound.step`.
* `mapped_files_immutable` — then a file that has been mapped is not modified again.
* `mapped_and_truncated` — the cells are by inode and the files by hash: a second file with
  the same content cuts the file that is mapped for the first.
-/

namespace Brokkr.Worker

open Option

open Blobs List

/-! ## The mount -/

/-- What is done to the cache directory. -/
inductive CacheEvent where
  | truncated (path : String)
  | written (path : String)
  | mapped (path : String)
  deriving DecidableEq

/-- Does an event change a file? -/
def CacheEvent.modifies (path : String) : CacheEvent → Bool
  | .truncated p => p == path
  | .written p => p == path
  | .mapped _ => false

/-- The errors a read replies. -/
inductive Errno where
  | enoent
  | eisdir
  | eio
  deriving DecidableEq

/-- How a read ends. -/
inductive Reply where
  | error (errno : Errno)
  | data (bytes : Bytes)
  deriving DecidableEq

/-- A memory mapping of a file. -/
structure Mmap where
  path : String
  len : ℕ
  deriving DecidableEq

/-- The cell of an inode, a `OnceCell`. -/
inductive Cell where
  | empty
  | busy (task : ℕ)
  | ready (mmap : Mmap)
  deriving DecidableEq

/-- Where a reading is. -/
inductive Stage where
  | slot
  | acquire
  | fetch
  | create (bytes : Bytes)
  | write (bytes : Bytes) (pos : ℕ)
  | openFile
  | map
  | store (mmap : Mmap)
  | copy (mmap : Mmap)
  | replied (reply : Reply)

/-- A read of a file. -/
structure Reading where
  ino : ℕ
  offset : ℕ
  size : ℕ
  digest : Digest
  fileSize : ℕ
  stage : Stage

/-- The reading at another stage. -/
def Reading.goto (r : Reading) (stage : Stage) : Reading := { r with stage }

/-- The name of the file in the cache directory. -/
def Reading.path (r : Reading) : String := r.digest.hash

/-- What is answered to a step of a reading. -/
inductive Answer where
  | failed
  | done
  | blob (bytes : Bytes)
  | wrote (n : ℕ)

/-- The bytes of a page of memory. -/
def pageSize : ℕ := 4096

/-- How many fetches there are at a time. -/
def defaultFetchConcurrency : ℕ := 16

/-- A mount, its cache directory and the reads that were requested. -/
structure BrokkrFs where
  table : InodeTable
  slots : List Cell
  permits : ℕ
  files : OrdMap String Bytes
  tasks : List (Except Errno Reading)
  trace : List CacheEvent

variable {fs : BrokkrFs} {ino : ℕ}

/-- The mount as it is first served. -/
def mount (table : InodeTable) : BrokkrFs where
  table := table
  slots := List.replicate table.len .empty
  permits := defaultFetchConcurrency
  files := ∅
  tasks := []
  trace := []

namespace BrokkrFs

/-- The cell of an inode. -/
def slot (fs : BrokkrFs) (ino : ℕ) : Option Cell := if ino = 0 then none else fs.slots[ino - 1]?

/-- Change the cell of an inode. -/
def setSlot (fs : BrokkrFs) (ino : ℕ) (cell : Cell) : BrokkrFs :=
  { fs with slots := fs.slots.set (ino - 1) cell }

/-- Change a reading. -/
def put (fs : BrokkrFs) (k : ℕ) (r : Reading) : BrokkrFs :=
  { fs with tasks := fs.tasks.set k (.ok r) }

/-- Note what was done to the cache directory. -/
def note (fs : BrokkrFs) (event : CacheEvent) : BrokkrFs := { fs with trace := fs.trace ++ [event] }

/-- Change a file of the cache directory. -/
def modify (fs : BrokkrFs) (path : String) (bytes : Bytes) (event : CacheEvent) : BrokkrFs :=
  { fs.note event with files := fs.files.insert path bytes }

/-- The bytes of a file. -/
def contents (fs : BrokkrFs) (path : String) : Bytes := (fs.files.get? path).getD []

/-- `read`, up to its cell. -/
def read (fs : BrokkrFs) (ino offset size : ℕ) : Except Errno Reading :=
  match fs.table.get ino with
  | none => .error .enoent
  | some inode =>
    match inode.kind with
    | .file digest fileSize _ =>
      match fs.slot ino with
      | none => .error .enoent
      | some _ => .ok ⟨ino, offset, size, digest, fileSize, .slot⟩
    | _ => .error .eisdir

/-- The end of `read`: the bytes that are asked for, as far as the mapping reaches, are handed
to `writev`.  Where the file has become too short for its mapping, `writev` finds zeros up to
the end of the file's last page, and fails behind it. -/
def reply (fs : BrokkrFs) (mmap : Mmap) (offset size : ℕ) : Reply :=
  let start := min offset mmap.len
  let stop := min (start + size) mmap.len
  let data := fs.contents mmap.path
  let pages := (data.length + pageSize - 1) / pageSize
  if start < stop ∧ pages * pageSize < stop then .error .eio
  else .data (((data ++ List.replicate (stop - data.length) 0).take stop).drop start)

/-- Filling the cell has failed. -/
def fail (fs : BrokkrFs) (k : ℕ) (r : Reading) : BrokkrFs :=
  ({ fs.setSlot r.ino .empty with permits := fs.permits + 1 }).put k
    (r.goto (.replied (.error .eio)))

/-- A call that returns nothing of interest. -/
def call (fs : BrokkrFs) (k : ℕ) (r : Reading) (answer : Answer) (next : BrokkrFs) : BrokkrFs :=
  match answer with
  | .done => next
  | .failed => fs.fail k r
  | _ => fs

/-- `get_or_try_init`: take the mapping, or begin to fill the cell, or wait. -/
def enter (fs : BrokkrFs) (k : ℕ) (r : Reading) : BrokkrFs :=
  match fs.slot r.ino with
  | some .empty => (fs.setSlot r.ino (.busy k)).put k (r.goto .acquire)
  | some (.ready mmap) => fs.put k (r.goto (.copy mmap))
  | _ => fs

/-- The blob arrives. -/
def fetched (fs : BrokkrFs) (k : ℕ) (r : Reading) (answer : Answer) : BrokkrFs :=
  match answer with
  | .blob bytes =>
    if bytes.length = r.fileSize then fs.put k (r.goto (.create bytes)) else fs.fail k r
  | .failed => fs.fail k r
  | _ => fs

/-- Write bytes at a position; a gap is filled with zeros. -/
def writeAt (data : Bytes) (pos : ℕ) (bytes : Bytes) : Bytes :=
  data.take pos ++ List.replicate (pos - data.length) 0 ++ bytes ++ data.drop (pos + bytes.length)

/-- `write_all`: writes until all bytes are written.  A write of nothing is an error. -/
def writeAll (fs : BrokkrFs) (k : ℕ) (r : Reading) (bytes : Bytes) (pos : ℕ) (answer : Answer) :
    BrokkrFs :=
  if bytes.length ≤ pos then fs.put k (r.goto .openFile)
  else
    match answer with
    | .wrote 0 => fs.fail k r
    | .wrote n =>
      let chunk := (bytes.drop pos).take n
      (fs.modify r.path (writeAt (fs.contents r.path) pos chunk) (.written r.path)).put k
        (r.goto (.write bytes (pos + chunk.length)))
    | .failed => fs.fail k r
    | _ => fs

/-- A step of a reading. -/
def advance (fs : BrokkrFs) (k : ℕ) (r : Reading) (answer : Answer) : BrokkrFs :=
  match r.stage with
  | .slot => fs.enter k r
  | .acquire =>
    if fs.permits = 0 then fs
    else ({ fs with permits := fs.permits - 1 }).put k (r.goto .fetch)
  | .fetch => fs.fetched k r answer
  | .create bytes =>
    fs.call k r answer
      ((fs.modify r.path [] (.truncated r.path)).put k (r.goto (.write bytes 0)))
  | .write bytes pos => fs.writeAll k r bytes pos answer
  | .openFile => fs.call k r answer (fs.put k (r.goto .map))
  | .map =>
    fs.call k r answer
      ((fs.note (.mapped r.path)).put k
        (r.goto (.store ⟨r.path, (fs.contents r.path).length⟩)))
  | .store mmap =>
    ({ fs.setSlot r.ino (.ready mmap) with permits := fs.permits + 1 }).put k
      (r.goto (.copy mmap))
  | .copy mmap => fs.put k (r.goto (.replied (fs.reply mmap r.offset r.size)))
  | .replied _ => fs

end BrokkrFs

/-- A read is requested, or one that was requested takes a step. -/
inductive Action where
  | read (ino offset size : ℕ)
  | advance (k : ℕ) (answer : Answer)

namespace BrokkrFs

/-- One step. -/
def step (fs : BrokkrFs) : Action → BrokkrFs
  | .read ino offset size => { fs with tasks := fs.tasks ++ [fs.read ino offset size] }
  | .advance k answer =>
    match fs.tasks[k]? with
    | some (.ok r) => fs.advance k r answer
    | _ => fs

/-- Any number of steps. -/
def run (fs : BrokkrFs) (actions : List Action) : BrokkrFs := actions.foldl step fs

/-- What a read was replied. -/
def replyOf (fs : BrokkrFs) (k : ℕ) : Option Reply :=
  match fs.tasks[k]? with
  | some (.error errno) => some (.error errno)
  | some (.ok r) =>
    match r.stage with
    | .replied reply => some reply
    | _ => none
  | none => none

/-- There is a mapping of the file: in a cell, or on its way into one.  Cells are not emptied
any more then, so that the mapping lives as long as the mount. -/
def Mapped (fs : BrokkrFs) (path : String) : Prop :=
  (∃ ino mmap, fs.slot ino = some (.ready mmap) ∧ mmap.path = path) ∨
    ∃ (k : ℕ) (r : Reading) (mmap : Mmap),
      fs.tasks[k]? = some (.ok r) ∧ r.stage = .store mmap ∧ mmap.path = path

end BrokkrFs

/-- The hash of the file at an inode. -/
def InodeTable.hashAt (table : InodeTable) (ino : ℕ) : Option String :=
  match table.get ino with
  | some ⟨_, .file digest _ _⟩ => some digest.hash
  | _ => none

/-- No two of the inodes are files with one hash. -/
def Apart (table : InodeTable) (read : ℕ → Prop) : Prop :=
  ∀ i j hash, read i → read j → table.hashAt i = some hash → table.hashAt j = some hash → i = j

/-- A read is requested of an inode. -/
def Requested (actions : List Action) (ino : ℕ) : Prop :=
  ∃ offset size, Action.read ino offset size ∈ actions

/-! ## What a step can do -/

/-- The reading fills the cell of its inode, and has not mapped the file yet. -/
def Stage.filling : Stage → Bool
  | .acquire => true
  | .fetch => true
  | .create _ => true
  | .write _ _ => true
  | .openFile => true
  | .map => true
  | _ => false

/-- What a step of a reading can do. -/
inductive Advance (fs : BrokkrFs) (k : ℕ) (r : Reading) : BrokkrFs → Prop where
  | wait : Advance fs k r fs
  | claim (hstage : r.stage = .slot) (hslot : fs.slot r.ino = some .empty) :
      Advance fs k r ((fs.setSlot r.ino (.busy k)).put k (r.goto .acquire))
  | serve {mmap : Mmap} (hstage : r.stage = .slot) (hslot : fs.slot r.ino = some (.ready mmap)) :
      Advance fs k r (fs.put k (r.goto (.copy mmap)))
  | reply {mmap : Mmap} (hstage : r.stage = .copy mmap) :
      Advance fs k r (fs.put k (r.goto (.replied (fs.reply mmap r.offset r.size))))
  | work {stage : Stage} (hstage : r.stage.filling = true) (hnext : stage.filling = true)
      (permits : ℕ) : Advance fs k r (({ fs with permits }).put k (r.goto stage))
  | modify {stage : Stage} {event : CacheEvent} (hstage : r.stage.filling = true)
      (hnext : stage.filling = true)
      (hevent : event = .truncated r.path ∨ event = .written r.path) (bytes : Bytes) :
      Advance fs k r ((fs.modify r.path bytes event).put k (r.goto stage))
  | fail (hstage : r.stage.filling = true) : Advance fs k r (fs.fail k r)
  | map (hstage : r.stage = .map) :
      Advance fs k r ((fs.note (.mapped r.path)).put k
        (r.goto (.store ⟨r.path, (fs.contents r.path).length⟩)))
  | store {mmap : Mmap} (hstage : r.stage = .store mmap) :
      Advance fs k r (({ fs.setSlot r.ino (.ready mmap) with permits := fs.permits + 1 }).put k
        (r.goto (.copy mmap)))

section Advance

variable {next : BrokkrFs} {k : ℕ} {r : Reading}

theorem advance_call (hstage : r.stage.filling = true) (answer : Answer)
    (hnext : Advance fs k r next) : Advance fs k r (fs.call k r answer next) := by
  cases answer with
  | done => exact hnext
  | failed => exact .fail hstage
  | _ => exact .wait

theorem advance_enter (hstage : r.stage = .slot) : Advance fs k r (fs.enter k r) := by
  unfold BrokkrFs.enter
  split
  · rename_i hslot
    exact .claim hstage hslot
  · rename_i mmap hslot
    exact .serve hstage hslot
  · exact .wait

theorem advance_fetched (hstage : r.stage = .fetch) (answer : Answer) :
    Advance fs k r (fs.fetched k r answer) := by
  have hfilling : r.stage.filling = true := by rw [hstage]; rfl
  cases answer with
  | blob =>
    rw [BrokkrFs.fetched]
    split
    · exact .work hfilling rfl fs.permits
    · exact .fail hfilling
  | failed => exact .fail hfilling
  | _ => exact .wait

theorem advance_writeAll {bytes : Bytes} {pos : ℕ} (hstage : r.stage = .write bytes pos)
    (answer : Answer) : Advance fs k r (fs.writeAll k r bytes pos answer) := by
  have hfilling : r.stage.filling = true := by rw [hstage]; rfl
  unfold BrokkrFs.writeAll
  split
  · exact .work hfilling rfl fs.permits
  cases answer with
  | wrote n =>
    cases n with
    | zero => exact .fail hfilling
    | succ => exact .modify hfilling rfl (.inr rfl) _
  | failed => exact .fail hfilling
  | _ => exact .wait

theorem advance_spec (fs : BrokkrFs) (k : ℕ) (r : Reading) (answer : Answer) :
    Advance fs k r (fs.advance k r answer) := by
  unfold BrokkrFs.advance
  split
  · rename_i hstage
    exact advance_enter hstage
  · rename_i hstage
    split
    · exact .wait
    · exact .work (by rw [hstage]; rfl) rfl _
  · rename_i hstage
    exact advance_fetched hstage answer
  · rename_i bytes hstage
    have hfilling : r.stage.filling = true := by rw [hstage]; rfl
    exact advance_call hfilling answer (.modify hfilling rfl (.inl rfl) [])
  · rename_i bytes pos hstage
    exact advance_writeAll hstage answer
  · rename_i hstage
    have hfilling : r.stage.filling = true := by rw [hstage]; rfl
    exact advance_call hfilling answer (.work hfilling rfl fs.permits)
  · rename_i hstage
    exact advance_call (by rw [hstage]; rfl) answer (.map hstage)
  · rename_i mmap hstage
    exact .store hstage
  · rename_i mmap hstage
    exact .reply hstage
  · exact .wait

end Advance

section Slots

variable {other : ℕ} {cell : Cell}

theorem pos_of_slot (h : fs.slot ino = some cell) : 0 < ino := by
  refine Nat.pos_of_ne_zero ?_
  rintro rfl
  cases h

theorem slot_of_pos (h : 0 < ino) : fs.slot ino = fs.slots[ino - 1]? := if_neg (Nat.ne_of_gt h)

theorem slot_setSlot_self (h : fs.slot ino = some cell) (new : Cell) :
    (fs.setSlot ino new).slot ino = some new := by
  have hpos := pos_of_slot h
  rw [slot_of_pos hpos] at h
  rw [slot_of_pos hpos]
  exact getElem?_set_self (List.getElem?_eq_some_iff.1 h).1

theorem slot_setSlot_of_ne (h : fs.slot ino = some cell) (new : Cell) (hne : other ≠ ino) :
    (fs.setSlot ino new).slot other = fs.slot other := by
  rcases Nat.eq_zero_or_pos other with rfl | hother
  · rfl
  have hpos := pos_of_slot h
  rw [slot_of_pos hother, slot_of_pos hother]
  exact getElem?_set_ne (by omega)

end Slots

/-! ## The invariant -/

/-- What is known of a reading at a stage. -/
def Stage.Fits (fs : BrokkrFs) (k : ℕ) (r : Reading) : Stage → Prop
  | .slot | .replied _ => True
  | .store mmap =>
    fs.slot r.ino = some (.busy k) ∧ mmap.path = r.path ∧ (fs.contents mmap.path).length = mmap.len
  | .copy mmap => fs.slot r.ino = some (.ready mmap)
  | _ => fs.slot r.ino = some (.busy k)

theorem Stage.fits_filling {k : ℕ} {r : Reading} {stage : Stage} (h : stage.filling = true) :
    stage.Fits fs k r ↔ fs.slot r.ino = some (.busy k) := by
  cases stage <;> first | exact Iff.rfl | cases h

/-- What holds of the mount if only certain inodes are read. -/
structure Sound (fs : BrokkrFs) (read : ℕ → Prop) : Prop where
  apart : Apart fs.table read
  asked : ∀ {k : ℕ} {r : Reading}, fs.tasks[k]? = some (.ok r) →
    read r.ino ∧ fs.table.hashAt r.ino = some r.path
  fits : ∀ {k : ℕ} {r : Reading}, fs.tasks[k]? = some (.ok r) → r.stage.Fits fs k r
  ready : ∀ {ino : ℕ} {mmap : Mmap}, fs.slot ino = some (.ready mmap) →
    read ino ∧ fs.table.hashAt ino = some mmap.path ∧ (fs.contents mmap.path).length = mmap.len
  mapped : ∀ {path : String}, .mapped path ∈ fs.trace → fs.Mapped path

/-- What happens to a file that is mapped: nothing. -/
structure Kept (path : String) (fs fs' : BrokkrFs) : Prop where
  events : ∃ events, fs'.trace = fs.trace ++ events ∧ ∀ e ∈ events, e.modifies path = false
  file : fs'.files.get? path = fs.files.get? path
  mapped : fs'.Mapped path

theorem Kept.refl {path : String} (h : fs.Mapped path) : Kept path fs fs :=
  ⟨⟨[], (append_nil _).symm, nofun⟩, rfl, h⟩

theorem Kept.trans {path : String} {fs₁ fs₂ fs₃ : BrokkrFs} (h : Kept path fs₁ fs₂)
    (h' : Kept path fs₂ fs₃) : Kept path fs₁ fs₃ := by
  obtain ⟨events, htrace, hevents⟩ := h.events
  obtain ⟨events', htrace', hevents'⟩ := h'.events
  refine ⟨⟨events ++ events', ?_, fun e he => ?_⟩, h'.file.trans h.file, h'.mapped⟩
  · rw [htrace', htrace, append_assoc]
  · exact (mem_append.1 he).elim (hevents e) (hevents' e)

section Steps

variable {fs' : BrokkrFs} {read : ℕ → Prop} {k : ℕ} {r : Reading} {stage : Stage}

theorem Sound.not_mapped (h : Sound fs read) (hk : fs.tasks[k]? = some (.ok r))
    (hstage : r.stage.filling = true) : ¬ fs.Mapped r.path := by
  obtain ⟨hread, hhash⟩ := h.asked hk
  have hbusy : fs.slot r.ino = some (.busy k) := (Stage.fits_filling hstage).1 (h.fits hk)
  rintro (⟨ino, mmap, hready, hpath⟩ | ⟨k', r', mmap, hk', hstore, hpath⟩)
  · obtain ⟨hread', hhash', -⟩ := h.ready hready
    rw [hpath] at hhash'
    rw [h.apart ino r.ino r.path hread' hread hhash' hhash, hbusy] at hready
    cases hready
  obtain ⟨hread', hhash'⟩ := h.asked hk'
  have hfits := h.fits hk'
  rw [hstore] at hfits
  obtain ⟨hbusy', hpath', -⟩ := hfits
  rw [← hpath', hpath] at hhash'
  rw [h.apart r'.ino r.ino r.path hread' hread hhash' hhash, hbusy] at hbusy'
  cases hbusy'
  cases hk.symm.trans hk'
  rw [hstore] at hstage
  cases hstage

/-- A step of a reading that leaves alone what belongs to others. -/
structure Local (fs : BrokkrFs) (k : ℕ) (r : Reading) (stage : Stage) (fs' : BrokkrFs) : Prop where
  table : fs'.table = fs.table
  tasks : fs'.tasks = fs.tasks.set k (.ok (r.goto stage))
  slots : ∀ ino, ino ≠ r.ino → fs'.slot ino = fs.slot ino
  slot : fs'.slot r.ino = fs.slot r.ino ∨ fs.slot r.ino = some .empty ∨
    fs.slot r.ino = some (.busy k)
  filled : ∀ mmap, fs'.slot r.ino = some (.ready mmap) →
    fs.slot r.ino = some (.ready mmap) ∨ r.stage = .store mmap
  stored : ∀ mmap, r.stage = .store mmap → fs'.slot r.ino = some (.ready mmap)
  files : ∀ path, fs.Mapped path → fs'.files.get? path = fs.files.get? path
  events : ∃ events, fs'.trace = fs.trace ++ events ∧
    (∀ e ∈ events, ∀ path, fs.Mapped path → e.modifies path = false) ∧
    ∀ path, .mapped path ∈ events → ∃ len, stage = .store ⟨path, len⟩
  fits : stage.Fits fs' k r

variable (h : Local fs k r stage fs')

include h

theorem Local.slot_kept {cell : Cell} (hcell : fs.slot ino = some cell)
    (hempty : cell ≠ .empty) (hbusy : cell ≠ .busy k) :
    fs'.slot ino = some cell := by
  by_cases hino : ino = r.ino
  · subst hino
    rcases h.slot with heq | heq | heq
    · exact heq.trans hcell
    · exact absurd (some.inj (hcell.symm.trans heq)) hempty
    · exact absurd (some.inj (hcell.symm.trans heq)) hbusy
  · exact (h.slots ino hino).trans hcell

theorem Local.contents {path : String} (hmapped : fs.Mapped path) :
    fs'.contents path = fs.contents path := by
  rw [BrokkrFs.contents, BrokkrFs.contents, h.files path hmapped]

theorem Local.mapped (hk : fs.tasks[k]? = some (.ok r))
    {path : String} (hmapped : fs.Mapped path) : fs'.Mapped path := by
  obtain ⟨ino, mmap, hready, hpath⟩ | ⟨k', r', mmap, hk', hstore, hpath⟩ := hmapped
  · exact .inl ⟨ino, mmap, h.slot_kept hready nofun nofun, hpath⟩
  by_cases hkk : k = k'
  · -- this reading puts its own mapping into the cell
    subst hkk
    cases hk.symm.trans hk'
    exact .inl ⟨r.ino, mmap, h.stored mmap hstore, hpath⟩
  · refine .inr ⟨k', r', mmap, ?_, hstore, hpath⟩
    rw [h.tasks, getElem?_set_ne hkk, hk']

theorem Local.kept (hk : fs.tasks[k]? = some (.ok r))
    {path : String} (hmapped : fs.Mapped path) : Kept path fs fs' := by
  obtain ⟨events, htrace, hevents, -⟩ := h.events
  exact ⟨⟨events, htrace, fun e he => hevents e he path hmapped⟩, h.files path hmapped,
    h.mapped hk hmapped⟩

theorem Local.fits_other {k' : ℕ} {r' : Reading} (hkk : k ≠ k')
    (hk' : fs.tasks[k']? = some (.ok r')) (hfits : r'.stage.Fits fs k' r') :
    r'.stage.Fits fs' k' r' := by
  have hbusy : fs.slot r'.ino = some (.busy k') → fs'.slot r'.ino = some (.busy k') :=
    fun hslot => h.slot_kept hslot nofun fun heq => hkk (Cell.busy.inj heq).symm
  cases hstage : r'.stage with
  | slot | replied => trivial
  | store mmap =>
    rw [hstage] at hfits
    obtain ⟨hslot, hpath, hlen⟩ := hfits
    refine ⟨hbusy hslot, hpath, ?_⟩
    rw [h.contents (.inr ⟨k', r', mmap, hk', hstage, rfl⟩), hlen]
  | copy =>
    rw [hstage] at hfits
    exact h.slot_kept hfits nofun nofun
  | acquire | fetch | create _ | write _ _ | openFile | map =>
    rw [hstage] at hfits
    exact hbusy hfits

omit h

theorem Sound.of_local (h : Sound fs read) (hk : fs.tasks[k]? = some (.ok r))
    (hlocal : Local fs k r stage fs') : Sound fs' read := by
  have hlt : k < fs.tasks.length := (List.getElem?_eq_some_iff.1 hk).1
  have hnew : fs'.tasks[k]? = some (.ok (r.goto stage)) := by
    rw [hlocal.tasks]
    exact getElem?_set_self hlt
  have hold : ∀ {k' : ℕ} {r' : Reading}, k ≠ k' → fs'.tasks[k']? = some (.ok r') →
      fs.tasks[k']? = some (.ok r') := by
    intro k' r' hkk hk'
    rwa [hlocal.tasks, getElem?_set_ne hkk] at hk'
  refine ⟨?_, fun {k' r'} hk' => ?_, fun {k' r'} hk' => ?_, fun {ino mmap} hready => ?_,
    fun {path} hmem => ?_⟩
  · rw [hlocal.table]
    exact h.apart
  · rw [hlocal.table]
    by_cases hkk : k = k'
    · subst hkk
      cases hnew.symm.trans hk'
      show read r.ino ∧ fs.table.hashAt r.ino = some r.path
      exact h.asked hk
    · exact h.asked (hold hkk hk')
  · by_cases hkk : k = k'
    · subst hkk
      cases hnew.symm.trans hk'
      exact hlocal.fits
    · exact hlocal.fits_other hkk (hold hkk hk') (h.fits (hold hkk hk'))
  · rw [hlocal.table]
    have hwas : fs.slot ino = some (.ready mmap) ∨ ino = r.ino ∧ r.stage = .store mmap := by
      by_cases hino : ino = r.ino
      · subst hino
        exact (hlocal.filled mmap hready).imp id fun hstage => ⟨rfl, hstage⟩
      · exact .inl ((hlocal.slots ino hino).symm.trans hready)
    rcases hwas with hwas | ⟨rfl, hstage⟩
    · rw [hlocal.contents (.inl ⟨ino, mmap, hwas, rfl⟩)]
      exact h.ready hwas
    have hfits := h.fits hk
    rw [hstage] at hfits
    obtain ⟨-, hpath, hlen⟩ := hfits
    rw [hlocal.contents (.inr ⟨k, r, mmap, hk, hstage, rfl⟩), hpath, ← hlen, hpath]
    exact ⟨(h.asked hk).1, (h.asked hk).2, rfl⟩
  · obtain ⟨events, htrace, -, hmaps⟩ := hlocal.events
    rw [htrace, mem_append] at hmem
    rcases hmem with hmem | hmem
    · exact hlocal.mapped hk (h.mapped hmem)
    · obtain ⟨len, hstage⟩ := hmaps path hmem
      exact .inr ⟨k, r.goto stage, ⟨path, len⟩, hnew, hstage, rfl⟩

theorem local_put (hnot : ∀ mmap, r.stage ≠ .store mmap) (hfits : stage.Fits fs k r)
    (permits : ℕ) : Local fs k r stage (({ fs with permits }).put k (r.goto stage)) where
  table := rfl
  tasks := rfl
  slots _ _ := rfl
  slot := .inl rfl
  filled _ hready := .inl hready
  stored mmap hstage := absurd hstage (hnot mmap)
  files _ _ := rfl
  events := ⟨[], (append_nil _).symm, nofun, nofun⟩
  fits := by cases stage <;> exact hfits

theorem local_setSlot (hslot : fs.slot r.ino = some .empty ∨ fs.slot r.ino = some (.busy k))
    {cell : Cell} (hready : ∀ mmap, cell = .ready mmap ↔ r.stage = .store mmap)
    (hfits : stage.Fits (fs.setSlot r.ino cell) k r) (permits : ℕ) :
    Local fs k r stage (({ fs.setSlot r.ino cell with permits }).put k (r.goto stage)) := by
  obtain ⟨was, hwas⟩ : ∃ was, fs.slot r.ino = some was := by
    rcases hslot with hslot | hslot <;> exact ⟨_, hslot⟩
  have hself : (fs.setSlot r.ino cell).slot r.ino = some cell := slot_setSlot_self hwas cell
  refine ⟨rfl, rfl, fun ino hino => slot_setSlot_of_ne hwas cell hino, .inr hslot,
    fun mmap hnow => ?_, fun mmap hstage => ?_, fun _ _ => rfl,
    ⟨[], (append_nil _).symm, nofun, nofun⟩, ?_⟩
  · exact .inr ((hready mmap).1 (some.inj (hself.symm.trans hnow)))
  · rw [← (hready mmap).2 hstage]
    exact hself
  · cases stage <;> exact hfits

theorem local_map (hstage : r.stage = .map) (hbusy : fs.slot r.ino = some (.busy k)) :
    Local fs k r (.store ⟨r.path, (fs.contents r.path).length⟩)
      ((fs.note (.mapped r.path)).put k
        (r.goto (.store ⟨r.path, (fs.contents r.path).length⟩))) where
  table := rfl
  tasks := rfl
  slots _ _ := rfl
  slot := .inl rfl
  filled _ hready := .inl hready
  stored mmap hstore := absurd (hstage.symm.trans hstore) nofun
  files _ _ := rfl
  events := by
    refine ⟨[.mapped r.path], rfl, fun e he path _ => ?_, fun path hmem => ?_⟩
    · rw [mem_singleton.1 he]
      rfl
    · cases mem_singleton.1 hmem
      exact ⟨_, rfl⟩
  fits := ⟨hbusy, rfl, rfl⟩

theorem local_modify (hnot : ¬ fs.Mapped r.path) {event : CacheEvent}
    (hevent : event = .truncated r.path ∨ event = .written r.path) (hstage : r.stage.filling = true)
    (hnext : stage.filling = true) (hbusy : fs.slot r.ino = some (.busy k)) (bytes : Bytes) :
    Local fs k r stage ((fs.modify r.path bytes event).put k (r.goto stage)) where
  table := rfl
  tasks := rfl
  slots _ _ := rfl
  slot := .inl rfl
  filled _ hready := .inl hready
  stored mmap hstore := by
    rw [hstore] at hstage
    cases hstage
  files path hmapped := by
    refine OrdMap.get?_insert_of_ne _ _ ?_
    rintro rfl
    exact hnot hmapped
  events := by
    refine ⟨[event], rfl, fun e he path hmapped => ?_, fun path hmem => ?_⟩
    · have hne : r.path ≠ path := by
        rintro rfl
        exact hnot hmapped
      rw [mem_singleton.1 he]
      rcases hevent with rfl | rfl <;> exact beq_eq_false_iff_ne.2 hne
    · rw [← mem_singleton.1 hmem] at hevent
      rcases hevent with hevent | hevent <;> cases hevent
  fits := (Stage.fits_filling hnext).2 hbusy

theorem Sound.local_of_advance (h : Sound fs read) (hk : fs.tasks[k]? = some (.ok r))
    (hstep : Advance fs k r fs') : fs' = fs ∨ ∃ stage, Local fs k r stage fs' := by
  have hfits := h.fits hk
  have hbusy : r.stage.filling = true → fs.slot r.ino = some (.busy k) :=
    fun hstage => (Stage.fits_filling hstage).1 hfits
  have hnot : ∀ {mmap : Mmap}, r.stage.filling = true → r.stage ≠ .store mmap := by
    rintro mmap hstage heq
    rw [heq] at hstage
    cases hstage
  cases hstep with
  | wait => exact .inl rfl
  | claim hstage hslot =>
    have hnext : Stage.acquire.Fits (fs.setSlot r.ino (.busy k)) k r := slot_setSlot_self hslot _
    refine .inr ⟨_, local_setSlot (.inl hslot) (fun mmap => ?_) hnext fs.permits⟩
    rw [hstage]
    exact ⟨nofun, nofun⟩
  | @serve mmap hstage hslot =>
    have hnext : (Stage.copy mmap).Fits fs k r := hslot
    refine .inr ⟨_, local_put (fun mmap => ?_) hnext fs.permits⟩
    rw [hstage]
    exact nofun
  | @reply mmap hstage =>
    have hnext : (Stage.replied (fs.reply mmap r.offset r.size)).Fits fs k r := trivial
    refine .inr ⟨_, local_put (fun mmap => ?_) hnext fs.permits⟩
    rw [hstage]
    exact nofun
  | work hstage hnext permits =>
    exact .inr ⟨_, local_put (fun _ => hnot hstage)
      ((Stage.fits_filling hnext).2 (hbusy hstage)) permits⟩
  | modify hstage hnext hevent bytes =>
    exact .inr ⟨_, local_modify (h.not_mapped hk hstage) hevent hstage hnext (hbusy hstage) bytes⟩
  | fail hstage =>
    have hnext : (Stage.replied (.error .eio)).Fits (fs.setSlot r.ino .empty) k r := trivial
    refine .inr ⟨_, local_setSlot (.inr (hbusy hstage))
      (fun mmap => ⟨fun heq => ?_, fun heq => ?_⟩) hnext (fs.permits + 1)⟩
    · cases heq
    · exact absurd heq (hnot hstage)
  | map hstage => exact .inr ⟨_, local_map hstage (hbusy (by rw [hstage]; rfl))⟩
  | @store mmap hstage =>
    rw [hstage] at hfits
    have hnext : (Stage.copy mmap).Fits (fs.setSlot r.ino (.ready mmap)) k r :=
      slot_setSlot_self hfits.1 _
    refine .inr ⟨_, local_setSlot (.inr hfits.1) (fun mmap' => ?_) hnext (fs.permits + 1)⟩
    rw [hstage, Cell.ready.injEq, Stage.store.injEq]

theorem asked_of_read {offset size : ℕ} (h : fs.read ino offset size = .ok r) :
    r.ino = ino ∧ r.stage = .slot ∧ fs.table.hashAt ino = some r.path := by
  unfold BrokkrFs.read at h
  unfold InodeTable.hashAt
  split at h
  · cases h
  rename_i inode hget
  rw [hget]
  split at h
  · rename_i digest fileSize exec hkind
    obtain ⟨i, kind⟩ := inode
    cases hkind
    split at h
    · cases h
    · cases h
      exact ⟨rfl, rfl, rfl⟩
  · cases h

theorem Sound.request (h : Sound fs read) (hino : read ino) (offset size : ℕ) :
    Sound (fs.step (.read ino offset size)) read ∧
      ∀ path, fs.Mapped path → Kept path fs (fs.step (.read ino offset size)) := by
  have hmapped : ∀ {path}, fs.Mapped path → (fs.step (.read ino offset size)).Mapped path := by
    rintro path (hready | ⟨k', r', mmap, hk', hstore, hpath⟩)
    · exact .inl hready
    · refine .inr ⟨k', r', mmap, ?_, hstore, hpath⟩
      exact (getElem?_append_left (List.getElem?_eq_some_iff.1 hk').1).trans hk'
  -- a reading is an old one or stands at its cell
  have hreading : ∀ {k' : ℕ} {r' : Reading},
      (fs.step (.read ino offset size)).tasks[k']? = some (.ok r') →
      fs.tasks[k']? = some (.ok r') ∨ fs.read ino offset size = .ok r' := by
    intro k' r' hk'
    rcases Nat.lt_or_ge k' fs.tasks.length with hlt | hge
    · exact .inl ((getElem?_append_left hlt).symm.trans hk')
    · exact .inr (mem_singleton.1
        (mem_of_getElem? ((getElem?_append_right hge).symm.trans hk'))).symm
  refine ⟨⟨h.apart, fun hk' => ?_, fun {k' r'} hk' => ?_, h.ready,
    fun hmem => hmapped (h.mapped hmem)⟩,
    fun path hpath => ⟨⟨[], (append_nil _).symm, nofun⟩, rfl, hmapped hpath⟩⟩
  · rcases hreading hk' with hk' | hnew
    · exact h.asked hk'
    · obtain ⟨rfl, -, hhash⟩ := asked_of_read hnew
      exact ⟨hino, hhash⟩
  rcases hreading hk' with hk' | hnew
  · have hfits := h.fits hk'
    cases hstage : r'.stage <;> rw [hstage] at hfits <;> exact hfits
  · rw [(asked_of_read hnew).2.1]
    trivial

theorem Sound.advance (h : Sound fs read) (k : ℕ) (answer : Answer) :
    Sound (fs.step (.advance k answer)) read ∧
      ∀ path, fs.Mapped path → Kept path fs (fs.step (.advance k answer)) := by
  rw [BrokkrFs.step]
  split
  · rename_i r hk
    rcases h.local_of_advance hk (advance_spec fs k r answer) with heq | ⟨stage, hlocal⟩
    · rw [heq]
      exact ⟨h, fun _ hmapped => .refl hmapped⟩
    · exact ⟨h.of_local hk hlocal, fun _ hmapped => hlocal.kept hk hmapped⟩
  · exact ⟨h, fun _ hmapped => .refl hmapped⟩

theorem Sound.step (h : Sound fs read) (action : Action)
    (hread : ∀ ino, Requested [action] ino → read ino) :
    Sound (fs.step action) read ∧ ∀ path, fs.Mapped path → Kept path fs (fs.step action) := by
  cases action with
  | read ino offset size =>
    exact h.request (hread ino ⟨offset, size, mem_singleton.2 rfl⟩) offset size
  | advance k answer => exact h.advance k answer

theorem Sound.run (h : Sound fs read) (actions : List Action)
    (hread : ∀ ino, Requested actions ino → read ino) :
    Sound (fs.run actions) read ∧ ∀ path, fs.Mapped path → Kept path fs (fs.run actions) := by
  induction actions generalizing fs with
  | nil => exact ⟨h, fun _ hmapped => .refl hmapped⟩
  | cons action actions ih =>
    obtain ⟨hstep, hkept⟩ := h.step action fun ino ⟨offset, size, hmem⟩ =>
      hread ino ⟨offset, size, mem_cons.2 (.inl (mem_singleton.1 hmem))⟩
    obtain ⟨hrun, hkept'⟩ := ih hstep fun ino ⟨offset, size, hmem⟩ =>
      hread ino ⟨offset, size, mem_cons_of_mem action hmem⟩
    exact ⟨hrun, fun path hmapped =>
      (hkept path hmapped).trans (hkept' path (hkept path hmapped).mapped)⟩

end Steps

theorem sound_mount {table : InodeTable} {read : ℕ → Prop} (h : Apart table read) :
    Sound (mount table) read := by
  refine ⟨h, nofun, nofun, fun {ino mmap} hready => ?_, nofun⟩
  rw [slot_of_pos (pos_of_slot hready)] at hready
  cases eq_of_mem_replicate (mem_of_getElem? hready)

/-! ## Mapped files -/

/-- Once a file of the cache directory has been mapped, nothing truncates it or writes to it,
the mapping stays, and every mapping that reads copy from is as long as its file, whatever
reads there are and however they interleave — as long as no two files that are read have the
same hash. -/
theorem mapped_files_immutable (table : InodeTable) (actions later : List Action)
    (hapart : Apart table (Requested (actions ++ later))) (path : String)
    (hmapped : .mapped path ∈ ((mount table).run actions).trace) :
    (∃ events, ((mount table).run (actions ++ later)).trace =
        ((mount table).run actions).trace ++ events ∧
      ∀ e ∈ events, e.modifies path = false) ∧
    ((mount table).run (actions ++ later)).files.get? path =
      ((mount table).run actions).files.get? path ∧
    ((mount table).run (actions ++ later)).Mapped path ∧
    ∀ ino mmap, ((mount table).run (actions ++ later)).slot ino = some (.ready mmap) →
      (((mount table).run (actions ++ later)).contents mmap.path).length = mmap.len := by
  have hfirst : Sound ((mount table).run actions) (Requested (actions ++ later)) :=
    ((sound_mount hapart).run actions fun _ ⟨offset, size, hmem⟩ =>
      ⟨offset, size, mem_append_left later hmem⟩).1
  obtain ⟨hsound, hkept⟩ := hfirst.run later fun _ ⟨offset, size, hmem⟩ =>
    ⟨offset, size, mem_append_right actions hmem⟩
  have hrun : (mount table).run (actions ++ later) = ((mount table).run actions).run later :=
    foldl_append
  rw [hrun]
  obtain ⟨hevents, hfile, hlive⟩ := hkept path (hfirst.mapped hmapped)
  exact ⟨hevents, hfile, hlive, fun ino mmap hready => (hsound.ready hready).2.2⟩

variable (a b : Bytes)

/-- A directory with two files, `a` and `b`. -/
def pairDirectory : Directory :=
  { files := [⟨"a", some (rawOf a), false⟩, ⟨"b", some (rawOf b), false⟩] }

/-- A file of less than 128 bytes in the encoding of a directory. -/
def fileBytes (name : String) (bytes : Bytes) : Bytes :=
  protoField 0x0a (protoField 0x0a (textBytes name) ++
    protoField 0x12 (protoField 0x0a (textBytes (rawOf bytes).hash) ++
      [0x10, bytes.length.toUInt8]))

/-- The encoding of the directory, for files that are not empty. -/
def pairBytes : Bytes := fileBytes "a" a ++ fileBytes "b" b

/-- A decoder that knows it. -/
def pairDecode (a b bytes : Bytes) : Except String Directory :=
  if bytes = pairBytes a b then .ok (pairDirectory a b) else .error "unknown"

/-- A store with the directory and the files. -/
def pairStore : MemStore :=
  (inMemoryCas.batchUpdateBlobs ∅ [(Digest.of a, a), (Digest.of b, b),
    (Digest.of (pairBytes a b), pairBytes a b)]).2

/-- The table of the directory: `a` is inode 2 and `b` inode 3. -/
def pairTable : BuildResult :=
  build (pairDecode a b) (pairStore a b) 1 (Digest.of (pairBytes a b))

/-- The `k`th read is of a whole file and fetches it, as far as creating the file. -/
def readToCreate (k ino : ℕ) (bytes : Bytes) : List Action :=
  [.read ino 0 bytes.length, .advance k .done, .advance k .done, .advance k (.blob bytes),
    .advance k .done]

/-- All of such a read. -/
def wholeRead (k ino : ℕ) (bytes : Bytes) : List Action :=
  readToCreate k ino bytes ++ [.advance k (.wrote bytes.length), .advance k .done,
    .advance k .done, .advance k .done, .advance k .done, .advance k .done]

theorem exists_of_pairTable {a b : Bytes} {P : InodeTable → Prop} [DecidablePred P]
    (h : ((pairTable a b).bind Except.toOption).any P = true) :
    ∃ table, pairTable a b = some (.ok table) ∧ P table := by
  obtain ⟨table, htable, hp⟩ := (any_eq_true _ _).1 h
  obtain ⟨result, hresult, hok⟩ := bind_eq_some_iff.1 htable
  cases result with
  | error => cases hok
  | ok =>
    cases hok
    exact ⟨table, hresult, of_decide_eq_true hp⟩

/-- What fetching a file does to the cache directory. -/
def fetchEvents (path : String) : List CacheEvent := [.truncated path, .written path, .mapped path]

/-- Two files that differ: the first has been mapped and is left alone when the second is
fetched. -/
theorem mapped_files_immutable_sample :
    ∃ table, pairTable [7] [8] = some (.ok table) ∧
      ((mount table).run (wholeRead 0 2 [7] ++ wholeRead 1 3 [8])).files.get?
        (Digest.of [7]).hash = some [7] := by
  obtain ⟨table, htable, htwo, hthree, htrace, hfile⟩ : ∃ table,
      pairTable [7] [8] = some (.ok table) ∧ table.hashAt 2 = some (Digest.of [7]).hash ∧
        table.hashAt 3 = some (Digest.of [8]).hash ∧
        ((mount table).run (wholeRead 0 2 [7])).trace = fetchEvents (Digest.of [7]).hash ∧
        ((mount table).run (wholeRead 0 2 [7])).files.get? (Digest.of [7]).hash = some [7] :=
    exists_of_pairTable (by decide +kernel)
  have hne : (Digest.of [7]).hash ≠ (Digest.of [8]).hash := by decide +kernel
  have hinos : ∀ ino, Requested (wholeRead 0 2 [7] ++ wholeRead 1 3 [8]) ino →
      ino = 2 ∨ ino = 3 := by
    rintro ino ⟨offset, size, hmem⟩
    simp [readToCreate, wholeRead] at hmem
    omega
  have hapart : Apart table (Requested (wholeRead 0 2 [7] ++ wholeRead 1 3 [8])) := by
    intro i j hash hi hj hhi hhj
    rcases hinos i hi with rfl | rfl <;> rcases hinos j hj with rfl | rfl
    · rfl
    · rw [htwo] at hhi
      rw [hthree] at hhj
      exact absurd (some.inj (hhi.trans hhj.symm)) hne
    · rw [hthree] at hhi
      rw [htwo] at hhj
      exact absurd (some.inj (hhj.trans hhi.symm)) hne
    · rfl
  have hmapped : .mapped (Digest.of [7]).hash ∈ ((mount table).run (wholeRead 0 2 [7])).trace := by
    rw [htrace]
    simp [fetchEvents]
  refine ⟨table, htable, ?_⟩
  rw [(mapped_files_immutable table _ _ hapart _ hmapped).2.1]
  exact hfile

/-- A write fails, and another read is requested. -/
def failAndRead : List Action :=
  [.advance 1 .failed, .read 2 0 1, .advance 2 .done, .advance 2 .done]

/-- Two files with the same content.  When `a` has been read and its file mapped, reading `b`
cuts that file, and fails to write it.  The next read of `a` runs past its end and fails. -/
theorem mapped_and_truncated :
    ∃ table, pairTable [7] [7] = some (.ok table) ∧
      ((mount table).run (wholeRead 0 2 [7])).trace = fetchEvents (Digest.of [7]).hash ∧
      ((mount table).run (wholeRead 0 2 [7] ++ readToCreate 1 3 [7])).trace =
        fetchEvents (Digest.of [7]).hash ++ [.truncated (Digest.of [7]).hash] ∧
      ((mount table).run (wholeRead 0 2 [7] ++ readToCreate 1 3 [7])).slot 2 =
        some (.ready ⟨(Digest.of [7]).hash, 1⟩) ∧
      [0, 1, 2].map ((mount table).run (wholeRead 0 2 [7] ++ readToCreate 1 3 [7] ++
        failAndRead)).replyOf = [some (.data [7]), some (.error .eio), some (.error .eio)] :=
  exists_of_pairTable (by decide +kernel)

end Brokkr.Worker
