import Brokkr.Common
import Brokkr.Control.Policy

/-!
# Reloading the policy file

A control plane with a policy reads and loads the policy file when it starts
(`build_policy_strategy`), and then hands it to a task that reads it again at every tick
and loads it when its digest is not the one it remembers (`spawn_policy_reloader`).  The
first digest to remember is that of another read of the file.

* `PolicyProcess.step` — the process and the edits of the file, in any order.
* `SeedAgrees` — the read for the first digest found what had been loaded.
* `Tracks` — then the remembered digest is that of the content loaded last.
* `edit_missed` — without it, an edit is not loaded by any tick.
-/

namespace Brokkr.Control

/-- Does the observed content have to be loaded? -/
def shouldReload : Option Digest → Option Digest → Bool
  | none, some _ => true
  | some prev, some now => decide (prev ≠ now)
  | _, none => false

/-- The digest and the bytes of a file, unless it cannot be read. -/
def digestOf (file : Option (List UInt8)) : Option (Digest × List UInt8) :=
  file.map fun bytes => (Digest.of bytes, bytes)

theorem digestOf_eq_some {file : Option (List UInt8)} {digest : Digest} {bytes : List UInt8} :
    digestOf file = some (digest, bytes) ↔ file = some bytes ∧ Digest.of bytes = digest := by
  cases file with
  | none => simp [digestOf]
  | some =>
    simp only [digestOf, Option.map_some, Option.some.injEq, Prod.mk.injEq]
    constructor
    · rintro ⟨rfl, rfl⟩
      exact ⟨rfl, rfl⟩
    · rintro ⟨rfl, rfl⟩
      exact ⟨rfl, rfl⟩

/-- Where the process is. -/
inductive ReloadPhase where
  | starting
  | loaded
  | ticking (last : Option Digest)
  | disabled
  | exited
  deriving DecidableEq

/-- The process with its policy file.  The contents that were passed to `load` and what
the read for the first digest found are kept for the statements only. -/
structure PolicyProcess where
  file : Option (List UInt8)
  phase : ReloadPhase
  strategy : WasmStrategy
  loads : List (List UInt8)
  seed : Option (List UInt8)

variable {p : PolicyProcess}

/-- What happens: the file is edited, or the process goes on. -/
inductive ReloadEvent where
  | edit (content : Option (List UInt8))
  | proceed (run : LoadRun)

namespace PolicyProcess

/-- Before the start. -/
def start (limits : PolicyLimits) (file : Option (List UInt8)) : PolicyProcess where
  file := file
  phase := .starting
  strategy := .new limits
  loads := []
  seed := none

/-- Pass a content to the strategy. -/
def load (p : PolicyProcess) (wasm : List UInt8) (run : LoadRun) : PolicyProcess :=
  { p with strategy := p.strategy.load wasm run, loads := p.loads ++ [wasm] }

/-- Read the file and load it; a failure ends the process. -/
def buildPolicyStrategy (p : PolicyProcess) (run : LoadRun) : PolicyProcess :=
  match p.file with
  | none => { p with phase := .exited }
  | some wasm =>
    match (p.strategy.engine.load wasm run).1 with
    | .ok () => { p.load wasm run with phase := .loaded }
    | .error _ => { p.load wasm run with phase := .exited }

/-- Read the file for the first digest and start the task. -/
def spawnPolicyReloader (interval : ℕ) (p : PolicyProcess) : PolicyProcess :=
  let seed := (digestOf p.file).map Prod.fst
  { p with
    seed := p.file
    phase := if interval = 0 then .disabled else .ticking seed }

/-- One tick of the task. -/
def tick (p : PolicyProcess) (last : Option Digest) (run : LoadRun) : PolicyProcess :=
  match digestOf p.file with
  | none => p
  | some (digest, bytes) =>
    if !shouldReload last (some digest) then p
    else { p.load bytes run with phase := .ticking (some digest) }

/-- One event. -/
def step (interval : ℕ) (p : PolicyProcess) : ReloadEvent → PolicyProcess
  | .edit content => { p with file := content }
  | .proceed run =>
    match p.phase with
    | .starting => p.buildPolicyStrategy run
    | .loaded => p.spawnPolicyReloader interval
    | .ticking last => p.tick last run
    | .disabled => p
    | .exited => p

/-- Events one after the other. -/
def after (interval : ℕ) (p : PolicyProcess) (events : List ReloadEvent) : PolicyProcess :=
  events.foldl (step interval) p

/-- Is the next step of the process a tick? -/
def isTicking (p : PolicyProcess) : Bool :=
  match p.phase with
  | .ticking _ => true
  | _ => false

/-- The read for the first digest found what had been loaded before. -/
def SeedAgrees (p : PolicyProcess) : Prop := p.seed = p.loads.head?

instance (p : PolicyProcess) : Decidable p.SeedAgrees :=
  inferInstanceAs (Decidable (p.seed = p.loads.head?))

end PolicyProcess

/-- Contents the file has at some time. -/
def Appears (file : Option (List UInt8)) (events : List ReloadEvent) : Set (List UInt8) :=
  { c | file = some c ∨ ReloadEvent.edit (some c) ∈ events }

/-! ## Nothing is missed when the first digest is right -/

/-- The remembered digest is that of the content loaded last; contents are of a set. -/
structure Tracks (S : Set (List UInt8)) (p : PolicyProcess) : Prop where
  file_mem : ∀ c, p.file = some c → c ∈ S
  starting : p.phase = .starting → p.loads = []
  loaded : p.phase = .loaded → ∃ c ∈ S, p.loads = [c]
  ticking : ∀ last, p.phase = .ticking last → p.loads ≠ [] ∧
      (p.SeedAgrees → ∃ c ∈ S, last = some (Digest.of c) ∧ p.loads.getLast? = some c)

namespace Tracks

variable {S : Set (List UInt8)}

variable (h : Tracks S p)

include h

theorem buildPolicyStrategy (hphase : p.phase = .starting) (run : LoadRun) :
    Tracks S (p.buildPolicyStrategy run) := by
  rw [PolicyProcess.buildPolicyStrategy]
  split
  · exact ⟨h.file_mem, nofun, nofun, nofun⟩
  rename_i wasm hfile
  split
  · refine ⟨h.file_mem, nofun, fun _ => ⟨wasm, h.file_mem wasm hfile, ?_⟩, nofun⟩
    simp [PolicyProcess.load, h.starting hphase]
  · exact ⟨h.file_mem, nofun, nofun, nofun⟩

theorem spawnPolicyReloader (hphase : p.phase = .loaded) (interval : ℕ) :
    Tracks S (p.spawnPolicyReloader interval) := by
  obtain ⟨c, hc, hloads⟩ := h.loaded hphase
  rw [PolicyProcess.spawnPolicyReloader]
  by_cases hzero : interval = 0
  · simp only [if_pos hzero]
    exact ⟨h.file_mem, nofun, nofun, nofun⟩
  simp only [if_neg hzero]
  refine ⟨h.file_mem, nofun, nofun, fun last hlast => ⟨?_, fun hseed => ?_⟩⟩
  · simp [hloads]
  -- the file still has the content that was loaded
  have hfile : p.file = some c := by
    simpa [PolicyProcess.SeedAgrees, hloads] using hseed
  cases hlast
  exact ⟨c, hc, by simp [digestOf, hfile], by simp [hloads]⟩

theorem tick (last : Option Digest) (run : LoadRun) :
    Tracks S (p.tick last run) := by
  rw [PolicyProcess.tick]
  split
  · exact h
  rename_i digest bytes hread
  obtain ⟨hfile, rfl⟩ := digestOf_eq_some.1 hread
  split
  · exact h
  refine ⟨h.file_mem, nofun, nofun, fun last' hlast' => ⟨?_, fun _ => ?_⟩⟩
  · simp [PolicyProcess.load]
  · cases hlast'
    exact ⟨bytes, h.file_mem bytes hfile, rfl, by simp [PolicyProcess.load]⟩

theorem edit {content : Option (List UInt8)}
    (hcontent : ∀ c, content = some c → c ∈ S) : Tracks S { p with file := content } :=
  ⟨hcontent, h.starting, h.loaded, h.ticking⟩

theorem step (interval : ℕ) {event : ReloadEvent}
    (hevent : ∀ c, event = .edit (some c) → c ∈ S) : Tracks S (p.step interval event) := by
  cases event with
  | edit => exact h.edit fun c hc => hevent c (by rw [hc])
  | proceed run =>
    rw [PolicyProcess.step]
    cases hphase : p.phase with
    | starting => exact h.buildPolicyStrategy hphase run
    | loaded => exact h.spawnPolicyReloader hphase interval
    | ticking last => exact h.tick last run
    | disabled => exact h
    | exited => exact h

theorem after (interval : ℕ) {events : List ReloadEvent}
    (hevents : ∀ c, ReloadEvent.edit (some c) ∈ events → c ∈ S) :
    Tracks S (p.after interval events) := by
  induction events generalizing p with
  | nil => exact h
  | cons event events ih =>
    refine ih (h.step interval fun c hc => hevents c ?_) fun c hc => hevents c ?_
    · rw [hc]
      exact List.mem_cons_self
    · exact List.mem_cons_of_mem _ hc

end Tracks

theorem Tracks.start (limits : PolicyLimits) (file : Option (List UInt8))
    (events : List ReloadEvent) :
    Tracks (Appears file events) (PolicyProcess.start limits file) :=
  ⟨fun _ hc => Or.inl hc, fun _ => rfl, nofun, nofun⟩

theorem step_of_ticking {last : Option Digest} (hphase : p.phase = .ticking last) (interval : ℕ)
    (run : LoadRun) :
    p.step interval (.proceed run) = p.tick last run := by
  simp only [PolicyProcess.step, hphase]

theorem tick_of_last {c : List UInt8} (hread : p.file = some c) (run : LoadRun) :
    p.tick (some (Digest.of c)) run = p := by
  simp [PolicyProcess.tick, digestOf, hread, shouldReload]

theorem loads_tick_of_ne {c : List UInt8} (hread : p.file = some c) {last : Digest}
    (hne : last ≠ Digest.of c) (run : LoadRun) :
    (p.tick (some last) run).loads = p.loads ++ [c] := by
  simp [PolicyProcess.tick, digestOf, hread, shouldReload, hne, PolicyProcess.load]

theorem tick_of_unreadable (hread : p.file = none) (last : Option Digest) (run : LoadRun) :
    p.tick last run = p := by
  simp [PolicyProcess.tick, digestOf, hread]

/-- When the read for the first digest finds what was loaded, every tick that can read the
file leaves its content as the one loaded last, and loads it only if it was not. -/
theorem edits_loaded (limits : PolicyLimits) (interval : ℕ) (file : Option (List UInt8))
    (events : List ReloadEvent) (run : LoadRun)
    (hcollision : Set.InjOn Digest.of (Appears file events))
    (hseed : ((PolicyProcess.start limits file).after interval events).SeedAgrees)
    (htick : ((PolicyProcess.start limits file).after interval events).isTicking = true) :
    (∀ c, ((PolicyProcess.start limits file).after interval events).file = some c →
      (((PolicyProcess.start limits file).after interval events).step interval
        (.proceed run)).loads.getLast? = some c) ∧
    ((((PolicyProcess.start limits file).after interval events).step interval
        (.proceed run)).loads ≠
        ((PolicyProcess.start limits file).after interval events).loads →
      ∃ c, ((PolicyProcess.start limits file).after interval events).file = some c ∧
        ((PolicyProcess.start limits file).after interval events).loads.getLast? ≠ some c) := by
  have h : Tracks (Appears file events) ((PolicyProcess.start limits file).after interval events) :=
    (Tracks.start limits file events).after interval fun c hc => Or.inr hc
  generalize (PolicyProcess.start limits file).after interval events = p at h hseed htick ⊢
  obtain ⟨last, hphase⟩ : ∃ last, p.phase = .ticking last := by
    rw [PolicyProcess.isTicking] at htick
    split at htick
    · exact ⟨_, ‹_›⟩
    · cases htick
  obtain ⟨-, hlast⟩ := h.ticking last hphase
  obtain ⟨c₀, hmem₀, rfl, hloads⟩ := hlast hseed
  rw [step_of_ticking hphase]
  cases hread : p.file with
  | none =>
    rw [tick_of_unreadable hread]
    exact ⟨nofun, fun hne => absurd rfl hne⟩
  | some c =>
    by_cases hc : c₀ = c
    · subst hc
      rw [tick_of_last hread]
      refine ⟨?_, fun hne => absurd rfl hne⟩
      rintro c' ⟨⟩
      exact hloads
    have hne : Digest.of c₀ ≠ Digest.of c := fun heq =>
      hc (hcollision hmem₀ (h.file_mem c hread) heq)
    rw [loads_tick_of_ne hread hne]
    refine ⟨?_, fun _ => ⟨c, rfl, ?_⟩⟩
    · simp
    · rw [hloads]
      simpa using hc

/-! ## An edit that is missed -/

namespace Sample

/-- A guest that always chooses the first candidate. -/
def firstCandidate : GuestRun where
  setFuel := .ok ()
  instantiate := .ok ()
  snapshotLen := 165
  allocExport := .ok ()
  alloc := .ok 1024
  hasMemory := true
  write := .ok ()
  chooseExport := .ok ()
  choose := .ok 0

/-- A load of that guest. -/
def goodLoad : LoadRun where
  compile := .ok ()
  link := .ok ()
  setFuel := .ok ()
  instantiate := .ok ()
  hasMemory := true
  allocExport := .ok ()
  chooseExport := .ok ()
  versionExport := .ok ()
  version := .ok 1
  smoke := firstCandidate

/-- The limits of the sample host. -/
def limits : PolicyLimits := ⟨5, by decide⟩

/-- The file is edited between the two reads of the start. -/
def editedEarly : List ReloadEvent := [.proceed goodLoad, .edit (some [1, 2]), .proceed goodLoad]

/-- The file is edited before the first tick. -/
def editedLate : List ReloadEvent := [.proceed goodLoad, .proceed goodLoad, .edit (some [1, 2])]

theorem injOn_contents {events : List ReloadEvent}
    (h : ∀ c, ReloadEvent.edit (some c) ∈ events → c = [1, 2]) :
    Set.InjOn Digest.of (Appears (some [1]) events) := by
  have hcontent : ∀ c ∈ Appears (some [1]) events, c = [1] ∨ c = [1, 2] := by
    rintro c (hc | hc)
    · exact .inl (Option.some.inj hc).symm
    · exact .inr (h c hc)
  intro a ha b hb hab
  have hlength : a.length = b.length := Int.ofNat.inj (congrArg Digest.sizeBytes hab)
  rcases hcontent a ha with rfl | rfl <;> rcases hcontent b hb with rfl | rfl <;>
    first | rfl | cases hlength

end Sample

open Sample

/-- An edit before the first tick is loaded by it. -/
theorem edits_loaded_sample :
    (((PolicyProcess.start limits (some [1])).after 5 editedLate).step 5
      (.proceed goodLoad)).loads.getLast? = some [1, 2] := by
  have h := edits_loaded limits 5 (some [1]) editedLate goodLoad
    (injOn_contents (by simp [editedLate])) rfl rfl
  exact h.1 [1, 2] rfl

/-- An edit between the load and the read for the first digest is not loaded: the tick
reads the new content, and the old one is still the only one that was loaded. -/
theorem edit_missed :
    Set.InjOn Digest.of (Appears (some [1]) editedEarly) ∧
    ((PolicyProcess.start limits (some [1])).after 5 editedEarly).isTicking = true ∧
    ((PolicyProcess.start limits (some [1])).after 5 editedEarly).file = some [1, 2] ∧
    (((PolicyProcess.start limits (some [1])).after 5 editedEarly).step 5
      (.proceed goodLoad)).loads.getLast? = some [1] := by
  refine ⟨injOn_contents (by simp [editedEarly]), rfl, rfl, ?_⟩
  have hphase : ((PolicyProcess.start limits (some [1])).after 5 editedEarly).phase =
      .ticking (some (Digest.of [1, 2])) := rfl
  have hfile : ((PolicyProcess.start limits (some [1])).after 5 editedEarly).file =
      some [1, 2] := rfl
  rw [step_of_ticking hphase, tick_of_last hfile]
  rfl

end Brokkr.Control
