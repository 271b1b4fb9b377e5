import Mathlib.Data.List.Induction
import Mathlib.Data.List.Infix

/-!
# Running an action: signals and reaping

`host/linux.rs`: `run_action` spawns the runner as the leader of a process group of its own,
waits for it, with a deadline if one is set, and collects its output.  A guard,
`KillpgOnDrop`, sends SIGKILL to the group when it is dropped, which is when `run_action`
returns or its future is cancelled.

* `step` — one step of `run_action`, with what the system answers; at an await the future
  may be cancelled instead.  `run` — the steps for a list of answers.
* `Event` — what happens to the runner: it is spawned, a signal is sent to its group, a wait
  on it returns (the process id is free from then on), `run_action` begins to return.
* `waitedOk` — whether the system answered a wait on the runner with a status.
* `bodyTrace`, `Phase` — all that can have happened at each point; `Phase.step` is the step.
* `signals_and_reaping` — the group is signalled on every exit path after the spawn; the
  deadline's signal comes before the runner was reaped; the guard's signal comes after
  exactly when a wait was answered.  `signalled_after_reaping` — as on the normal path.

`kill` on the runner alone is not an event.  Dropping a `tokio` child that was not waited for
kills it and tries to reap it; this happens before the guard's signal.
-/

namespace Brokkr.Sandbox

/-! ## The runner and its guard -/

/-- The status a wait returns. -/
structure WaitStatus where
  code : Option ℤ
  signal : Option ℤ
  deriving DecidableEq

/-- Did the process exit with code zero? -/
def WaitStatus.success (status : WaitStatus) : Bool := status.code == some 0

/-- How an action ended. -/
inductive ExitStatus where
  | timeout
  | outOfMemory
  | exited (code : ℤ)
  | signaled (signal : ℤ)
  deriving DecidableEq

/-- How `run_action` ends. -/
inductive Exit where
  | json
  | setup (step : String)
  | cgroup
  | runnerCrashed (stderr : List UInt8)
  | finished (status : ExitStatus) (stdout stderr : List UInt8)
  | cancelled
  deriving DecidableEq

/-- What happens to the runner. -/
inductive Event where
  | spawned (pid : ℕ)
  | reaped
  | exit (how : Exit)
  | killpg (pid : ℕ)
  deriving DecidableEq

/-- Why a system call failed. -/
inductive Fault where
  | brokenPipe
  | noSuchProcess
  | other
  deriving DecidableEq

/-- What the system answers to a step. -/
inductive Answer where
  | ok
  | failed (fault : Fault)
  | pid (pid : ℕ)
  | exited (status : WaitStatus)
  | elapsed
  | captured (bytes : List UInt8)
  | oom (killed : Bool)
  | cancelled
  deriving DecidableEq

/-- A child process as `tokio` keeps it. -/
structure Child where
  pid : ℕ
  exit : Option WaitStatus := none
  stdout : Bool := true
  stderr : Bool := true
  deriving DecidableEq

/-- The process id, until the child was waited for. -/
def Child.id (c : Child) : Option ℕ := if c.exit.isSome then none else some c.pid

/-- Dropping a child that was not waited for may reap it. -/
def Child.drop (c : Child) (a : Answer) : List Event :=
  match c.exit, a with
  | none, .exited _ => [.reaped]
  | _, _ => []

/-- A child whose process group is killed when it is dropped. -/
structure KillpgOnDrop where
  child : Option Child
  runnerPid : ℕ
  deriving DecidableEq

namespace KillpgOnDrop

/-- Guard a child. -/
def new (child : Child) (runnerPid : ℕ) : KillpgOnDrop := ⟨some child, runnerPid⟩

/-- Take the child out. -/
def take (g : KillpgOnDrop) : Option Child × KillpgOnDrop := (g.child, { g with child := none })

/-- The process id of the child. -/
def id (g : KillpgOnDrop) : Option ℕ := g.child.bind Child.id

/-- Take the standard output; is it there? -/
def stdout (g : KillpgOnDrop) : Bool × KillpgOnDrop :=
  ((g.child.map Child.stdout).getD false,
    { g with child := g.child.map fun c => { c with stdout := false } })

/-- Take the standard error; is it there? -/
def stderr (g : KillpgOnDrop) : Bool × KillpgOnDrop :=
  ((g.child.map Child.stderr).getD false,
    { g with child := g.child.map fun c => { c with stderr := false } })

/-- A wait on the child has returned a status. -/
def waited (g : KillpgOnDrop) (status : WaitStatus) : KillpgOnDrop :=
  { g with child := g.child.map fun c => { c with exit := some status } }

/-- `Drop`: the child is taken out and dropped, then the group is killed. -/
def drop (g : KillpgOnDrop) (a : Answer) : List Event :=
  match g.take.1 with
  | some c => c.drop a ++ [.killpg g.runnerPid]
  | none => []

end KillpgOnDrop

/-! ## The steps of `run_action` -/

/-- Where `run_action` is. -/
inductive Point where
  | serialize | createPipe | spawn | readPid | readGuardPid | createCgroup | attachCgroup
  | takeStdout | takeStderr | writeConfig
  | wait
  | waitDeadline
  | killAll
  | killpg
  | killChild
  | waitAfterKill | joinStdout | joinStderr | finish
  | dropping (how : Exit)
  | ended (how : Exit)
  deriving DecidableEq

/-- What the local variable `child` holds. -/
inductive Held where
  | nothing
  | bare (child : Child)
  | wrapped (guard : KillpgOnDrop)
  deriving DecidableEq

/-- What the caller asks for. -/
structure RunConfig where
  cgroupRoot : Bool
  wallClock : Bool

/-- The state of a call of `run_action`. -/
structure RunState where
  point : Point := .serialize
  held : Held := .nothing
  runnerPid : ℕ := 0
  cgroup : Bool := false
  brokenPipe : Bool := false
  cgroupKilled : Bool := false
  hitTimeout : Bool := false
  status : Option WaitStatus := none
  stdoutBuf : List UInt8 := []
  stderrBuf : List UInt8 := []
  trace : List Event := []

namespace RunState

/-- Go on at a point. -/
def goto (s : RunState) (point : Point) : RunState := { s with point := point }

/-- Something happens. -/
def note (s : RunState) (e : Event) : RunState := { s with trace := s.trace ++ [e] }

/-- Return, or be cancelled: the local variables are dropped next. -/
def exit (s : RunState) (how : Exit) : RunState := (s.note (.exit how)).goto (.dropping how)

/-- A call that may fail, with `?`. -/
def checked (s : RunState) (a : Answer) (how : Exit) (next : RunState) : RunState :=
  match a with
  | .ok => next
  | .failed _ => s.exit how
  | _ => s

/-- Go on with the guard. -/
def withGuard (s : RunState) (f : KillpgOnDrop → RunState) : RunState :=
  match s.held with
  | .wrapped g => f g
  | _ => s

/-- Await the child's `wait`, with a deadline if `late` says so. -/
def onWait (s : RunState) (a : Answer) (how : Exit) (late : RunState)
    (next : WaitStatus → RunState → RunState) : RunState :=
  s.withGuard fun g =>
    match a, g.child.bind Child.exit with
    | .cancelled, _ => s.exit .cancelled
    -- a child that was waited for answers at once
    | _, some status => next status s
    | .exited status, none =>
      next status ({ s with held := .wrapped (g.waited status) }.note .reaped)
    | .failed _, none => s.exit how
    | .elapsed, none => late
    | _, none => s

/-- The output of a capture task; a task that failed has captured nothing. -/
def onJoin (s : RunState) (a : Answer) (next : List UInt8 → RunState) : RunState :=
  match a with
  | .captured bytes => next bytes
  | .failed _ => next []
  | .cancelled => s.exit .cancelled
  | _ => s

/-- The status that is reported. -/
def exitStatus (s : RunState) (oom : Bool) : ExitStatus :=
  if s.hitTimeout then .timeout
  else if s.cgroup && oom then .outOfMemory
  else match s.status.bind WaitStatus.code, s.status.bind WaitStatus.signal with
    | some code, _ => .exited code
    | none, some signal => .signaled signal
    | none, none => .signaled (-1)

/-- Report what the action did. -/
def report (s : RunState) (a : Answer) : RunState :=
  if s.brokenPipe && !(s.status.any WaitStatus.success) && !s.stderrBuf.isEmpty then
    s.exit (.runnerCrashed s.stderrBuf)
  else
    match a with
    | .oom killed => s.exit (.finished (s.exitStatus killed) s.stdoutBuf s.stderrBuf)
    | _ => s

/-- Drop the local variables. -/
def dropLocals (s : RunState) (a : Answer) (how : Exit) : RunState :=
  match s.held with
  | .nothing => s.goto (.ended how)
  | .bare c => { s with held := .nothing, trace := s.trace ++ c.drop a }.goto (.ended how)
  | .wrapped g => { s with held := .nothing, trace := s.trace ++ g.drop a }.goto (.ended how)

end RunState

open RunState in
/-- One step of `run_action`. -/
def step (cfg : RunConfig) (s : RunState) (a : Answer) : RunState :=
  match s.point with
  | .serialize => s.checked a .json (s.goto .createPipe)
  | .createPipe => s.checked a (.setup "create config pipe") (s.goto .spawn)
  | .spawn =>
    match a with
    | .pid pid => ({ s with held := .bare { pid := pid } }.note (.spawned pid)).goto .readPid
    | .failed _ => s.exit (.setup "spawn runner")
    | _ => s
  | .readPid =>
    match s.held with
    | .bare c =>
      match c.id with
      | some pid => { s with held := .wrapped (.new c pid) }.goto .readGuardPid
      | none => s.exit (.setup "read runner pid")
    | _ => s
  | .readGuardPid => s.withGuard fun g =>
    match g.id with
    | some pid => { s with runnerPid := pid }.goto
        (if cfg.cgroupRoot then .createCgroup else .takeStdout)
    | none => s.exit (.setup "read runner pid")
  | .createCgroup => s.checked a .cgroup (s.goto .attachCgroup)
  | .attachCgroup => s.checked a .cgroup ({ s with cgroup := true }.goto .takeStdout)
  | .takeStdout => s.withGuard fun g =>
    if g.stdout.1 then { s with held := .wrapped g.stdout.2 }.goto .takeStderr
    else s.exit (.setup "take stdout")
  | .takeStderr => s.withGuard fun g =>
    if g.stderr.1 then { s with held := .wrapped g.stderr.2 }.goto .writeConfig
    else s.exit (.setup "take stderr")
  | .writeConfig =>
    let waiting := s.goto (if cfg.wallClock then .waitDeadline else .wait)
    match a with
    | .ok => waiting
    | .failed .brokenPipe => { waiting with brokenPipe := true }
    | .failed _ => s.exit (.setup "write config payload")
    | _ => s
  | .wait => s.onWait a (.setup "wait for runner") s
      fun status s => { s with status := some status }.goto .joinStdout
  | .waitDeadline => s.onWait a (.setup "wait for runner")
      (s.goto (if s.cgroup then .killAll else .killpg))
      fun status s => { s with status := some status }.goto .joinStdout
  | .killAll =>
    match a with
    | .ok => { s with cgroupKilled := true }.goto .killpg
    | .failed _ => s.goto .killpg
    | _ => s
  | .killpg =>
    match a with
    | .ok => (s.note (.killpg s.runnerPid)).goto .waitAfterKill
    | .failed .noSuchProcess => (s.note (.killpg s.runnerPid)).goto .waitAfterKill
    | .failed _ => (s.note (.killpg s.runnerPid)).goto
        (if s.cgroupKilled then .waitAfterKill else .killChild)
    | _ => s
  | .killChild => s.withGuard fun g =>
    match a with
    | .exited status => ({ s with held := .wrapped (g.waited status) }.note .reaped).goto
        .waitAfterKill
    | .failed _ => s.goto .waitAfterKill
    | .cancelled => s.exit .cancelled
    | _ => s
  | .waitAfterKill => s.onWait a (.setup "wait for runner after timeout")
      (s.exit (.setup "wait for runner after timeout kill"))
      fun status s => { s with status := some status, hitTimeout := true }.goto .joinStdout
  | .joinStdout => s.onJoin a fun bytes => { s with stdoutBuf := bytes }.goto .joinStderr
  | .joinStderr => s.onJoin a fun bytes => { s with stderrBuf := bytes }.goto .finish
  | .finish => s.report a
  | .dropping how => s.dropLocals a how
  | .ended _ => s

/-- A call of `run_action`, with what the system answers. -/
def run (cfg : RunConfig) (answers : List Answer) : RunState := answers.foldl (step cfg) {}

/-- Does the runner's status end an await, or a drop, at this point? -/
def Point.waits : Point → Bool
  | .wait | .waitDeadline | .killChild | .waitAfterKill | .dropping _ => true
  | _ => false

/-- Is the answer a status of the runner? -/
def Answer.isExited : Answer → Bool
  | .exited _ => true
  | _ => false

/-- Is a wait on the runner answered with its status, from a state on? -/
def waitedOk (cfg : RunConfig) : RunState → List Answer → Bool
  | _, [] => false
  | s, a :: answers => (s.point.waits && a.isExited) || waitedOk cfg (step cfg s a) answers

/-! ## All that can happen -/

/-- What has happened before `run_action` returns: the runner was spawned, its group was
killed, it was reaped, in this order. -/
def bodyTrace (pid : ℕ) (killed reaped : Bool) : List Event :=
  .spawned pid :: ((if killed then [.killpg pid] else []) ++ if reaped then [.reaped] else [])

/-- What can have happened at a point where the guard is there. -/
def Point.allows (killed reaped : Bool) : Point → Bool
  | .readGuardPid | .createCgroup | .attachCgroup | .takeStdout | .takeStderr | .writeConfig
  | .wait | .waitDeadline | .killAll | .killpg => !killed && !reaped
  | .killChild => killed && !reaped
  | .waitAfterKill => killed
  | .joinStdout | .joinStderr | .finish => reaped
  | _ => false

/-- The guard is there, and its child has the history it should have. -/
structure Guarded (s : RunState) (g : KillpgOnDrop) (c : Child) (killed : Bool) : Prop where
  held : s.held = .wrapped g
  child : g.child = some c
  pid : g.runnerPid = c.pid
  trace : s.trace = bodyTrace c.pid killed c.exit.isSome

/-- All that can have happened; `reaped` says whether a wait on the runner was answered. -/
inductive Phase (s : RunState) (reaped : Bool) : Prop where
  | before (held : s.held = .nothing) (trace : s.trace = []) (none : reaped = false)
      (point : s.point = .serialize ∨ s.point = .createPipe ∨ s.point = .spawn)
  | refused (how : Exit) (held : s.held = .nothing) (trace : s.trace = [.exit how])
      (point : s.point = .dropping how ∨ s.point = .ended how)
  | bare (c : Child) (held : s.held = .bare c) (exit : c.exit = none) (none : reaped = false)
      (trace : s.trace = [.spawned c.pid]) (point : s.point = .readPid)
  | body (g : KillpgOnDrop) (c : Child) (killed : Bool) (guarded : Guarded s g c killed)
      (exit : reaped = c.exit.isSome) (point : s.point.allows killed c.exit.isSome = true)
      (runnerPid : s.point = .readGuardPid ∨ s.runnerPid = c.pid)
  | leaving (how : Exit) (g : KillpgOnDrop) (c : Child) (killed : Bool)
      (held : s.held = .wrapped g) (child : g.child = some c) (pid : g.runnerPid = c.pid)
      (exit : reaped = c.exit.isSome)
      (trace : s.trace = bodyTrace c.pid killed c.exit.isSome ++ [.exit how])
      (point : s.point = .dropping how)
  | dropped (how : Exit) (pid : ℕ) (killed early late : Bool) (exit : reaped = (early || late))
      (trace : s.trace = bodyTrace pid killed early ++
        ([.exit how] ++ ((if late then [.reaped] else []) ++ [.killpg pid])))
      (point : s.point = .ended how)

namespace Guarded

variable {s s' : RunState} {g : KillpgOnDrop} {c : Child} {killed : Bool}

variable (h : Guarded s g c killed)

include h

theorem congr (hheld : s'.held = s.held) (htrace : s'.trace = s.trace) :
    Guarded s' g c killed :=
  ⟨hheld.trans h.held, h.child, h.pid, htrace.trans h.trace⟩

theorem exit (how : Exit) : Phase (s.exit how) c.exit.isSome := by
  refine .leaving how g c killed h.held h.child h.pid rfl ?_ rfl
  rw [← h.trace]
  rfl

theorem waited (hexit : c.exit = none) (status : WaitStatus) :
    Guarded ({ s with held := .wrapped (g.waited status) }.note .reaped) (g.waited status)
      { c with exit := some status } killed where
  held := rfl
  child := by rw [KillpgOnDrop.waited, h.child]; rfl
  pid := h.pid
  trace := by
    have htrace := h.trace
    rw [hexit] at htrace
    rw [RunState.note, htrace]
    cases killed <;> rfl

theorem withGuard (f : KillpgOnDrop → RunState) :
    s.withGuard f = f g := by
  rw [RunState.withGuard, h.held]

theorem checked (a : Answer) (how : Exit) {next : RunState}
    (hs : Phase s c.exit.isSome) (hnext : Phase next c.exit.isSome) :
    Phase (s.checked a how next) c.exit.isSome := by
  unfold RunState.checked
  split
  · exact hnext
  · exact h.exit how
  · exact hs

theorem goOn (hpid : s.runnerPid = c.pid) (hheld : s'.held = s.held)
    (htrace : s'.trace = s.trace) (hrunner : s'.runnerPid = s.runnerPid)
    (hpoint : s'.point.allows killed c.exit.isSome = true) : Phase s' c.exit.isSome :=
  .body g c killed (h.congr hheld htrace) rfl hpoint (.inr (hrunner.trans hpid))

theorem onWait (hpid : s.runnerPid = c.pid) (a : Answer) (how : Exit)
    {late : RunState} {next : WaitStatus → RunState → RunState} (hs : Phase s c.exit.isSome)
    (hlate : Phase late c.exit.isSome)
    (hnext : ∀ status s', (next status s').held = s'.held ∧ (next status s').trace = s'.trace ∧
      (next status s').runnerPid = s'.runnerPid ∧ (next status s').point = .joinStdout) :
    Phase (s.onWait a how late next) (c.exit.isSome || a.isExited) := by
  have hdone : ∀ status s' g' c', Guarded s' g' c' killed → c'.exit = some status →
      s'.runnerPid = c'.pid → Phase (next status s') true := by
    intro status s' g' c' h' hexit hpid'
    obtain ⟨hheld, htrace, hrunner, hpoint⟩ := hnext status s'
    have hphase : Phase (next status s') c'.exit.isSome := by
      refine h'.goOn hpid' hheld htrace hrunner ?_
      rw [hpoint, hexit]
      rfl
    rwa [hexit] at hphase
  rw [RunState.onWait, h.withGuard]
  have hexit : g.child.bind Child.exit = c.exit := by rw [h.child, Option.bind_some]
  have hcancel : Phase (s.exit .cancelled) c.exit.isSome := h.exit .cancelled
  have hfail : Phase (s.exit how) c.exit.isSome := h.exit how
  rw [hexit]
  cases hc : c.exit with
  | some status =>
    rw [hc] at hcancel
    cases a <;> first | exact hdone status s g c h hc hpid | exact hcancel
  | none =>
    rw [hc] at hs hlate hcancel hfail
    cases a with
    | cancelled => exact hcancel
    | exited status => exact hdone status _ _ _ (h.waited hc status) rfl hpid
    | failed => exact hfail
    | elapsed => exact hlate
    | _ => exact hs

theorem onJoin (a : Answer) {next : List UInt8 → RunState}
    (hs : Phase s c.exit.isSome) (hnext : ∀ bytes, Phase (next bytes) c.exit.isSome) :
    Phase (s.onJoin a next) c.exit.isSome := by
  unfold RunState.onJoin
  split
  · exact hnext _
  · exact hnext _
  · exact h.exit .cancelled
  · exact hs

theorem report (a : Answer) (hs : Phase s c.exit.isSome) :
    Phase (s.report a) c.exit.isSome := by
  unfold RunState.report
  split
  · exact h.exit _
  split
  · exact h.exit _
  · exact hs

end Guarded

namespace Phase

variable {cfg : RunConfig} {s : RunState}

theorem step_before (held : s.held = .nothing) (trace : s.trace = [])
    (point : s.point = .serialize ∨ s.point = .createPipe ∨ s.point = .spawn) (a : Answer) :
    Phase (Sandbox.step cfg s a) (false || (s.point.waits && a.isExited)) := by
  have hs : Phase s false := .before held trace rfl point
  have hexit : ∀ how, Phase (s.exit how) false := by
    intro how
    refine .refused how held ?_ (.inl rfl)
    rw [RunState.exit, RunState.note, trace]
    rfl
  have hchecked : ∀ how next, Phase next false → Phase (s.checked a how next) false := by
    intro how next hnext
    unfold RunState.checked
    split
    · exact hnext
    · exact hexit how
    · exact hs
  unfold Sandbox.step
  rcases point with hp | hp | hp
  · rw [hp]
    exact hchecked _ _ (.before held trace rfl (.inr (.inl rfl)))
  · rw [hp]
    exact hchecked _ _ (.before held trace rfl (.inr (.inr rfl)))
  rw [hp]
  cases a with
  | pid n =>
    refine .bare { pid := n } rfl rfl rfl ?_ rfl
    rw [RunState.goto, RunState.note, trace]
    rfl
  | failed => exact hexit _
  | _ => exact hs

section Body

variable {g : KillpgOnDrop} {c : Child} {killed : Bool}

theorem step_readGuardPid (h : Guarded s g c killed) (hp : s.point = .readGuardPid)
    (hallows : s.point.allows killed c.exit.isSome = true) (a : Answer) :
    Phase (Sandbox.step cfg s a) c.exit.isSome := by
  rw [hp, Point.allows, Bool.and_eq_true, Bool.not_eq_true', Bool.not_eq_true'] at hallows
  obtain ⟨rfl, hexit⟩ := hallows
  have hid : g.id = some c.pid := by
    rw [KillpgOnDrop.id, h.child, Option.bind_some, Child.id, hexit]
    rfl
  unfold Sandbox.step
  simp only [hp, h.withGuard, hid]
  refine .body g c false (h.congr rfl rfl) rfl ?_ (.inr rfl)
  cases cfg.cgroupRoot <;> simp [RunState.goto, Point.allows, hexit]

theorem step_killpg (h : Guarded s g c killed) (hp : s.point = .killpg)
    (hallows : s.point.allows killed c.exit.isSome = true) (hpid : s.runnerPid = c.pid)
    (a : Answer) : Phase (Sandbox.step cfg s a) c.exit.isSome := by
  have hs : Phase s c.exit.isSome := .body g c killed h rfl hallows (.inr hpid)
  rw [hp, Point.allows, Bool.and_eq_true, Bool.not_eq_true', Bool.not_eq_true'] at hallows
  obtain ⟨rfl, hexit⟩ := hallows
  have hnext : ∀ point : Point, point.allows true false = true →
      Phase ((s.note (.killpg s.runnerPid)).goto point) c.exit.isSome := by
    intro point hpoint
    refine .body g c true ⟨h.held, h.child, h.pid, ?_⟩ rfl (by rw [hexit]; exact hpoint)
      (.inr hpid)
    have htrace := h.trace
    rw [hexit] at htrace ⊢
    rw [RunState.goto, RunState.note, htrace, hpid]
    rfl
  unfold Sandbox.step
  rw [hp]
  cases a with
  | ok => exact hnext _ rfl
  | failed fault =>
    cases fault with
    | noSuchProcess => exact hnext _ rfl
    | _ => exact hnext _ (by split <;> rfl)
  | _ => exact hs

theorem step_waits (h : Guarded s g c killed) (hallows : s.point.allows killed c.exit.isSome = true)
    (hpid : s.runnerPid = c.pid) (hwaits : s.point.waits = true) (a : Answer) :
    Phase (Sandbox.step cfg s a) (c.exit.isSome || a.isExited) := by
  have hs : Phase s c.exit.isSome := .body g c killed h rfl hallows (.inr hpid)
  unfold Sandbox.step
  cases hp : s.point with
  | wait => exact h.onWait hpid a _ hs hs fun _ _ => ⟨rfl, rfl, rfl, rfl⟩
  | waitDeadline =>
    rw [hp] at hallows
    refine h.onWait hpid a _ hs (h.goOn hpid rfl rfl rfl ?_) fun _ _ => ⟨rfl, rfl, rfl, rfl⟩
    cases hcgroup : s.cgroup <;> exact hallows
  | killChild =>
    rw [hp, Point.allows, Bool.and_eq_true, Bool.not_eq_true'] at hallows
    obtain ⟨rfl, hexit⟩ := hallows
    have hnone : c.exit = none := by simpa using hexit
    have hcancel : Phase (s.exit .cancelled) c.exit.isSome := h.exit .cancelled
    have hfailed : Phase (s.goto .waitAfterKill) c.exit.isSome := h.goOn hpid rfl rfl rfl rfl
    rw [hnone] at hs hcancel hfailed
    simp only [h.withGuard, hnone]
    cases a with
    | exited status => exact (h.waited hnone status).goOn hpid rfl rfl rfl rfl
    | failed => exact hfailed
    | cancelled => exact hcancel
    | _ => exact hs
  | waitAfterKill => exact h.onWait hpid a _ hs (h.exit _) fun _ _ => ⟨rfl, rfl, rfl, rfl⟩
  | dropping =>
    rw [hp] at hallows
    cases hallows
  | _ =>
    rw [hp] at hwaits
    cases hwaits

theorem step_body (h : Guarded s g c killed) (hallows : s.point.allows killed c.exit.isSome = true)
    (hpid : s.point = .readGuardPid ∨ s.runnerPid = c.pid) (a : Answer) :
    Phase (Sandbox.step cfg s a) (c.exit.isSome || (s.point.waits && a.isExited)) := by
  have hs : Phase s c.exit.isSome := .body g c killed h rfl hallows hpid
  by_cases hread : s.point = .readGuardPid
  · rw [hread, show Point.waits .readGuardPid = false from rfl, Bool.false_and, Bool.or_false]
    exact step_readGuardPid h hread hallows a
  have hpid := hpid.resolve_left hread
  cases hwaits : s.point.waits with
  | true =>
    exact step_waits h hallows hpid hwaits a
  | false =>
  rw [Bool.false_and, Bool.or_false]
  by_cases hkill : s.point = .killpg
  · exact step_killpg h hkill hallows hpid a
  unfold Sandbox.step
  cases hp : s.point with
  | readGuardPid => exact absurd hp hread
  | killpg => exact absurd hp hkill
  | createCgroup | attachCgroup =>
    rw [hp] at hallows
    exact h.checked a _ hs (h.goOn hpid rfl rfl rfl hallows)
  | takeStdout =>
    rw [hp] at hallows
    simp only [h.withGuard]
    split
    · refine .body g.stdout.2 { c with stdout := false } killed ⟨rfl, ?_, h.pid, h.trace⟩ rfl
        hallows (.inr hpid)
      rw [KillpgOnDrop.stdout, h.child]
      rfl
    · exact h.exit _
  | takeStderr =>
    rw [hp] at hallows
    simp only [h.withGuard]
    split
    · refine .body g.stderr.2 { c with stderr := false } killed ⟨rfl, ?_, h.pid, h.trace⟩ rfl
        hallows (.inr hpid)
      rw [KillpgOnDrop.stderr, h.child]
      rfl
    · exact h.exit _
  | writeConfig =>
    rw [hp] at hallows
    have hwaiting : (if cfg.wallClock then Point.waitDeadline else .wait).allows killed
        c.exit.isSome = true := by
      cases cfg.wallClock <;> exact hallows
    cases a with
    | ok => exact h.goOn hpid rfl rfl rfl hwaiting
    | failed fault =>
      cases fault with
      | brokenPipe => exact h.goOn hpid rfl rfl rfl hwaiting
      | _ => exact h.exit _
    | _ => exact hs
  | killAll =>
    rw [hp] at hallows
    cases a with
    | ok | failed => exact h.goOn hpid rfl rfl rfl hallows
    | _ => exact hs
  | joinStdout | joinStderr =>
    rw [hp] at hallows
    exact h.onJoin a hs fun bytes => h.goOn hpid rfl rfl rfl hallows
  | finish => exact h.report a hs
  | wait | waitDeadline | killChild | waitAfterKill | dropping =>
    rw [hp] at hwaits
    cases hwaits
  | _ =>
    rw [hp] at hallows
    cases hallows

end Body

theorem step {reaped : Bool} (h : Phase s reaped) (a : Answer) :
    Phase (Sandbox.step cfg s a) (reaped || (s.point.waits && a.isExited)) := by
  cases h with
  | before held trace none point =>
    subst none
    exact step_before held trace point a
  | refused how held trace point =>
    have hended : ∀ w, Phase (s.goto (.ended how)) w := fun w => .refused how held trace (.inr rfl)
    unfold Sandbox.step
    rcases point with hp | hp
    · rw [hp]
      simpa only [RunState.dropLocals, held] using hended _
    · rw [hp]
      exact .refused how held trace (.inr hp)
  | bare c held exit none trace point =>
    have hid : c.id = some c.pid := by rw [Child.id, exit]; rfl
    subst none
    unfold Sandbox.step
    rw [point]
    simp only [held, hid]
    refine .body (.new c c.pid) c false ⟨rfl, rfl, rfl, ?_⟩ ?_ ?_ (.inl rfl)
    · rw [exit]
      exact trace
    · rw [exit]
      rfl
    · rw [exit]
      rfl
  | body g c killed guarded exit point runnerPid =>
    subst exit
    exact step_body guarded point runnerPid a
  | leaving how g c killed held child pid exit trace point =>
    have hdrop : g.drop a = (if c.exit.isNone && a.isExited then [.reaped] else []) ++
        [.killpg c.pid] := by
      rw [KillpgOnDrop.drop, KillpgOnDrop.take, child, pid]
      cases hexit : c.exit <;> cases a <;> simp [Child.drop, hexit, Answer.isExited]
    unfold Sandbox.step
    rw [point]
    refine .dropped how c.pid killed c.exit.isSome (c.exit.isNone && a.isExited) ?_ ?_ ?_
    · rw [exit, Point.waits, Bool.true_and]
      cases c.exit <;> rfl
    · simp only [RunState.dropLocals, held, RunState.goto, hdrop, trace, List.append_assoc]
    · simp only [RunState.dropLocals, held, RunState.goto]
  | dropped how pid killed early late exit trace point =>
    unfold Sandbox.step
    rw [point, show (Point.ended how).waits = false from rfl, Bool.false_and, Bool.or_false]
    exact .dropped how pid killed early late exit trace point

/-- **Whole calls.** -/
theorem run {reaped : Bool} (h : Phase s reaped) (answers : List Answer) :
    Phase (answers.foldl (Sandbox.step cfg) s) (reaped || waitedOk cfg s answers) := by
  induction answers generalizing s reaped with
  | nil => rwa [waitedOk, Bool.or_false]
  | cons a answers ih =>
    rw [waitedOk, ← Bool.or_assoc]
    exact ih (h.step a)

end Phase

theorem phase_run (cfg : RunConfig) (answers : List Answer) :
    Phase (run cfg answers) (waitedOk cfg {} answers) :=
  Phase.run (.before rfl rfl rfl (.inl rfl)) answers

/-! ## Signals -/

/-- The group an event signals. -/
def Event.group : Event → Option ℕ
  | .killpg pid => some pid
  | _ => none

/-- Does `run_action` begin to return? -/
def Event.isExit : Event → Bool
  | .exit _ => true
  | _ => false

/-- Has a wait on the runner returned? -/
def Event.isReaped : Event → Bool
  | .reaped => true
  | _ => false

/-- The groups that are signalled once `run_action` begins to return. -/
def signalledOnExit (trace : List Event) : List ℕ :=
  (trace.dropWhile fun e => !e.isExit).filterMap Event.group

/-- The groups that are signalled after a wait on the runner has returned `Ok`. -/
def signalledAfterReaping (trace : List Event) : List ℕ :=
  (trace.dropWhile fun e => !e.isReaped).filterMap Event.group

theorem mem_bodyTrace {pid n : ℕ} {killed reaped : Bool}
    (h : .spawned n ∈ bodyTrace pid killed reaped) : n = pid := by
  cases killed <;> cases reaped <;> simpa [bodyTrace] using h

theorem signalledAfterReaping_bodyTrace (pid : ℕ) (killed reaped : Bool) :
    signalledAfterReaping (bodyTrace pid killed reaped) = [] := by
  cases killed <;> cases reaped <;> rfl

theorem signalled_over (pid : ℕ) (killed early late : Bool) (how : Exit) {trace : List Event}
    (h : trace = bodyTrace pid killed early ++
      ([.exit how] ++ ((if late then [.reaped] else []) ++ [.killpg pid]))) :
    signalledOnExit trace = [pid] ∧
      signalledAfterReaping trace = if early || late then [pid] else [] := by
  subst h
  cases killed <;> cases early <;> cases late <;> exact ⟨rfl, rfl⟩

/-- **Signals and reaping.**  Whatever the system answers: every exit after the runner was
spawned sends SIGKILL to its process group.  Until `run_action` has ended no signal follows a
wait that returned `Ok`.  Once it has ended one does, the signal of the guard, exactly if the
system answered a wait on the runner with its status. -/
theorem signals_and_reaping (cfg : RunConfig) (answers : List Answer) :
    (∀ how pid, (run cfg answers).point = .ended how → .spawned pid ∈ (run cfg answers).trace →
        signalledOnExit (run cfg answers).trace = [pid] ∧
        signalledAfterReaping (run cfg answers).trace =
          if waitedOk cfg {} answers then [pid] else []) ∧
      ((∀ how, (run cfg answers).point ≠ .ended how) →
        signalledAfterReaping (run cfg answers).trace = []) := by
  have hphase := phase_run cfg answers
  cases hphase with
  | before held trace =>
    rw [trace]
    refine ⟨fun _ _ _ hmem => ?_, fun _ => rfl⟩
    cases hmem
  | refused how held trace =>
    rw [trace]
    refine ⟨fun _ _ _ hmem => ?_, fun _ => rfl⟩
    simp at hmem
  | bare c held exit none trace point =>
    refine ⟨fun how _ hended => ?_, fun _ => by rw [trace]; rfl⟩
    rw [point] at hended
    cases hended
  | body g c killed guarded exit point =>
    refine ⟨fun how _ hended => ?_, fun _ => ?_⟩
    · rw [hended] at point
      cases point
    · rw [guarded.trace]
      exact signalledAfterReaping_bodyTrace _ _ _
  | leaving how g c killed held child pid exit trace point =>
    refine ⟨fun how' _ hended => ?_, fun _ => ?_⟩
    · rw [point] at hended
      cases hended
    · rw [trace]
      cases killed <;> cases c.exit <;> rfl
  | dropped how pid killed early late exit trace point =>
    refine ⟨fun how' n _ hmem => ?_, fun hnot => absurd point (hnot how)⟩
    have hn : n = pid := by
      rw [trace] at hmem
      rcases List.mem_append.1 hmem with hbody | hrest
      · exact mem_bodyTrace hbody
      · cases late <;> simp at hrest
    subst hn
    rw [exit]
    exact signalled_over n killed early late how trace

namespace Sample

/-- The answers up to the wait: everything succeeds. -/
def started : List Answer := [.ok, .ok, .pid 7, .ok, .ok, .ok, .ok, .ok]

end Sample

open Sample

/-- The future is cancelled while it waits: the group is signalled, and no wait was answered.
The deadline passes, the group is signalled, and the wait is answered: no signal follows
until the call has ended. -/
theorem signals_and_reaping_sample :
    (signalledOnExit (run ⟨false, false⟩ (started ++ [.cancelled, .ok])).trace = [7] ∧
      signalledAfterReaping (run ⟨false, false⟩ (started ++ [.cancelled, .ok])).trace = []) ∧
    (run ⟨false, true⟩ (started ++ [.elapsed, .ok, .exited ⟨none, some 9⟩])).trace =
      [.spawned 7, .killpg 7, .reaped] ∧
    signalledAfterReaping (run ⟨false, true⟩
      (started ++ [.elapsed, .ok, .exited ⟨none, some 9⟩])).trace = [] := by
  refine ⟨(signals_and_reaping ⟨false, false⟩ (started ++ [.cancelled, .ok])).1 .cancelled 7
    (by decide) (by decide), by decide, ?_⟩
  refine (signals_and_reaping ⟨false, true⟩
    (started ++ [.elapsed, .ok, .exited ⟨none, some 9⟩])).2 ?_
  intro how hended
  have hpoint : (run ⟨false, true⟩ (started ++ [.elapsed, .ok, .exited ⟨none, some 9⟩])).point =
      .joinStdout := by decide
  cases hended

/-- The runner exits, the wait returns, and the guard signals its process group. -/
theorem signalled_after_reaping :
    (run ⟨false, false⟩ (started ++
        [.exited ⟨some 0, none⟩, .captured [], .captured [], .oom false, .ok])).trace =
        [.spawned 7, .reaped, .exit (.finished (.exited 0) [] []), .killpg 7] ∧
      signalledAfterReaping (run ⟨false, false⟩ (started ++
        [.exited ⟨some 0, none⟩, .captured [], .captured [], .oom false, .ok])).trace = [7] := by
  decide

end Brokkr.Sandbox
