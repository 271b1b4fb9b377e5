import Brokkr.Lib.Checks
import Brokkr.Lib.Text
import Brokkr.Control.Workers

/-!
# Scheduling policies in WebAssembly

An operator can replace the built-in choice of a worker by a WebAssembly module
(`brokkr-policy`, `wasm_strategy.rs`).  The module is called once per placement; whatever
it does, the placement is made.  After too many failures in a row it is not called any
more, until a module is loaded.

* `GuestRun.call`, `PolicyEngine.decide`, `PolicyEngine.load` — the engine.  What the
  runtime makes of a module is given by a `GuestRun` or a `LoadRun`, so that a guest may
  behave differently at each call.
* `WasmStrategy.chooseWith` — the strategy, with the built-in answer to fall back on.
* `streak` — the failures in a row, read off the history of a run; `SameStreak` — the
  counter of the engine is that number, and does not wrap.
-/

namespace Brokkr.Control

open Checks List

/-! ## Failures -/

/-- Why a decision failed. -/
inductive PolicyFailure where
  | trap (text : String)
  | fuelExhausted
  | deadline
  | badIndex (returned : ℤ) (candidates : ℕ)
  | instantiate (text : String)
  | memory (text : String)
  | notLoaded
  | quarantined (consecutive : ℕ)
  deriving DecidableEq

namespace PolicyFailure

/-- The message of a failure. -/
def toString : PolicyFailure → String
  | .trap text => s!"policy trapped: {text}"
  | .fuelExhausted => "policy exhausted its fuel budget"
  | .deadline => "policy exceeded its wall-clock deadline"
  | .badIndex returned candidates =>
    s!"policy returned index {returned}, which is not a candidate (0..{candidates}) or DECLINE"
  | .instantiate text => s!"instantiating the policy for this decision: {text}"
  | .memory text => s!"policy could not receive the snapshot: {text}"
  | .notLoaded => "no policy module is loaded"
  | .quarantined consecutive =>
    s!"policy is quarantined after {consecutive} consecutive failures; " ++
      "reload the module to clear it"

/-- Does the failure say something about the module? -/
def countsTowardQuarantine : PolicyFailure → Bool
  | .notLoaded => false
  | .quarantined _ => false
  | _ => true

end PolicyFailure

/-- Why a module could not be loaded. -/
inductive PolicyError where
  | compile (text : String)
  | missingExport (name detail : String)
  | abiMismatch (found expected : ℕ)
  | smokeTest (failure : PolicyFailure)
  | engine (text : String)
  deriving DecidableEq

/-! ## One call of a guest -/

/-- The export that gives the version of the interface. -/
def exportAbiVersion : String := "brokkr_abi_version"

/-- The export that allocates guest memory. -/
def exportAlloc : String := "brokkr_alloc"

/-- The export that chooses a worker. -/
def exportChoose : String := "brokkr_choose"

/-- The export of the linear memory. -/
def exportMemory : String := "memory"

/-- The version of the interface. -/
def policyAbiVersion : ℕ := 1

/-- What a guest returns to decline. -/
def decline : ℤ := -1

/-- What a guest returned, once it is checked. -/
inductive Decision where
  | chose (idx : ℕ)
  | declined
  deriving DecidableEq

/-- Check a returned value against the number of candidates. -/
def interpret (raw : ℤ) (candidateCount : ℕ) : Except PolicyFailure Decision :=
  if raw = decline then .ok .declined
  else if raw < 0 then .error (.badIndex raw candidateCount)
  else if raw.toNat < candidateCount then .ok (.chose raw.toNat)
  else .error (.badIndex raw candidateCount)

/-- An error of a call into the guest. -/
inductive CallError where
  | outOfFuel
  | interrupt
  | trap (text : String)
  | other (fuelLeft : Option ℕ) (text : String)

/-- Is one text part of another? -/
def hasText (text pattern : String) : Bool := Text.hasPart pattern.toList text.toList

/-- Turn an error of a call into a failure. -/
def classify : CallError → PolicyFailure
  | .outOfFuel => .fuelExhausted
  | .interrupt => .deadline
  | .trap text => .trap text
  | .other fuelLeft text =>
    if fuelLeft = some 0 then .fuelExhausted
    else if hasText text "epoch deadline" || hasText text "interrupt" then .deadline
    else if hasText text "fuel" then .fuelExhausted
    else .trap text

/-- What the runtime and the guest make of one decision. -/
structure GuestRun where
  setFuel : Except String Unit
  instantiate : Except String Unit
  snapshotLen : ℕ
  allocExport : Except String Unit
  alloc : Except CallError ℤ
  hasMemory : Bool
  write : Except String Unit
  chooseExport : Except String Unit
  choose : Except CallError ℤ

/-- A store with fuel and a deadline. -/
def newStore (setFuel : Except String Unit) : Except PolicyFailure Unit :=
  setFuel.mapError fun e => .instantiate s!"setting fuel: {e}"

/-- One invocation of the guest, in a store of its own. -/
def GuestRun.call (run : GuestRun) (candidateCount : ℕ) : Except PolicyFailure Decision := do
  newStore run.setFuel
  run.instantiate.mapError .instantiate
  ensure (run.snapshotLen < 2 ^ 31) (.memory "snapshot exceeds i32::MAX bytes")
  run.allocExport.mapError fun e => .memory s!"{exportAlloc}: {e}"
  let ptr ← run.alloc.mapError classify
  ensure run.hasMemory (.memory s!"no `{exportMemory}` export")
  ensure (0 ≤ ptr) (.memory s!"{exportAlloc} returned {ptr}")
  run.write.mapError fun e => .memory s!"writing the snapshot: {e}"
  run.chooseExport.mapError fun e => .memory s!"{exportChoose}: {e}"
  let raw ← run.choose.mapError classify
  interpret raw candidateCount

/-! ## The engine -/

/-- Limits of an engine. -/
structure PolicyLimits where
  quarantineThreshold : ℕ
  isU32 : quarantineThreshold < 2 ^ 32

/-- A runtime with at most one module. -/
structure PolicyEngine where
  limits : PolicyLimits
  module : Option (List UInt8)
  consecutiveFailures : ℕ

/-- What the runtime makes of loading a module. -/
structure LoadRun where
  compile : Except String Unit
  link : Except String Unit
  setFuel : Except String Unit
  instantiate : Except String Unit
  hasMemory : Bool
  allocExport : Except String Unit
  chooseExport : Except String Unit
  versionExport : Except String Unit
  version : Except String ℤ
  smoke : GuestRun

/-- Are the exports there, with the right types and version? -/
def LoadRun.checkExportsAndAbi (run : LoadRun) : Except PolicyError Unit := do
  (newStore run.setFuel).mapError fun f => .engine f.toString
  run.instantiate.mapError fun e => .compile s!"instantiating for validation: {e}"
  ensure run.hasMemory
    (.missingExport exportMemory "the guest must export its linear memory")
  run.allocExport.mapError fun e => .missingExport exportAlloc s!"expected (i32) -> i32: {e}"
  run.chooseExport.mapError fun e => .missingExport exportChoose s!"expected (i32, i32) -> i32: {e}"
  run.versionExport.mapError fun e => .missingExport exportAbiVersion s!"expected () -> i32: {e}"
  let found ← run.version.mapError fun e => .compile s!"calling {exportAbiVersion}: {e}"
  let found := if found < 0 then 2 ^ 32 - 1 else found.toNat
  ensure (found = policyAbiVersion) (.abiMismatch found policyAbiVersion)

/-- A made-up decision between two candidates. -/
def LoadRun.smokeTest (run : LoadRun) : Except PolicyError Unit :=
  match run.smoke.call 2 with
  | .ok _ => .ok ()
  | .error f => .error (.smokeTest f)

/-- Everything that is checked before a module is installed. -/
def LoadRun.validate (run : LoadRun) : Except PolicyError Unit := do
  run.compile.mapError .compile
  run.link.mapError fun e => .compile s!"resolving imports: {e}"
  run.checkExportsAndAbi
  run.smokeTest

/-- The result of a decision, the engine after it, and whether the guest was called. -/
structure Decided where
  result : Except PolicyFailure Decision
  engine : PolicyEngine
  invoked : Bool

namespace PolicyEngine

/-- An engine without a module. -/
def new (limits : PolicyLimits) : PolicyEngine where
  limits := limits
  module := none
  consecutiveFailures := 0

/-- Install a module if it passes every check; otherwise nothing changes. -/
def load (e : PolicyEngine) (wasm : List UInt8) (run : LoadRun) :
    Except PolicyError Unit × PolicyEngine :=
  match run.validate with
  | .ok () => (.ok (), { e with module := some wasm, consecutiveFailures := 0 })
  | .error err => (.error err, e)

/-- Is the policy not called any more? -/
def isQuarantined (e : PolicyEngine) : Bool :=
  decide (e.limits.quarantineThreshold ≤ e.consecutiveFailures)

/-- Run one decision. -/
def decide (e : PolicyEngine) (run : GuestRun) (candidateCount : ℕ) : Decided :=
  if e.module.isNone then { result := .error .notLoaded, engine := e, invoked := false }
  else if e.isQuarantined then
    { result := .error (.quarantined e.consecutiveFailures), engine := e, invoked := false }
  else
    match run.call candidateCount with
    | .ok d => { result := .ok d, engine := { e with consecutiveFailures := 0 }, invoked := true }
    | .error f =>
      { result := .error f
        engine :=
          if f.countsTowardQuarantine then
            { e with consecutiveFailures := (e.consecutiveFailures + 1) % 2 ^ 32 }
          else e
        invoked := true }

end PolicyEngine

/-! ## The strategy -/

/-- `fetch_add(1)` on an `AtomicU64`. -/
def fetchAdd (counter : ℕ) : ℕ := (counter + 1) % 2 ^ 64

/-- How many decisions failed, by reason. -/
structure PolicyFailureCounts where
  trap : ℕ := 0
  fuelExhausted : ℕ := 0
  deadline : ℕ := 0
  badIndex : ℕ := 0
  instantiate : ℕ := 0
  memory : ℕ := 0
  notLoaded : ℕ := 0
  quarantined : ℕ := 0

namespace PolicyFailureCounts

variable (c : PolicyFailureCounts)

/-- Count a failure under its reason. -/
def record : PolicyFailure → PolicyFailureCounts
  | .trap _ => { c with trap := fetchAdd c.trap }
  | .fuelExhausted => { c with fuelExhausted := fetchAdd c.fuelExhausted }
  | .deadline => { c with deadline := fetchAdd c.deadline }
  | .badIndex _ _ => { c with badIndex := fetchAdd c.badIndex }
  | .instantiate _ => { c with instantiate := fetchAdd c.instantiate }
  | .memory _ => { c with memory := fetchAdd c.memory }
  | .notLoaded => { c with notLoaded := fetchAdd c.notLoaded }
  | .quarantined _ => { c with quarantined := fetchAdd c.quarantined }

/-- Failures of all reasons. -/
def total : ℕ :=
  [c.trap, c.fuelExhausted, c.deadline, c.badIndex, c.instantiate, c.memory, c.notLoaded,
    c.quarantined].sum

theorem total_record (hroom : c.total + 1 < 2 ^ 64) (f : PolicyFailure) :
    (c.record f).total = c.total + 1 := by
  simp only [total, sum_cons, sum_nil] at hroom
  cases f <;> simp only [record, total, fetchAdd, sum_cons, sum_nil] <;> omega

end PolicyFailureCounts

/-- A strategy that asks a policy and falls back on a built-in one. -/
structure WasmStrategy where
  engine : PolicyEngine
  counts : PolicyFailureCounts
  decided : ℕ
  declined : ℕ

namespace WasmStrategy

/-- A strategy with an engine that has no module yet. -/
def new (limits : PolicyLimits) : WasmStrategy where
  engine := .new limits
  counts := {}
  decided := 0
  declined := 0

/-- Install a module. -/
def load (s : WasmStrategy) (wasm : List UInt8) (run : LoadRun) : WasmStrategy :=
  { s with engine := (s.engine.load wasm run).2 }

/-- Count a failure and give the built-in answer. -/
def fallBack (s : WasmStrategy) (failure : PolicyFailure) (candidates : List WorkerId)
    (ctx : DecisionContext) : Option WorkerId × WasmStrategy :=
  (simpleFifo.chooseWith 0 candidates ctx, { s with counts := s.counts.record failure })

/-- Choose a worker. -/
def chooseWith (s : WasmStrategy) (candidates : List WorkerId) (ctx : DecisionContext)
    (run : GuestRun) : Option WorkerId × WasmStrategy :=
  if candidates.isEmpty then (none, s)
  else
    let d := s.engine.decide run candidates.length
    let s := { s with engine := d.engine }
    match d.result with
    | .ok (.chose idx) =>
      let s := { s with decided := fetchAdd s.decided }
      match candidates[idx]? with
      | some w => (some w, s)
      | none => s.fallBack (.badIndex idx candidates.length) candidates ctx
    | .ok .declined =>
      (simpleFifo.chooseWith 0 candidates ctx, { s with declined := fetchAdd s.declined })
    | .error f => s.fallBack f candidates ctx

/-- Does the choice call the guest? -/
def invokes (s : WasmStrategy) (candidates : List WorkerId) (run : GuestRun) : Bool :=
  !candidates.isEmpty && (s.engine.decide run candidates.length).invoked

end WasmStrategy

/-! ## Runs -/

/-- What is done with a strategy. -/
inductive PolicyOp where
  | load (wasm : List UInt8) (run : LoadRun)
  | choose (candidates : List WorkerId) (ctx : DecisionContext) (run : GuestRun)

/-- Is it a choice with something to choose from? -/
def PolicyOp.isCall : PolicyOp → Bool
  | .load _ _ => false
  | .choose candidates _ _ => !candidates.isEmpty

/-- What an operation means for the policy. -/
inductive PolicyEvent where
  | loaded
  | succeeded
  | failed (f : PolicyFailure)

/-- The event of a decision. -/
def PolicyEvent.ofResult : Except PolicyFailure Decision → PolicyEvent
  | .ok _ => .succeeded
  | .error f => .failed f

/-- The failures that count, since the last success or the last installed module. -/
def streak (events : List PolicyEvent) : ℕ :=
  events.foldl (fun n e => match e with
    | .loaded => 0
    | .succeeded => 0
    | .failed f => if f.countsTowardQuarantine then n + 1 else n) 0

namespace WasmStrategy

/-- One operation. -/
def step (s : WasmStrategy) : PolicyOp → WasmStrategy
  | .load wasm run => s.load wasm run
  | .choose candidates ctx run => (s.chooseWith candidates ctx run).2

/-- Operations one after the other. -/
def after (s : WasmStrategy) (ops : List PolicyOp) : WasmStrategy := ops.foldl step s

/-- The event of an operation. -/
def event? (s : WasmStrategy) : PolicyOp → Option PolicyEvent
  | .load wasm run => if (s.engine.load wasm run).1.isOk then some .loaded else none
  | .choose candidates _ run =>
    if candidates.isEmpty then none
    else some (.ofResult (s.engine.decide run candidates.length).result)

/-- The events of a run. -/
def events (s : WasmStrategy) : List PolicyOp → List PolicyEvent
  | [] => []
  | op :: ops => (s.event? op).toList ++ (s.step op).events ops

end WasmStrategy

/-! ## One decision -/

theorem interpret_lt {raw : ℤ} {n idx : ℕ} (h : interpret raw n = .ok (.chose idx)) : idx < n := by
  rw [interpret] at h
  split at h
  · cases h
  split at h
  · cases h
  split at h
  · cases h
    assumption
  · cases h

theorem GuestRun.interpret_of_call {run : GuestRun} {n : ℕ} {d : Decision}
    (h : run.call n = .ok d) : ∃ raw, interpret raw n = .ok d := by
  simp only [GuestRun.call, bind_eq_ok] at h
  obtain ⟨-, -, -, -, -, -, -, -, ptr, -, -, -, -, -, -, -, -, -, raw, -, hraw⟩ := h
  exact ⟨raw, hraw⟩

theorem PolicyEngine.decide_cases (e : PolicyEngine) (run : GuestRun) (n : ℕ) :
    (∃ f, e.decide run n = ⟨.error f, e, false⟩ ∧ f.countsTowardQuarantine = false) ∨
    (e.consecutiveFailures < e.limits.quarantineThreshold ∧ ((∃ d, run.call n = .ok d ∧
        e.decide run n = ⟨.ok d, { e with consecutiveFailures := 0 }, true⟩) ∨
      (∃ f, e.decide run n = ⟨.error f, if f.countsTowardQuarantine then
            { e with consecutiveFailures := (e.consecutiveFailures + 1) % 2 ^ 32 } else e,
          true⟩))) := by
  rw [PolicyEngine.decide]
  split
  · exact .inl ⟨_, rfl, rfl⟩
  split
  · exact .inl ⟨_, rfl, rfl⟩
  rename_i hquarantine
  refine .inr ⟨?_, ?_⟩
  · simpa [PolicyEngine.isQuarantined] using hquarantine
  cases hcall : run.call n with
  | ok d => exact .inl ⟨d, rfl, rfl⟩
  | error f => exact .inr ⟨f, rfl⟩

/-! ## One choice -/

namespace WasmStrategy

variable {s : WasmStrategy} {candidates : List WorkerId} {ctx : DecisionContext} {run : GuestRun}

/-- Choices that are accounted for. -/
def accounted (s : WasmStrategy) : ℕ := s.decided + s.declined + s.counts.total

theorem accounted_fallBack (s : WasmStrategy) (f : PolicyFailure)
    (hroom : s.accounted + 1 < 2 ^ 64) :
    (s.fallBack f candidates ctx).2.accounted = s.accounted + 1 := by
  simp only [accounted, fallBack] at hroom ⊢
  rw [s.counts.total_record (by omega)]
  omega

theorem chooseWith_spec (s : WasmStrategy) (h : candidates ≠ []) :
    (∃ w ∈ candidates, (s.chooseWith candidates ctx run).1 = some w) ∧
    (s.accounted + 1 < 2 ^ 64 →
      (s.chooseWith candidates ctx run).2.accounted = s.accounted + 1) ∧
    (s.chooseWith candidates ctx run).2.engine =
      (s.engine.decide run candidates.length).engine := by
  -- the built-in answer
  have hfifo : ∃ w ∈ candidates, simpleFifo.chooseWith 0 candidates ctx = some w := by
    have hsome : (simpleFifo.chooseWith 0 candidates ctx).isSome = true := simpleFifo_abides.some h
    obtain ⟨w, hw⟩ := Option.isSome_iff_exists.1 hsome
    exact ⟨w, simpleFifo_abides.mem hw, hw⟩
  rw [chooseWith, if_neg (by simpa using h)]
  rcases s.engine.decide_cases run candidates.length with
    ⟨f, hd, -⟩ | ⟨-, ⟨d, hcall, hd⟩ | ⟨f, hd⟩⟩
  · simp only [hd]
    exact ⟨hfifo, fun hroom => accounted_fallBack _ f hroom, rfl⟩
  · cases d with
    | declined =>
      simp only [hd]
      refine ⟨hfifo, fun hroom => ?_, trivial⟩
      simp only [accounted, fetchAdd] at hroom ⊢
      omega
    | chose =>
      obtain ⟨raw, hraw⟩ := GuestRun.interpret_of_call hcall
      have hidx := interpret_lt hraw
      simp only [hd, getElem?_eq_getElem hidx]
      refine ⟨⟨_, getElem_mem hidx, rfl⟩, fun hroom => ?_, trivial⟩
      simp only [accounted, fetchAdd] at hroom ⊢
      omega
  · simp only [hd]
    exact ⟨hfifo, fun hroom => accounted_fallBack _ f hroom, rfl⟩

theorem chooseWith_nil (s : WasmStrategy) : s.chooseWith [] ctx run = (none, s) := rfl

/-! ## A run -/

theorem after_append (s : WasmStrategy) (ops : List PolicyOp) (op : PolicyOp) :
    s.after (ops ++ [op]) = (s.after ops).step op := by
  rw [after, foldl_append]
  rfl

theorem events_append (s : WasmStrategy) (ops : List PolicyOp) (op : PolicyOp) :
    s.events (ops ++ [op]) = s.events ops ++ ((s.after ops).event? op).toList := by
  induction ops generalizing s with
  | nil => simp [events, after]
  | cons first ops ih =>
    rw [cons_append, events, ih, events, append_assoc]
    rfl

end WasmStrategy

@[simp] theorem streak_loaded (events : List PolicyEvent) : streak (events ++ [.loaded]) = 0 := by
  simp [streak]

@[simp] theorem streak_succeeded (events : List PolicyEvent) :
    streak (events ++ [.succeeded]) = 0 := by
  simp [streak]

@[simp] theorem streak_failed (events : List PolicyEvent) (f : PolicyFailure) :
    streak (events ++ [.failed f]) =
      if f.countsTowardQuarantine then streak events + 1 else streak events := by
  simp [streak]

/-- The counter of the engine is the streak, which does not pass the threshold. -/
structure SameStreak (limits : PolicyLimits) (events : List PolicyEvent) (e : PolicyEngine) :
    Prop where
  limits_eq : e.limits = limits
  counter : e.consecutiveFailures = streak events
  le : streak events ≤ limits.quarantineThreshold

namespace SameStreak

variable {limits : PolicyLimits} {events : List PolicyEvent} {e : PolicyEngine}

theorem load (h : SameStreak limits events e) (wasm : List UInt8) (run : LoadRun) :
    SameStreak limits
      (events ++ (if (e.load wasm run).1.isOk then some PolicyEvent.loaded else none).toList)
      (e.load wasm run).2 := by
  rw [PolicyEngine.load]
  cases run.validate with
  | error => simpa [Except.isOk, Except.toBool] using h
  | ok =>
    refine ⟨h.limits_eq, ?_, ?_⟩
    · simp [Except.isOk, Except.toBool]
    · simp [Except.isOk, Except.toBool]

theorem decide (h : SameStreak limits events e) (run : GuestRun) (n : ℕ) :
    SameStreak limits (events ++ [.ofResult (e.decide run n).result])
      (e.decide run n).engine := by
  rcases e.decide_cases run n with ⟨f, hd, hf⟩ | ⟨hlt, ⟨d, -, hd⟩ | ⟨f, hd⟩⟩
  · rw [hd]
    refine ⟨h.limits_eq, ?_, ?_⟩
    · simp [PolicyEvent.ofResult, hf, h.counter]
    · simpa [PolicyEvent.ofResult, hf] using h.le
  · rw [hd]
    exact ⟨h.limits_eq, by simp [PolicyEvent.ofResult], by simp [PolicyEvent.ofResult]⟩
  -- the counter is below a threshold of 32 bits, so that one more does not wrap
  have hroom : streak events + 1 ≤ limits.quarantineThreshold := by
    rw [h.counter, h.limits_eq] at hlt
    exact hlt
  have hwrap : (streak events + 1) % 2 ^ 32 = streak events + 1 :=
    Nat.mod_eq_of_lt (hroom.trans_lt limits.isU32)
  rw [hd]
  cases hf : f.countsTowardQuarantine with
  | false =>
    refine ⟨by simpa using h.limits_eq, ?_, ?_⟩
    · simp [PolicyEvent.ofResult, hf, h.counter]
    · simpa [PolicyEvent.ofResult, hf] using h.le
  | true =>
    refine ⟨by simpa using h.limits_eq, ?_, ?_⟩
    · rw [if_pos rfl, PolicyEvent.ofResult, streak_failed, if_pos hf, h.counter, hwrap]
    · simpa [PolicyEvent.ofResult, hf] using hroom

theorem step {s : WasmStrategy} (h : SameStreak limits events s.engine) (op : PolicyOp) :
    SameStreak limits (events ++ (s.event? op).toList) (s.step op).engine := by
  cases op with
  | load wasm run => exact h.load wasm run
  | choose candidates ctx run =>
    by_cases hempty : candidates = []
    · subst hempty
      simpa [WasmStrategy.event?, WasmStrategy.step, WasmStrategy.chooseWith_nil] using h
    rw [WasmStrategy.step, (s.chooseWith_spec hempty).2.2, WasmStrategy.event?,
      if_neg (by simpa using hempty)]
    exact h.decide run candidates.length

theorem after (limits : PolicyLimits) (ops : List PolicyOp) :
    SameStreak limits ((WasmStrategy.new limits).events ops)
      ((WasmStrategy.new limits).after ops).engine := by
  induction ops using reverseRecOn with
  | nil => exact ⟨rfl, rfl, Nat.zero_le _⟩
  | append_singleton ops op ih =>
    rw [WasmStrategy.events_append, WasmStrategy.after_append]
    exact ih.step op

end SameStreak

theorem WasmStrategy.accounted_step (s : WasmStrategy) (op : PolicyOp)
    (hroom : s.accounted + (if op.isCall then 1 else 0) < 2 ^ 64) :
    (s.step op).accounted = s.accounted + if op.isCall then 1 else 0 := by
  cases op with
  | load => rfl
  | choose candidates =>
    by_cases hempty : candidates = []
    · subst hempty
      rfl
    · rw [PolicyOp.isCall, if_pos (by simpa using hempty)] at hroom ⊢
      exact (s.chooseWith_spec hempty).2.1 hroom

theorem WasmStrategy.accounted_after (s : WasmStrategy) (ops : List PolicyOp)
    (hroom : s.accounted + ops.countP PolicyOp.isCall < 2 ^ 64) :
    (s.after ops).accounted = s.accounted + ops.countP PolicyOp.isCall := by
  induction ops using reverseRecOn with
  | nil => rfl
  | append_singleton ops op ih =>
    rw [countP_append, countP_singleton, ← Nat.add_assoc] at hroom ⊢
    have hops := ih (by omega)
    rw [after_append, accounted_step _ _ (by rwa [hops]), hops]

/-- Whatever the guests do, a placement is made exactly when there is a candidate, every
such call is counted once, as long as there are fewer than 2^64, and after too many failures
in a row the guest is left alone. -/
theorem policy_isolated (limits : PolicyLimits) (ops : List PolicyOp) :
    (ops.countP PolicyOp.isCall < 2 ^ 64 →
      ((WasmStrategy.new limits).after ops).decided +
        ((WasmStrategy.new limits).after ops).declined +
        ((WasmStrategy.new limits).after ops).counts.total = ops.countP PolicyOp.isCall) ∧
    ∀ (candidates : List WorkerId) (ctx : DecisionContext) (run : GuestRun), ((∃ w ∈ candidates,
          (((WasmStrategy.new limits).after ops).chooseWith candidates ctx run).1 = some w) ↔
        candidates ≠ []) ∧
      ((((WasmStrategy.new limits).after ops).chooseWith candidates ctx run).1 = none ↔
        candidates = []) ∧
      (((WasmStrategy.new limits).after ops).invokes candidates run = true →
        streak ((WasmStrategy.new limits).events ops) < limits.quarantineThreshold) := by
  have hstreak := SameStreak.after limits ops
  refine ⟨?_, fun candidates ctx run => ⟨⟨?_, ?_⟩, ⟨?_, ?_⟩, ?_⟩⟩
  · intro hroom
    have h := (WasmStrategy.new limits).accounted_after ops
    rw [show (WasmStrategy.new limits).accounted = 0 from rfl, Nat.zero_add] at h
    exact h hroom
  · rintro ⟨w, hw, -⟩ rfl
    cases hw
  · intro h
    exact (WasmStrategy.chooseWith_spec _ h).1
  · intro hnone
    by_contra h
    obtain ⟨w, -, hw⟩ := (WasmStrategy.chooseWith_spec _ h).1
    rw [hnone] at hw
    cases hw
  · rintro rfl
    rfl
  · intro hinvokes
    rw [WasmStrategy.invokes, Bool.and_eq_true] at hinvokes
    rcases PolicyEngine.decide_cases ((WasmStrategy.new limits).after ops).engine run
      candidates.length with ⟨f, hd, -⟩ | ⟨hlt, -⟩
    · rw [hd] at hinvokes
      cases hinvokes.2
    · rwa [hstreak.counter, hstreak.limits_eq] at hlt

end Brokkr.Control
