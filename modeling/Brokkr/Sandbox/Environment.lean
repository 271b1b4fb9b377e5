import Brokkr.Lib.Checks
import Brokkr.Lib.Text

/-!
# The environment of an action

The runner of `brokkr-sandbox` makes the environment of an action from the list it is
given: `determinism.rs` applies the determinism policy to the list, `exec.rs` makes the
block of `name=value` strings that `execvpe` takes.  The list may bind a name more than
once.

* `scrubEnv`, `buildEnv` — the two functions.
* `bindings` — how a program reads the block: a string binds what stands before its first
  `=` to what follows.  `bindings_buildEnv` — it reads the list back.
* `valuesOf` — all values of a name; `valuesOf_upsert`, `valuesOf_stripped` — what the
  parts of `scrubEnv` do to them.
* `deterministic_environment` — the block is as the policy says exactly when the bindings
  that `upsert` leaves have the forced value already.  `second_timezone` — `upsert` sets
  the first binding of a name only.
-/

namespace Brokkr.Sandbox

open Checks List

/-- An environment: names with their values, in order. -/
abbrev Env := List (String × String)

/-- Determinism guards. -/
structure DeterminismPolicy where
  timezoneUtc : Bool := false
  sourceDateEpoch : Option ℤ := none
  stripLdPreload : Bool := false
  stripPath : Bool := false
  deriving DecidableEq

variable {name : String} {policy : DeterminismPolicy}

/-- The fixed default of `PATH`. -/
def defaultPath : String := "/usr/bin:/bin"

/-! ## The two functions -/

/-- Is a name left out of the list? -/
def DeterminismPolicy.drops (policy : DeterminismPolicy) (name : String) : Bool :=
  (policy.stripLdPreload && (name == "LD_PRELOAD" || name == "LD_LIBRARY_PATH")) ||
    (policy.stripPath && name == "PATH")

/-- Set the first binding of a key, or add one at the end. -/
def upsert (env : Env) (key val : String) : Env :=
  match env with
  | [] => [(key, val)]
  | entry :: rest => if entry.1 = key then (entry.1, val) :: rest else entry :: upsert rest key val

/-- The first half of `scrubEnv`: leave names out, and add the fixed `PATH`. -/
def stripped (env : Env) (policy : DeterminismPolicy) : Env :=
  let out := env.filter fun entry => !policy.drops entry.1
  if policy.stripPath then out ++ [("PATH", defaultPath)] else out

/-- The environment after the policy was applied. -/
def scrubEnv (env : Env) (policy : DeterminismPolicy) : Env :=
  let out := stripped env policy
  let out := if policy.timezoneUtc then upsert out "TZ" "UTC0" else out
  match policy.sourceDateEpoch with
  | some epoch => upsert out "SOURCE_DATE_EPOCH" (toString epoch)
  | none => out

/-- A string without NUL. -/
structure CString where
  text : String
  noNul : '\x00' ∉ text.toList
  deriving DecidableEq

/-- `CString::new`: refuse a string that holds a NUL. -/
def CString.new (text : String) : Option CString :=
  if h : '\x00' ∈ text.toList then none else some ⟨text, h⟩

/-- One string of the block. -/
def envEntry (entry : String × String) : Except String CString :=
  if '=' ∈ entry.1.toList ∨ '\x00' ∈ entry.1.toList ∨ '\x00' ∈ entry.2.toList then
    .error "env entry contains NUL or '='"
  else
    match CString.new (entry.1 ++ "=" ++ entry.2) with
    | none => .error "env entry contains NUL"
    | some s => .ok s

/-- The block `execvpe` takes. -/
def buildEnv (env : Env) : Except String (List CString) := env.mapM envEntry

/-! ## Reading the block -/

/-- What a string of the block binds, and to what. -/
def CString.binding (s : CString) : Option (String × String) :=
  (Text.splitOnce ['='] s.text.toList).map fun parts =>
    (String.ofList parts.1, String.ofList parts.2)

/-- The bindings of a block, in order. -/
def bindings (block : List CString) : Env := block.filterMap CString.binding

theorem CString.text_of_new {text : String} {s : CString} (h : CString.new text = some s) :
    s.text = text := by
  unfold CString.new at h
  split at h
  · cases h
  · cases h
    rfl

theorem binding_envEntry {entry : String × String} {s : CString} (h : envEntry entry = .ok s) :
    s.binding = some entry := by
  unfold envEntry at h
  split at h
  · cases h
  rename_i hok
  have hname : '=' ∉ entry.1.toList := fun hmem => hok (.inl hmem)
  cases hnew : CString.new (entry.1 ++ "=" ++ entry.2) with
  | none =>
    rw [hnew] at h
    cases h
  | some =>
    rw [hnew] at h
    cases h
    have htext : s.text.toList = entry.1.toList ++ '=' :: entry.2.toList := by
      rw [CString.text_of_new hnew]
      simp
    rw [CString.binding, htext, Text.splitOnce_singleton hname]
    simp

theorem bindings_buildEnv {env : Env} {block : List CString} (h : buildEnv env = .ok block) :
    bindings block = env := by
  have hall := mapM_eq_ok.1 h
  clear h
  induction hall with
  | nil => rfl
  | cons hentry _ ih =>
    rw [bindings, filterMap_cons_some (binding_envEntry hentry)]
    exact congrArg _ ih

/-! ## All values of a name -/

/-- The values a name is bound to, in order. -/
def valuesOf (name : String) (env : Env) : List String :=
  (env.filter fun entry => entry.1 == name).map Prod.snd

@[simp] theorem mem_valuesOf {value : String} {env : Env} :
    value ∈ valuesOf name env ↔ (name, value) ∈ env := by
  simp [valuesOf]

theorem valuesOf_cons (name : String) (entry : String × String) (env : Env) :
    valuesOf name (entry :: env) =
      if entry.1 = name then entry.2 :: valuesOf name env else valuesOf name env := by
  by_cases h : entry.1 = name <;> simp [valuesOf, h]

theorem valuesOf_upsert (env : Env) (key val name : String) :
    valuesOf name (upsert env key val) =
      if name = key then val :: (valuesOf key env).tail else valuesOf name env := by
  induction env with
  | nil =>
    rw [upsert, valuesOf_cons]
    by_cases h : name = key
    · simp [valuesOf, h]
    · simp [valuesOf, h, Ne.symm h]
  | cons entry rest ih =>
    rw [upsert]
    by_cases hentry : entry.1 = key
    · rw [if_pos hentry, valuesOf_cons, valuesOf_cons key, valuesOf_cons name]
      by_cases h : name = key
      · simp [h, hentry]
      · have hne : ¬ entry.1 = name := fun heq => h (heq.symm.trans hentry)
        simp [h, hne]
    rw [if_neg hentry, valuesOf_cons, ih, valuesOf_cons key, if_neg hentry, valuesOf_cons]
    by_cases h : name = key
    · have hne : ¬ entry.1 = name := fun heq => hentry (heq.trans h)
      rw [if_neg hne, if_pos h, if_pos h]
    · rw [if_neg h, if_neg h]

theorem filter_upsert {p : String → Bool} {key : String} (hp : p key = false) (env : Env)
    (val : String) :
    (upsert env key val).filter (fun entry => p entry.1) = env.filter fun entry => p entry.1 := by
  induction env with
  | nil => simp [upsert, hp]
  | cons entry rest ih =>
    rw [upsert]
    by_cases hentry : entry.1 = key
    · simp [hentry, hp]
    · rw [if_neg hentry, filter_cons, filter_cons, ih]

theorem valuesOf_stripped (env : Env) (policy : DeterminismPolicy) (name : String) :
    valuesOf name (stripped env policy) = (if policy.drops name then [] else valuesOf name env) ++
        if policy.stripPath = true ∧ name = "PATH" then [defaultPath] else [] := by
  have hkept : valuesOf name (env.filter fun entry => !policy.drops entry.1) =
      if policy.drops name then [] else valuesOf name env := by
    induction env with
    | nil => simp [valuesOf]
    | cons entry rest ih =>
      rw [filter_cons, valuesOf_cons]
      by_cases hname : entry.1 = name
      · subst hname
        by_cases hdrop : policy.drops entry.1 = true
        · simpa [hdrop] using ih
        · simp [hdrop, valuesOf_cons, ih]
      · by_cases hdrop : policy.drops entry.1 = true
        · simpa [hdrop, hname] using ih
        · simpa [hdrop, hname, valuesOf_cons] using ih
  rw [stripped]
  by_cases hpath : policy.stripPath = true
  · have happ : valuesOf name ((env.filter fun entry => !policy.drops entry.1) ++
        [("PATH", defaultPath)]) = valuesOf name (env.filter fun entry => !policy.drops entry.1) ++
          if name = "PATH" then [defaultPath] else [] := by
      by_cases h : name = "PATH"
      · simp [valuesOf, h]
      · simp [valuesOf, h, Ne.symm h]
    simp only [hpath, if_true, true_and]
    rw [happ, hkept]
  · simp [hpath, hkept]

theorem filter_stripped {p : String → Bool} (hp : ∀ name, policy.drops name = true → p name = false)
    (env : Env) :
    (stripped env policy).filter (fun entry => p entry.1) = env.filter fun entry => p entry.1 := by
  have hkept : (env.filter fun entry => !policy.drops entry.1).filter (fun entry => p entry.1) =
      env.filter fun entry => p entry.1 := by
    rw [filter_filter]
    apply filter_congr
    intro entry _
    by_cases hdrop : policy.drops entry.1 = true
    · simp [hp _ hdrop]
    · simp [hdrop]
  rw [stripped]
  by_cases hpath : policy.stripPath = true
  · have hdrops : policy.drops "PATH" = true := by simp [DeterminismPolicy.drops, hpath]
    simp only [hpath, if_true]
    rw [filter_append, hkept]
    simp [hp _ hdrops]
  · simp only [hpath]
    exact hkept

theorem valuesOf_scrubEnv_of_ne (env : Env) (policy : DeterminismPolicy) (htz : name ≠ "TZ")
    (hepoch : name ≠ "SOURCE_DATE_EPOCH") :
    valuesOf name (scrubEnv env policy) = valuesOf name (stripped env policy) := by
  have htimezone : valuesOf name (if policy.timezoneUtc then
      upsert (stripped env policy) "TZ" "UTC0" else stripped env policy) =
        valuesOf name (stripped env policy) := by
    split
    · rw [valuesOf_upsert, if_neg htz]
    · rfl
  rw [scrubEnv]
  cases policy.sourceDateEpoch with
  | none => exact htimezone
  | some =>
    rw [valuesOf_upsert, if_neg hepoch]
    exact htimezone

theorem valuesOf_stripped_of_drops (hdrops : policy.drops name = false) (hpath : name ≠ "PATH")
    (env : Env) :
    valuesOf name (stripped env policy) = valuesOf name env := by
  rw [valuesOf_stripped, hdrops]
  simp [hpath]

theorem valuesOf_scrubEnv_timezone (env : Env) (h : policy.timezoneUtc = true) :
    valuesOf "TZ" (scrubEnv env policy) = "UTC0" :: (valuesOf "TZ" env).tail := by
  have hdrops : policy.drops "TZ" = false := by simp [DeterminismPolicy.drops]
  have hset : valuesOf "TZ" (upsert (stripped env policy) "TZ" "UTC0") =
      "UTC0" :: (valuesOf "TZ" env).tail := by
    rw [valuesOf_upsert, if_pos rfl, valuesOf_stripped_of_drops hdrops (by decide)]
  simp only [scrubEnv, h, if_true]
  cases policy.sourceDateEpoch with
  | none => exact hset
  | some =>
    rw [valuesOf_upsert, if_neg (by decide)]
    exact hset

theorem valuesOf_scrubEnv_epoch (env : Env) {epoch : ℤ} (h : policy.sourceDateEpoch = some epoch) :
    valuesOf "SOURCE_DATE_EPOCH" (scrubEnv env policy) =
      toString epoch :: (valuesOf "SOURCE_DATE_EPOCH" env).tail := by
  have hdrops : policy.drops "SOURCE_DATE_EPOCH" = false := by simp [DeterminismPolicy.drops]
  have hstripped := valuesOf_stripped_of_drops hdrops (by decide) env
  simp only [scrubEnv, h]
  rw [valuesOf_upsert, if_pos rfl]
  split
  · rw [valuesOf_upsert, if_neg (by decide), hstripped]
  · rw [hstripped]

/-! ## What the policy asks for -/

/-- Does the policy say anything about a name? -/
def DeterminismPolicy.governs (policy : DeterminismPolicy) (name : String) : Bool :=
  policy.drops name || (policy.timezoneUtc && name == "TZ") ||
    (policy.sourceDateEpoch.isSome && name == "SOURCE_DATE_EPOCH")

/-- A name is bound, and to one value only. -/
def Forced (name value : String) (env : Env) : Prop :=
  (name, value) ∈ env ∧ ∀ v, (name, v) ∈ env → v = value

/-- An environment made from a list as the policy asks. -/
structure Deterministic (policy : DeterminismPolicy) (env out : Env) : Prop where
  noPreload : policy.stripLdPreload = true →
    ∀ v, ("LD_PRELOAD", v) ∉ out ∧ ("LD_LIBRARY_PATH", v) ∉ out
  path : policy.stripPath = true → Forced "PATH" defaultPath out
  timezone : policy.timezoneUtc = true → Forced "TZ" "UTC0" out
  epoch : ∀ epoch, policy.sourceDateEpoch = some epoch →
    Forced "SOURCE_DATE_EPOCH" (toString epoch) out
  others : out.filter (fun entry => !policy.governs entry.1) =
    env.filter fun entry => !policy.governs entry.1

theorem forced_iff_of_valuesOf {value : String} {rest : List String} {env : Env}
    (h : valuesOf name env = value :: rest) : Forced name value env ↔ ∀ v ∈ rest, v = value := by
  simp only [Forced, ← mem_valuesOf, h, forall_mem_cons]
  exact ⟨fun hforced => hforced.2.2, fun hrest => ⟨mem_cons_self, trivial, hrest⟩⟩

theorem filter_scrubEnv (env : Env) (policy : DeterminismPolicy) :
    (scrubEnv env policy).filter (fun entry => !policy.governs entry.1) =
      env.filter fun entry => !policy.governs entry.1 := by
  have hdrops : ∀ name, policy.drops name = true → (!policy.governs name) = false := by
    intro name h
    simp [DeterminismPolicy.governs, h]
  have hstripped := filter_stripped hdrops env
  have htimezone : (if policy.timezoneUtc then upsert (stripped env policy) "TZ" "UTC0" else
      stripped env policy).filter (fun entry => !policy.governs entry.1) =
        env.filter fun entry => !policy.governs entry.1 := by
    split
    · rename_i h
      have hgoverned : (!policy.governs "TZ") = false := by simp [DeterminismPolicy.governs, h]
      rw [filter_upsert (p := fun name => !policy.governs name) hgoverned]
      exact hstripped
    · exact hstripped
  rw [scrubEnv]
  cases h : policy.sourceDateEpoch with
  | none => exact htimezone
  | some =>
    have hgoverned : (!policy.governs "SOURCE_DATE_EPOCH") = false := by
      simp [DeterminismPolicy.governs, h]
    rw [filter_upsert (p := fun name => !policy.governs name) hgoverned]
    exact htimezone

/-- **Deterministic environment.**  The block of an action binds the names of the policy
as the policy says and all others as the list did exactly when, where the policy sets `TZ`
or `SOURCE_DATE_EPOCH`, every binding of the name after its first one has the value that the
policy sets. -/
theorem deterministic_environment (env : Env) (policy : DeterminismPolicy)
    {block : List CString} (hblock : buildEnv (scrubEnv env policy) = .ok block) :
    Deterministic policy env (bindings block) ↔
      (policy.timezoneUtc = true → ∀ v ∈ (valuesOf "TZ" env).tail, v = "UTC0") ∧
      ∀ epoch, policy.sourceDateEpoch = some epoch →
        ∀ v ∈ (valuesOf "SOURCE_DATE_EPOCH" env).tail, v = toString epoch := by
  rw [bindings_buildEnv hblock]
  have htimezone : ∀ hutc : policy.timezoneUtc = true, Forced "TZ" "UTC0" (scrubEnv env policy) ↔
      ∀ v ∈ (valuesOf "TZ" env).tail, v = "UTC0" :=
    fun hutc => forced_iff_of_valuesOf (valuesOf_scrubEnv_timezone env hutc)
  have hepoch : ∀ epoch, policy.sourceDateEpoch = some epoch →
      (Forced "SOURCE_DATE_EPOCH" (toString epoch) (scrubEnv env policy) ↔
        ∀ v ∈ (valuesOf "SOURCE_DATE_EPOCH" env).tail, v = toString epoch) :=
    fun epoch hsome => forced_iff_of_valuesOf (valuesOf_scrubEnv_epoch env hsome)
  constructor
  · intro h
    exact ⟨fun hutc => (htimezone hutc).1 (h.timezone hutc),
      fun epoch hsome => (hepoch epoch hsome).1 (h.epoch epoch hsome)⟩
  rintro ⟨hutcs, hepochs⟩
  refine ⟨?_, ?_, fun hutc => (htimezone hutc).2 (hutcs hutc),
    fun epoch hsome => (hepoch epoch hsome).2 (hepochs epoch hsome), filter_scrubEnv env policy⟩
  · intro hstrip v
    have hnone : ∀ name, name = "LD_PRELOAD" ∨ name = "LD_LIBRARY_PATH" →
        (name, v) ∉ scrubEnv env policy := by
      intro name hname hmem
      have hdrops : policy.drops name = true := by
        rcases hname with rfl | rfl <;> simp [DeterminismPolicy.drops, hstrip]
      have hne : name ≠ "TZ" ∧ name ≠ "SOURCE_DATE_EPOCH" ∧ name ≠ "PATH" := by
        rcases hname with rfl | rfl <;> decide
      have hvalues := valuesOf_scrubEnv_of_ne env policy hne.1 hne.2.1
      rw [valuesOf_stripped, hdrops] at hvalues
      have hv := mem_valuesOf.2 hmem
      rw [hvalues] at hv
      simp [hne.2.2] at hv
    exact ⟨hnone _ (.inl rfl), hnone _ (.inr rfl)⟩
  · intro hstrip
    have hdrops : policy.drops "PATH" = true := by simp [DeterminismPolicy.drops, hstrip]
    refine (forced_iff_of_valuesOf ?_).2 (forall_mem_nil _)
    rw [valuesOf_scrubEnv_of_ne env policy (by decide) (by decide), valuesOf_stripped, hdrops]
    simp [hstrip]

namespace Sample

/-- All guards. -/
def guarded : DeterminismPolicy := ⟨true, some 7, true, true⟩

/-- A list that binds `TZ` again, to the forced value. -/
def env : Env :=
  [("LD_PRELOAD", "x.so"), ("A", "1=2"), ("PATH", "/x"), ("TZ", "CET"), ("A", "3"), ("PATH", "/y"),
    ("TZ", "UTC0")]

/-- The strings of a block. -/
def texts (block : Except String (List CString)) : List String :=
  (block.toOption.getD []).map CString.text

end Sample

open Sample

theorem deterministic_environment_sample :
    texts (buildEnv (scrubEnv env guarded)) =
        ["A=1=2", "TZ=UTC0", "A=3", "TZ=UTC0", "PATH=/usr/bin:/bin", "SOURCE_DATE_EPOCH=7"] ∧
      ∃ block, buildEnv (scrubEnv env guarded) = .ok block ∧
        Deterministic guarded env (bindings block) := by
  refine ⟨by decide +kernel, ?_⟩
  have hok : (buildEnv (scrubEnv env guarded)).isOk = true := by decide +kernel
  cases hblock : buildEnv (scrubEnv env guarded) with
  | error =>
    rw [hblock] at hok
    cases hok
  | ok block =>
    refine ⟨block, rfl, (deterministic_environment _ _ hblock).2 ⟨fun _ => by decide +kernel, ?_⟩⟩
    intro epoch _
    exact forall_mem_nil _

/-- A second binding of `TZ` reaches the action. -/
theorem second_timezone :
    ∃ block, buildEnv (scrubEnv [("TZ", "CET"), ("TZ", "EST")] { timezoneUtc := true }) =
        .ok block ∧
      bindings block = [("TZ", "UTC0"), ("TZ", "EST")] ∧
      ¬ Forced "TZ" "UTC0" (bindings block) := by
  have hok : (buildEnv (scrubEnv [("TZ", "CET"), ("TZ", "EST")]
      { timezoneUtc := true })).isOk = true := by decide +kernel
  cases hblock : buildEnv (scrubEnv [("TZ", "CET"), ("TZ", "EST")] { timezoneUtc := true }) with
  | error =>
    rw [hblock] at hok
    cases hok
  | ok block =>
    have hbindings : bindings block = [("TZ", "UTC0"), ("TZ", "EST")] := bindings_buildEnv hblock
    refine ⟨block, rfl, hbindings, ?_⟩
    rintro ⟨-, hforced⟩
    have heq := hforced "EST" (by rw [hbindings]; decide)
    exact absurd heq (by decide)

end Brokkr.Sandbox
