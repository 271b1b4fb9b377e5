import Brokkr.Lib.Text
import Mathlib.Data.Nat.Digits.Defs

/-!
# Following the leader

Only the leader answers for the action cache; another node refuses and names the leader
in the metadata of its answer.  The client of `brokkr-sdk` (`redirect.rs`, `client.rs`)
dials the named address and tries again, a bounded number of times, and keeps the new
connection for the next operation.

* `classify`, `hintToUrl` — is an answer a redirect, and where does it lead.
* `Client.redirecting` — the loop of an operation; `Client.run` — operations one after
  the other, with all that was sent and dialed.
* `Secure` — the client is connected with `https`; `secure_redirecting` — it stays so if
  no hint that was followed names another scheme.
* `downgraded` — a hint with a scheme of its own is dialed as it is.
-/

namespace Brokkr.Sdk

open List

/-! ## Answers -/

/-- Status codes. -/
inductive Code where
  | ok | cancelled | unknown | invalidArgument | deadlineExceeded | notFound | alreadyExists
  | permissionDenied | resourceExhausted | failedPrecondition | aborted | outOfRange
  | unimplemented | internal | unavailable | dataLoss | unauthenticated
  deriving DecidableEq

/-- A refusal: code, message and metadata, whose values are bytes. -/
structure Status where
  code : Code
  message : String
  metadata : List (String × List UInt8)
  deriving DecidableEq

/-- A status without metadata. -/
def Status.new (code : Code) (message : String) : Status := ⟨code, message, []⟩

/-- The metadata key of the leader's id. -/
def leaderHintMetadataKey : String := "x-brokkr-leader"

/-- The metadata key of the leader's address. -/
def leaderAddrMetadataKey : String := "x-brokkr-leader-addr"

/-- Redirects that are followed before giving up. -/
def maxLeaderHops : ℕ := 3

/-- Bytes that may stand in a value that is read as text. -/
def isVisibleAscii (b : UInt8) : Bool := (32 ≤ b && b < 127) || b == 9

/-- A value as text. -/
def toStr (value : List UInt8) : Option String :=
  if value.all isVisibleAscii then some (String.ofList (value.map fun b => Char.ofNat b.toNat))
  else none

/-- The text under a key, unless it is empty or not text. -/
def metadataStr (status : Status) (key : String) : Option String :=
  ((status.metadata.lookup key).bind toStr).filter fun s => s ≠ ""

/-- `{:?}` of a value. -/
def debugValue (value : List UInt8) : String :=
  "\"" ++ String.join (value.map fun b =>
    if b = 34 then "\\\""
    else if isVisibleAscii b then String.ofList [Char.ofNat b.toNat]
    else "\\x" ++ String.ofList (Nat.toDigits 16 b.toNat)) ++ "\""

/-- `{:?}` of an optional value. -/
def debugHint : Option (List UInt8) → String
  | none => "None"
  | some value => "Some(" ++ debugValue value ++ ")"

/-! ## Redirects -/

/-- What to do about a refusal. -/
inductive Redirect where
  | none
  | follow (addr : String) (leader : Option String)
  | unroutable (leader : Option String)
  | exhausted
  deriving DecidableEq

/-- Is a refusal a redirect, after so many of them? -/
def classify (status : Status) (hops : ℕ) : Redirect :=
  if status.code ≠ .failedPrecondition then .none
  else
    let leader := metadataStr status leaderHintMetadataKey
    let addr := metadataStr status leaderAddrMetadataKey
    if leader.isNone && addr.isNone then .none
    else if maxLeaderHops ≤ hops then .exhausted
    else
      match addr with
      | some addr => .follow addr leader
      | Option.none => .unroutable leader

/-- What separates the scheme from the rest of a URL. -/
def schemeSep : List Char := [':', '/', '/']

/-- The text before the first separator. -/
def scheme (url : String) : Option (List Char) := (Text.splitOnce schemeSep url.toList).map Prod.fst

/-- Does a text bring a scheme of its own? -/
def hasScheme (addr : String) : Bool := Text.hasPart schemeSep addr.toList

/-- The URL to dial for a hint. -/
def hintToUrl (addr currentEndpoint : String) : String :=
  if hasScheme addr then addr
  else
    match scheme currentEndpoint with
    | some s => String.ofList s ++ "://" ++ addr
    | none => "http://" ++ addr

/-- Is it an `https` URL?  Schemes are compared without regard to case. -/
def isHttps (url : String) : Bool :=
  match scheme url with
  | some s => s.map Char.toLower == "https".toList
  | none => false

/-! ## The client -/

/-- Files for a secure connection. -/
structure TlsConfig where
  caCert : String
  clientCert : Option String
  clientKey : Option String
  deriving DecidableEq

/-- Why a connection could not be made. -/
inductive ClientError where
  | invalidEndpoint (text : String)
  | certificateRead (text : String)
  | tlsConfig (text : String)
  | transport (text : String)

/-- The message of an error. -/
def ClientError.toString : ClientError → String
  | .invalidEndpoint text => "invalid endpoint: " ++ text
  | .certificateRead text => "reading TLS certificate: " ++ text
  | .tlsConfig text => "TLS configuration: " ++ text
  | .transport text => "transport error: " ++ text

/-- A client. -/
structure Client where
  bearer : Option String
  endpoint : String
  tls : Option TlsConfig
  deriving DecidableEq

/-- What comes of an attempt to connect. -/
structure DialRun where
  parse : Except String Unit
  readCerts : Except String Unit
  configure : Except String Unit
  connect : Except String Unit

/-- What a client does on the network. -/
inductive NetEvent where
  | rpc (endpoint : String)
  | dial (addr url : String)
  deriving DecidableEq

/-- Is it a request? -/
def NetEvent.isRpc : NetEvent → Bool
  | .rpc _ => true
  | .dial _ _ => false

/-- Does the configuration have a certificate without its key, or a key alone? -/
def TlsConfig.isPartial (tls : TlsConfig) : Bool := tls.clientCert.isSome != tls.clientKey.isSome

/-- What can fail before anything is dialed. -/
def prepare (url : String) (tls : Option TlsConfig) (run : DialRun) : Except ClientError Unit :=
  let parse := run.parse.mapError fun e =>
    .invalidEndpoint ("invalid endpoint " ++ url.quote ++ ": " ++ e)
  match tls with
  | none => parse
  | some tls =>
    if tls.isPartial then
      .error (.tlsConfig "both client_cert and client_key must be provided for client identity")
    else do
      parse
      run.readCerts.mapError .certificateRead
      run.configure.mapError .transport

namespace Client

/-- Dial a URL with the token and the configuration of the client. -/
def reconnectTo (c : Client) (addr url : String) (run : DialRun) :
    Except ClientError Client × List NetEvent :=
  match prepare url c.tls run with
  | .error e => (.error e, [])
  | .ok () =>
    (match run.connect with
      | .error e => .error (.transport e)
      | .ok () => .ok { c with endpoint := url }, [.dial addr url])

/-- Follow a redirect, if it is one. -/
def followRedirect (c : Client) (status : Status) (hops : ℕ) (run : DialRun) :
    Except Status Client × List NetEvent :=
  match classify status hops with
  | .follow addr _ =>
    let url := hintToUrl addr c.endpoint
    let r := c.reconnectTo addr url run
    (r.1.mapError fun e => .new .unavailable ("redirect to leader " ++ url ++ ": " ++ e.toString),
      r.2)
  | .exhausted =>
    (.error (.new .failedPrecondition ("leader redirect not resolved within " ++
      ToString.toString maxLeaderHops ++ " hops; the cluster's leadership may be unstable " ++
      "(last hint: " ++ debugHint (status.metadata.lookup leaderHintMetadataKey) ++ ")")), [])
  | .unroutable _ => (.error status, [])
  | .none => (.error status, [])

/-- What the servers and the network do during an operation, by the number of redirects. -/
structure Env (α : Type) where
  answer : ℕ → Except Status α
  dial : ℕ → DialRun

/-- What an operation returns, the client after it, and what it did on the network. -/
structure Outcome (β : Type) where
  result : Except Status β
  client : Client
  trace : List NetEvent

variable {α β : Type}

/-- The loop of an operation over the remaining numbers of redirects.  Some refusals are
results. -/
def redirecting (onOk : α → β) (onStatus : Status → Option β) (unresolved : String)
    (env : Env α) : List ℕ → Client → Outcome β
  | [], c => ⟨.error (.new .failedPrecondition unresolved), c, []⟩
  | hops :: rest, c =>
    match env.answer hops with
    | .ok a => ⟨.ok (onOk a), c, [.rpc c.endpoint]⟩
    | .error status =>
      match onStatus status with
      | some b => ⟨.ok b, c, [.rpc c.endpoint]⟩
      | none =>
        match c.followRedirect status hops (env.dial hops) with
        | (.error e, dialed) => ⟨.error e, c, .rpc c.endpoint :: dialed⟩
        | (.ok c', dialed) =>
          let r := redirecting onOk onStatus unresolved env rest c'
          { r with trace := .rpc c.endpoint :: (dialed ++ r.trace) }

/-- Look up a cached result; a miss is no failure. -/
def getActionResult (c : Client) (env : Env α) : Outcome (Option α) :=
  redirecting some (fun status => if status.code = .notFound then some none else none)
    "leader redirect not resolved for GetActionResult" env (List.range (maxLeaderHops + 1)) c

/-- Store a result. -/
def updateActionResult (c : Client) (env : Env α) : Outcome α :=
  redirecting id (fun _ => none) "leader redirect not resolved for UpdateActionResult" env
    (List.range (maxLeaderHops + 1)) c

/-- An operation and its environment. -/
inductive Op (α : Type) where
  | get (env : Env α)
  | update (env : Env α)

/-- The client after an operation, and what it did on the network. -/
def op (c : Client) : Op α → Client × List NetEvent
  | .get env => ((c.getActionResult env).client, (c.getActionResult env).trace)
  | .update env => ((c.updateActionResult env).client, (c.updateActionResult env).trace)

/-- Operations one after the other, with the trace of each. -/
def run (c : Client) : List (Op α) → List (List NetEvent)
  | [] => []
  | o :: ops => (c.op o).2 :: (c.op o).1.run ops

end Client

/-! ## Schemes -/

theorem scheme_ofList_append {url : String} {s : List Char} (h : scheme url = some s)
    (addr : String) : scheme (String.ofList s ++ "://" ++ addr) = some s := by
  obtain ⟨⟨before, after⟩, hsplit, rfl⟩ := Option.map_eq_some_iff.1 h
  have hparts : (String.ofList before ++ "://" ++ addr).toList =
      before ++ (schemeSep ++ addr.toList) := by
    rw [String.toList_append, String.toList_append, String.toList_ofList, append_assoc]
    rfl
  rw [scheme, hparts, (Text.splitOnce_append hsplit).2 addr.toList]
  rfl

theorem isHttps_hintToUrl {addr endpoint : String} (hendpoint : isHttps endpoint = true)
    (haddr : hasScheme addr = true → isHttps addr = true) :
    isHttps (hintToUrl addr endpoint) = true := by
  rw [hintToUrl]
  split
  · rename_i hscheme
    exact haddr hscheme
  rw [isHttps] at hendpoint
  split
  · rename_i s hs
    rw [hs] at hendpoint
    rw [isHttps, scheme_ofList_append hs]
    exact hendpoint
  · rename_i hs
    rw [hs] at hendpoint
    cases hendpoint

/-! ## One operation -/

/-- No hint that was followed names a scheme other than `https`. -/
def HintsSecure (trace : List NetEvent) : Prop :=
  ∀ addr url, NetEvent.dial addr url ∈ trace → hasScheme addr = true → isHttps addr = true

/-- Only `https` URLs were dialed. -/
def DialsSecure (trace : List NetEvent) : Prop :=
  ∀ addr url, NetEvent.dial addr url ∈ trace → isHttps url = true

section Traces

variable {e : NetEvent} {l l₁ l₂ : List NetEvent}

theorem HintsSecure.tail (h : HintsSecure (e :: l)) : HintsSecure l :=
  fun addr url hmem => h addr url (mem_cons_of_mem _ hmem)

theorem HintsSecure.left (h : HintsSecure (l₁ ++ l₂)) : HintsSecure l₁ :=
  fun addr url hmem => h addr url (mem_append_left _ hmem)

theorem HintsSecure.right (h : HintsSecure (l₁ ++ l₂)) : HintsSecure l₂ :=
  fun addr url hmem => h addr url (mem_append_right _ hmem)

theorem dialsSecure_nil : DialsSecure [] := nofun

theorem DialsSecure.append (h₁ : DialsSecure l₁) (h₂ : DialsSecure l₂) : DialsSecure (l₁ ++ l₂) :=
  fun addr url hmem => (mem_append.1 hmem).elim (h₁ addr url) (h₂ addr url)

theorem DialsSecure.rpc (h : DialsSecure l) (endpoint : String) :
    DialsSecure (.rpc endpoint :: l) := by
  intro addr url hmem
  rcases mem_cons.1 hmem with hrpc | hmem
  · cases hrpc
  · exact h addr url hmem

end Traces

namespace Client

variable {α β : Type}

theorem followRedirect_cases (c : Client) (status : Status) (hops : ℕ) (run : DialRun) :
    (∃ e, c.followRedirect status hops run = (.error e, [])) ∨
    ∃ addr r, c.followRedirect status hops run = (r, [.dial addr (hintToUrl addr c.endpoint)]) ∧
      ∀ c', r = .ok c' → c'.endpoint = hintToUrl addr c.endpoint := by
  rw [followRedirect]
  cases classify status hops with
  | follow addr =>
    simp only [reconnectTo]
    cases prepare (hintToUrl addr c.endpoint) c.tls run with
    | error => exact .inl ⟨_, rfl⟩
    | ok u =>
      refine .inr ⟨addr, _, rfl, fun c' hc' => ?_⟩
      cases hconnect : run.connect with
      | error =>
        rw [hconnect] at hc'
        cases hc'
      | ok =>
        rw [hconnect] at hc'
        cases hc'
        rfl
  | _ => exact .inl ⟨_, rfl⟩

theorem secure_followRedirect {c : Client} (hc : isHttps c.endpoint = true) {status : Status}
    {hops : ℕ} {run : DialRun} {r : Except Status Client} {dialed : List NetEvent}
    (h : c.followRedirect status hops run = (r, dialed)) (hhints : HintsSecure dialed) :
    DialsSecure dialed ∧ ∀ c', r = .ok c' → isHttps c'.endpoint = true := by
  rcases c.followRedirect_cases status hops run with ⟨e, he⟩ | ⟨addr, r', he, hr'⟩
  · cases he.symm.trans h
    exact ⟨dialsSecure_nil, nofun⟩
  cases he.symm.trans h
  have hurl : isHttps (hintToUrl addr c.endpoint) = true :=
    isHttps_hintToUrl hc (hhints addr _ mem_cons_self)
  refine ⟨fun addr' url hmem => ?_, fun c' hc' => ?_⟩
  · cases mem_singleton.1 hmem
    exact hurl
  · rw [hr' c' hc']
    exact hurl

theorem rpcs_followRedirect {c : Client} {status : Status} {hops : ℕ} {run : DialRun}
    {r : Except Status Client} {dialed : List NetEvent}
    (h : c.followRedirect status hops run = (r, dialed)) : dialed.countP NetEvent.isRpc = 0 := by
  rcases c.followRedirect_cases status hops run with ⟨e, he⟩ | ⟨addr, r', he, -⟩
  · cases he.symm.trans h
    rfl
  · cases he.symm.trans h
    rfl

section Loop

variable (onOk : α → β) (onStatus : Status → Option β) (unresolved : String) (env : Env α)

theorem redirecting_cases (c : Client) (hops : ℕ) (rest : List ℕ) :
    (∃ r, redirecting onOk onStatus unresolved env (hops :: rest) c = ⟨r, c, [.rpc c.endpoint]⟩) ∨
    ∃ status r dialed, c.followRedirect status hops (env.dial hops) = (r, dialed) ∧
      ((∃ e, redirecting onOk onStatus unresolved env (hops :: rest) c =
          ⟨.error e, c, .rpc c.endpoint :: dialed⟩) ∨
        ∃ c', r = .ok c' ∧ redirecting onOk onStatus unresolved env (hops :: rest) c =
          ⟨(redirecting onOk onStatus unresolved env rest c').result,
            (redirecting onOk onStatus unresolved env rest c').client,
            .rpc c.endpoint ::
              (dialed ++ (redirecting onOk onStatus unresolved env rest c').trace)⟩) := by
  rw [redirecting]
  split
  · exact .inl ⟨_, rfl⟩
  split
  · exact .inl ⟨_, rfl⟩
  split
  · rename_i e dialed h
    exact .inr ⟨_, _, _, h, .inl ⟨e, rfl⟩⟩
  · rename_i c' dialed h
    exact .inr ⟨_, _, _, h, .inr ⟨c', rfl, rfl⟩⟩

theorem rpcs_redirecting (c : Client) (rounds : List ℕ) :
    (redirecting onOk onStatus unresolved env rounds c).trace.countP NetEvent.isRpc ≤
      rounds.length := by
  induction rounds generalizing c with
  | nil => exact Nat.le_refl 0
  | cons hops rest ih =>
    rcases redirecting_cases onOk onStatus unresolved env c hops rest with
      ⟨r, h⟩ | ⟨status, r, dialed, hfollow, ⟨e, h⟩ | ⟨c', -, h⟩⟩
    · rw [h]
      simp [NetEvent.isRpc]
    · rw [h, countP_cons, rpcs_followRedirect hfollow, length_cons]
      simp [NetEvent.isRpc]
    rw [h]
    have := ih c'
    simp only [countP_cons, countP_append, rpcs_followRedirect hfollow,
      NetEvent.isRpc, length_cons, if_true]
    omega

theorem secure_redirecting {c : Client} (hc : isHttps c.endpoint = true) (rounds : List ℕ)
    (hhints : HintsSecure (redirecting onOk onStatus unresolved env rounds c).trace) :
    DialsSecure (redirecting onOk onStatus unresolved env rounds c).trace ∧
      isHttps (redirecting onOk onStatus unresolved env rounds c).client.endpoint = true := by
  induction rounds generalizing c with
  | nil => exact ⟨dialsSecure_nil, hc⟩
  | cons hops rest ih =>
    rcases redirecting_cases onOk onStatus unresolved env c hops rest with
      ⟨r, h⟩ | ⟨status, r, dialed, hfollow, ⟨e, h⟩ | ⟨c', hr, h⟩⟩
    · rw [h]
      exact ⟨dialsSecure_nil.rpc c.endpoint, hc⟩
    · rw [h] at hhints ⊢
      have hdialed := (secure_followRedirect hc hfollow hhints.tail).1
      exact ⟨hdialed.rpc c.endpoint, hc⟩
    · rw [h] at hhints ⊢
      obtain ⟨hdialed, hc'⟩ := secure_followRedirect hc hfollow hhints.tail.left
      obtain ⟨hrest, hend⟩ := ih (hc' c' hr) hhints.tail.right
      exact ⟨(hdialed.append hrest).rpc c.endpoint, hend⟩

end Loop

/-! ## Operations one after the other -/

theorem rpcs_op (c : Client) (o : Op α) : (c.op o).2.countP NetEvent.isRpc ≤ maxLeaderHops + 1 := by
  cases o with
  | get env => exact (rpcs_redirecting _ _ _ env c _).trans_eq length_range
  | update env => exact (rpcs_redirecting _ _ _ env c _).trans_eq length_range

theorem secure_op {c : Client} (hc : isHttps c.endpoint = true) {o : Op α}
    (hhints : HintsSecure (c.op o).2) :
    DialsSecure (c.op o).2 ∧ isHttps (c.op o).1.endpoint = true := by
  cases o with
  | get env => exact secure_redirecting _ _ _ env hc _ hhints
  | update env => exact secure_redirecting _ _ _ env hc _ hhints

theorem rpcs_run (c : Client) (ops : List (Op α)) :
    ∀ trace ∈ c.run ops, trace.countP NetEvent.isRpc ≤ maxLeaderHops + 1 := by
  induction ops generalizing c with
  | nil =>
    intro trace hmem
    cases hmem
  | cons o ops ih =>
    intro trace hmem
    rcases mem_cons.1 hmem with rfl | hmem
    · exact c.rpcs_op o
    · exact ih _ trace hmem

theorem secure_run {c : Client} (hc : isHttps c.endpoint = true) {ops : List (Op α)}
    (hhints : ∀ trace ∈ c.run ops, HintsSecure trace) :
    ∀ trace ∈ c.run ops, DialsSecure trace := by
  induction ops generalizing c with
  | nil =>
    intro trace hmem
    cases hmem
  | cons o ops ih =>
    obtain ⟨hdials, hnext⟩ := secure_op hc (hhints _ mem_cons_self)
    intro trace hmem
    rcases mem_cons.1 hmem with rfl | hmem
    · exact hdials
    · exact ih hnext (fun t ht => hhints t (mem_cons_of_mem _ ht)) trace hmem

end Client

/-- A client on `https` sends a bounded number of requests for each operation, and dials
only `https` URLs as long as no followed hint names another scheme. -/
theorem redirects_stay_secure {α : Type} (c : Client) (hc : isHttps c.endpoint = true)
    (ops : List (Client.Op α)) :
    (∀ trace ∈ c.run ops, trace.countP NetEvent.isRpc ≤ maxLeaderHops + 1) ∧
    ((∀ trace ∈ c.run ops, HintsSecure trace) → ∀ trace ∈ c.run ops, DialsSecure trace) :=
  ⟨c.rpcs_run ops, Client.secure_run hc⟩

/-! ## A hint with a scheme -/

namespace Sample

/-- Every attempt to connect succeeds. -/
def reachable : DialRun := ⟨.ok (), .ok (), .ok (), .ok ()⟩

/-- A client on `https` that trusts one authority and has a certificate. -/
def client : Client where
  bearer := some "token"
  endpoint := "https://control-0:7878"
  tls := some ⟨"ca.pem", some "client.pem", some "client.key"⟩

/-- The first node names a leader, the leader answers. -/
def redirectTo (addr : String) : Client.Env Unit where
  answer hops :=
    if hops = 0 then
      .error ⟨.failedPrecondition, "not the metadata leader",
        [(leaderAddrMetadataKey, addr.toList.map fun ch => UInt8.ofNat ch.toNat)]⟩
    else .ok ()
  dial _ := reachable

end Sample

open Sample

/-- A hint that is an address only. -/
theorem redirects_stay_secure_sample :
    client.run [Client.Op.get (redirectTo "10.0.0.1:7878")] =
      [[.rpc "https://control-0:7878", .dial "10.0.0.1:7878" "https://10.0.0.1:7878",
        .rpc "https://10.0.0.1:7878"]] ∧
    ∀ trace ∈ client.run [Client.Op.get (redirectTo "10.0.0.1:7878")], DialsSecure trace := by
  have hrun : client.run [Client.Op.get (redirectTo "10.0.0.1:7878")] =
      [[.rpc "https://control-0:7878", .dial "10.0.0.1:7878" "https://10.0.0.1:7878",
        .rpc "https://10.0.0.1:7878"]] := by decide +kernel
  refine ⟨hrun, (redirects_stay_secure client (by decide +kernel) _).2 ?_⟩
  rw [hrun]
  intro trace htrace addr url hmem hscheme
  cases mem_singleton.1 htrace
  obtain ⟨rfl, rfl⟩ : addr = "10.0.0.1:7878" ∧ url = "https://10.0.0.1:7878" := by
    simpa using hmem
  exact absurd hscheme (by decide +kernel)

/-- A hint with the scheme `http` takes a client on `https` to an `http` URL, over which it
sends its next request. -/
theorem downgraded :
    isHttps client.endpoint = true ∧
    client.run [Client.Op.get (redirectTo "http://10.0.0.1:7878")] =
      [[.rpc "https://control-0:7878", .dial "http://10.0.0.1:7878" "http://10.0.0.1:7878",
        .rpc "http://10.0.0.1:7878"]] ∧
    isHttps "http://10.0.0.1:7878" = false := by
  refine ⟨?_, ?_, ?_⟩ <;> decide +kernel

end Brokkr.Sdk
