import Brokkr.Lib.OrdMap
import Brokkr.Lib.Sha256

/-!
# Identifiers and digests

The newtypes of `brokkr-common` (`ids.rs`, `digest.rs`).

* `Ident` — a validated identifier: not empty, at most `idMaxLen` bytes.
  `WorkerId`, `JobId` and `TenantId` are the three kinds.
* `Digest` — a lowercase sha256 hex string and a size; `Digest.new` validates the
  shape, not the content; `Digest.of` computes the digest of some bytes, and
  `Digest.verify` checks them against one.
* `U64.saturatingAdd` — addition on `u64` counters, kept as natural numbers.
* `Duration`, `Instant` — time, in nanoseconds.
-/

namespace Brokkr

/-- `u64::saturating_add`. -/
def U64.saturatingAdd (a b : ℕ) : ℕ := min (a + b) (2 ^ 64 - 1)

theorem U64.saturatingAdd_of_le {a b : ℕ} (h : a + b ≤ 2 ^ 64 - 1) :
    U64.saturatingAdd a b = a + b := min_eq_left h

/-- A length of time, in nanoseconds. -/
abbrev Duration := ℕ

/-- A moment of the monotonic clock, in nanoseconds. -/
abbrev Instant := ℕ

/-- `Duration::from_secs`. -/
def Duration.fromSecs (secs : ℕ) : Duration := secs * 1000000000

/-! ## Identifiers -/

/-- Maximum byte length of an identifier. -/
def idMaxLen : ℕ := 128

/-- Errors that can occur when constructing an identifier. -/
inductive IdError where
  | empty
  | tooLong (max len : ℕ)
  deriving DecidableEq, Repr

/-- What an identifier names. -/
inductive IdKind where
  | worker
  | job
  | tenant

/-- An identifier: not empty and at most `idMaxLen` bytes. -/
structure Ident (kind : IdKind) where
  asStr : String
  nonempty : asStr ≠ ""
  short : asStr.utf8ByteSize ≤ idMaxLen
  deriving Repr

/-- A worker node identifier. -/
abbrev WorkerId := Ident .worker

/-- A job identifier. -/
abbrev JobId := Ident .job

/-- A tenant identifier. -/
abbrev TenantId := Ident .tenant

namespace Ident

variable {kind : IdKind}

theorem asStr_injective : Function.Injective (@asStr kind) := by
  rintro ⟨a, _, _⟩ ⟨b, _, _⟩ h
  cases h
  rfl

instance : LinearOrder (Ident kind) := LinearOrder.lift' asStr asStr_injective

/-- Validate an identifier. -/
def new (inner : String) : Except IdError (Ident kind) :=
  if h : inner = "" then .error .empty
  else if h' : inner.utf8ByteSize ≤ idMaxLen then .ok ⟨inner, h, h'⟩
  else .error (.tooLong idMaxLen inner.utf8ByteSize)

end Ident

/-- `WorkerId::new`. -/
def WorkerId.new (inner : String) : Except IdError WorkerId := Ident.new inner

/-- `JobId::new`. -/
def JobId.new (inner : String) : Except IdError JobId := Ident.new inner

/-- `TenantId::new`. -/
def TenantId.new (inner : String) : Except IdError TenantId := Ident.new inner

/-! ## Digests -/

/-- Length of a sha256 digest as a lowercase hex string. -/
def sha256HexLen : ℕ := 64

/-- A lowercase hex digit. -/
def isLowerHex (c : Char) : Bool := ('0' ≤ c && c ≤ '9') || ('a' ≤ c && c ≤ 'f')

/-- Why a digest was refused. -/
inductive DigestError where
  | invalidLength (len : ℕ)
  /-- The hex string contained non-hex or upper-case characters. -/
  | invalidHex (hash : String)
  | hashMismatch (declared actual : String)
  | sizeMismatch (declared actual : ℤ)
  | negativeSize (size : ℤ)
  deriving DecidableEq, Repr

/-- The text of a digest error. -/
def DigestError.toString : DigestError → String
  | .invalidLength len => s!"digest hash must be {sha256HexLen} hex chars, got {len}"
  | .invalidHex hash => s!"digest hash must be lowercase hex: {hash}"
  | .hashMismatch declared actual => s!"digest mismatch: declared {declared}, actual {actual}"
  | .sizeMismatch declared actual => s!"digest size mismatch: declared {declared}, actual {actual}"
  | .negativeSize size => s!"digest size must be non-negative, got {size}"

/-- The digest message of the wire: a hash and a size that nobody has checked. -/
structure RawDigest where
  hash : String
  sizeBytes : ℤ
  deriving DecidableEq, Repr

/-- A digest: a lowercase sha256 hex string and a size in bytes. -/
structure Digest where
  /-- Lowercase sha256 hex string. -/
  hash : String
  sizeBytes : ℤ
  length : hash.utf8ByteSize = sha256HexLen
  hex : hash.toList.all isLowerHex = true
  nonneg : 0 ≤ sizeBytes
  deriving Repr

namespace Digest

/-- `Digest::new`: validate the shape of a digest. -/
def new (hash : String) (sizeBytes : ℤ) : Except DigestError Digest :=
  if hl : hash.utf8ByteSize = sha256HexLen then
    if hh : hash.toList.all isLowerHex = true then
      if hs : 0 ≤ sizeBytes then .ok ⟨hash, sizeBytes, hl, hh, hs⟩
      else .error (.negativeSize sizeBytes)
    else .error (.invalidHex hash)
  else .error (.invalidLength hash.utf8ByteSize)

/-- A digest of the wire that passes validation. -/
def ofRaw (d : RawDigest) : Except DigestError Digest := new d.hash d.sizeBytes

theorem new_self (d : Digest) : new d.hash d.sizeBytes = .ok d := by
  rw [new, dif_pos d.length, dif_pos d.hex, dif_pos d.nonneg]

theorem of_new {hash : String} {sizeBytes : ℤ} {d : Digest} (h : new hash sizeBytes = .ok d) :
    d.hash = hash ∧ d.sizeBytes = sizeBytes := by
  rw [new] at h
  split at h
  · split at h
    · split at h
      · cases h
        exact ⟨rfl, rfl⟩
      · cases h
    · cases h
  · cases h

theorem key_injective : Function.Injective fun d : Digest => toLex (d.hash, d.sizeBytes) := by
  rintro ⟨h, s, _, _, _⟩ ⟨h', s', _, _, _⟩ heq
  have hpair : (h, s) = (h', s') := toLex_inj.1 heq
  cases hpair
  rfl

instance : LinearOrder Digest :=
  LinearOrder.lift' (fun d => toLex (d.hash, d.sizeBytes)) key_injective

/-- `Digest::of`: the digest of `bytes`. -/
def of (bytes : List UInt8) : Digest where
  hash := hexEncode (Sha256.digest bytes)
  sizeBytes := bytes.length
  length := by rw [utf8ByteSize_hexEncode, Sha256.length_digest]; rfl
  hex := by
    rw [List.all_eq_true]
    intro c hc
    rcases hexEncode_isHex hc with ⟨h1, h2⟩ | ⟨h1, h2⟩
    · simp [isLowerHex, h1, h2]
    · simp [isLowerHex, h1, h2]
  nonneg := Int.natCast_nonneg _

/-- `Digest::verify`: do `bytes` have the declared size and hash? The size is checked
first. -/
def verify (d : Digest) (bytes : List UInt8) : Except DigestError Unit :=
  let actualSize : ℤ := bytes.length
  if actualSize ≠ d.sizeBytes then .error (.sizeMismatch d.sizeBytes actualSize)
  else
    let actual := hexEncode (Sha256.digest bytes)
    if actual ≠ d.hash then .error (.hashMismatch d.hash actual) else .ok ()

theorem verify_eq_ok {d : Digest} {bytes : List UInt8} :
    d.verify bytes = .ok () ↔ d = of bytes := by
  constructor
  · intro h
    rw [verify] at h
    simp only at h
    split at h
    · cases h
    rename_i hsize
    split at h
    · cases h
    rename_i hhash
    refine key_injective (toLex_inj.2 (Prod.ext ?_ ?_))
    · exact (not_not.1 hhash).symm
    · exact (not_not.1 hsize).symm
  · rintro rfl
    simp [verify, of]

end Digest

end Brokkr
