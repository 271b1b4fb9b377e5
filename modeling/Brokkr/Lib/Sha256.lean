import Mathlib

/-!
# SHA-256

The hash function of FIPS 180-4, on lists of bytes, and lowercase hex strings.

* `Sha256.digest` — the 32 bytes of the hash (`Sha256.length_digest`).
* `hexEncode` — two hex digits for each byte, as a string of ASCII characters
  (`hexEncode_isHex`, `utf8ByteSize_hexEncode`).
-/

namespace Brokkr

/-- The `w` low bytes of a number, the highest first. -/
def beBytes : ℕ → ℕ → List UInt8
  | 0, _ => []
  | w + 1, n => beBytes w (n / 256) ++ [UInt8.ofNat n]

@[simp] theorem length_beBytes (w n : ℕ) : (beBytes w n).length = w := by
  induction w generalizing n with
  | zero => rfl
  | succ w ih => rw [beBytes, List.length_append, ih, List.length_singleton]

namespace Sha256

/-- The first 32 bits of the fractional parts of the cube roots of the first 64
primes. -/
def roundConstants : List UInt32 :=
  [0x428a2f98, 0x71374491, 0xb5c0fbcf, 0xe9b5dba5, 0x3956c25b, 0x59f111f1, 0x923f82a4, 0xab1c5ed5,
   0xd807aa98, 0x12835b01, 0x243185be, 0x550c7dc3, 0x72be5d74, 0x80deb1fe, 0x9bdc06a7, 0xc19bf174,
   0xe49b69c1, 0xefbe4786, 0x0fc19dc6, 0x240ca1cc, 0x2de92c6f, 0x4a7484aa, 0x5cb0a9dc, 0x76f988da,
   0x983e5152, 0xa831c66d, 0xb00327c8, 0xbf597fc7, 0xc6e00bf3, 0xd5a79147, 0x06ca6351, 0x14292967,
   0x27b70a85, 0x2e1b2138, 0x4d2c6dfc, 0x53380d13, 0x650a7354, 0x766a0abb, 0x81c2c92e, 0x92722c85,
   0xa2bfe8a1, 0xa81a664b, 0xc24b8b70, 0xc76c51a3, 0xd192e819, 0xd6990624, 0xf40e3585, 0x106aa070,
   0x19a4c116, 0x1e376c08, 0x2748774c, 0x34b0bcb5, 0x391c0cb3, 0x4ed8aa4a, 0x5b9cca4f, 0x682e6ff3,
   0x748f82ee, 0x78a5636f, 0x84c87814, 0x8cc70208, 0x90befffa, 0xa4506ceb, 0xbef9a3f7, 0xc67178f2]

/-- The eight working variables. -/
structure Vars where
  a : UInt32
  b : UInt32
  c : UInt32
  d : UInt32
  e : UInt32
  f : UInt32
  g : UInt32
  h : UInt32

/-- The initial hash value. -/
def initial : Vars :=
  { a := 0x6a09e667, b := 0xbb67ae85, c := 0x3c6ef372, d := 0xa54ff53a,
    e := 0x510e527f, f := 0x9b05688c, g := 0x1f83d9ab, h := 0x5be0cd19 }

/-- Rotate right. -/
def rotr (x n : UInt32) : UInt32 := (x >>> n) ||| (x <<< (32 - n))

/-- One round, with its constant `k` and its word `w` of the schedule. -/
def round (v : Vars) (k w : UInt32) : Vars :=
  let sum1 := rotr v.e 6 ^^^ rotr v.e 11 ^^^ rotr v.e 25
  let choice := (v.e &&& v.f) ^^^ (~~~v.e &&& v.g)
  let t1 := v.h + sum1 + choice + k + w
  let sum0 := rotr v.a 2 ^^^ rotr v.a 13 ^^^ rotr v.a 22
  let majority := (v.a &&& v.b) ^^^ (v.a &&& v.c) ^^^ (v.b &&& v.c)
  { a := t1 + (sum0 + majority), b := v.a, c := v.b, d := v.c,
    e := v.d + t1, f := v.e, g := v.f, h := v.g }

/-- The next `n` words of the schedule, from the 16 words before their successors. -/
def schedule : ℕ → List UInt32 → List UInt32
  | 0, _ => []
  | n + 1, window =>
    let w := fun i => window.getD i 0
    let s0 := rotr (w 1) 7 ^^^ rotr (w 1) 18 ^^^ (w 1 >>> 3)
    let s1 := rotr (w 14) 17 ^^^ rotr (w 14) 19 ^^^ (w 14 >>> 10)
    w 0 :: schedule n (window.tail ++ [s1 + w 9 + s0 + w 0])

/-- Take one block of 16 words into the hash value. -/
def compress (v : Vars) (block : List UInt32) : Vars :=
  let r := (roundConstants.zip (schedule 64 block)).foldl (fun v kw => round v kw.1 kw.2) v
  { a := v.a + r.a, b := v.b + r.b, c := v.c + r.c, d := v.d + r.d,
    e := v.e + r.e, f := v.f + r.f, g := v.g + r.g, h := v.h + r.h }

/-- Take `n` blocks into the hash value. -/
def compressBlocks : ℕ → Vars → List UInt32 → Vars
  | 0, v, _ => v
  | n + 1, v, words => compressBlocks n (compress v (words.take 16)) (words.drop 16)

variable (message : List UInt8)

/-- The message, a one bit, zeros, and the length in bits: a whole number of blocks. -/
def pad : List UInt8 :=
  message ++ 0x80 ::
    (List.replicate ((119 - message.length % 64) % 64) 0 ++ beBytes 8 (8 * message.length))

/-- Bytes as big-endian words. -/
def words : List UInt8 → List UInt32
  | a :: b :: c :: d :: l =>
    UInt32.ofNat (a.toNat * 2 ^ 24 + b.toNat * 2 ^ 16 + c.toNat * 2 ^ 8 + d.toNat) :: words l
  | _ => []

/-- The hash of a message. -/
def digest : List UInt8 :=
  let padded := pad message
  let v := compressBlocks (padded.length / 64) initial (words padded)
  [v.a, v.b, v.c, v.d, v.e, v.f, v.g, v.h].flatMap fun w => beBytes 4 w.toNat

@[simp] theorem length_digest : (digest message).length = 32 := by
  simp [digest]

end Sha256

/-! ## Hex strings -/

/-- A hex digit, in lower case. -/
def hexDigit (n : ℕ) : Char := if n < 10 then Char.ofNat (48 + n) else Char.ofNat (87 + n)

theorem hexDigit_isHex {n : ℕ} (h : n < 16) :
    ('0' ≤ hexDigit n ∧ hexDigit n ≤ '9') ∨ ('a' ≤ hexDigit n ∧ hexDigit n ≤ 'f') := by
  interval_cases n <;> decide

theorem utf8Size_hexDigit {n : ℕ} (h : n < 16) : (hexDigit n).utf8Size = 1 := by
  interval_cases n <;> decide

/-- Bytes as a string of hex digits. -/
def hexEncode (bytes : List UInt8) : String :=
  String.ofList (bytes.flatMap fun b => [hexDigit (b.toNat / 16), hexDigit (b.toNat % 16)])

theorem exists_of_mem_hexEncode {bytes : List UInt8} {c : Char}
    (h : c ∈ (hexEncode bytes).toList) : ∃ n < 16, c = hexDigit n := by
  rw [hexEncode, String.toList_ofList] at h
  obtain ⟨b, -, hc⟩ := List.mem_flatMap.1 h
  have hb : b.toNat < 256 := b.toNat_lt
  rcases List.mem_cons.1 hc with rfl | hc
  · exact ⟨b.toNat / 16, by omega, rfl⟩
  · exact ⟨b.toNat % 16, by omega, List.mem_singleton.1 hc⟩

theorem hexEncode_isHex {bytes : List UInt8} {c : Char} (h : c ∈ (hexEncode bytes).toList) :
    ('0' ≤ c ∧ c ≤ '9') ∨ ('a' ≤ c ∧ c ≤ 'f') := by
  obtain ⟨n, hn, rfl⟩ := exists_of_mem_hexEncode h
  exact hexDigit_isHex hn

theorem utf8ByteSize_ofList_of_ascii {l : List Char} (h : ∀ c ∈ l, c.utf8Size = 1) :
    (String.ofList l).utf8ByteSize = l.length := by
  rw [String.utf8ByteSize_ofList]
  induction l with
  | nil => rfl
  | cons c l ih =>
    rw [String.utf8Len_cons, ih fun c' hc' => h c' (List.mem_cons_of_mem _ hc'),
      h c List.mem_cons_self, List.length_cons]

theorem utf8ByteSize_hexEncode (bytes : List UInt8) :
    (hexEncode bytes).utf8ByteSize = 2 * bytes.length := by
  have hsize : ∀ c ∈ (hexEncode bytes).toList, c.utf8Size = 1 := by
    intro c hc
    obtain ⟨n, hn, rfl⟩ := exists_of_mem_hexEncode hc
    exact utf8Size_hexDigit hn
  rw [hexEncode, String.toList_ofList] at hsize
  rw [hexEncode, utf8ByteSize_ofList_of_ascii hsize]
  simp [List.length_flatMap, mul_comm]

example : hexEncode (Sha256.digest []) =
    "e3b0c44298fc1c149afbf4c8996fb92427ae41e4649b934ca495991b7852b855" := by decide +kernel

end Brokkr
