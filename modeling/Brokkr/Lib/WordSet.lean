import Mathlib.Data.List.Basic
import Mathlib.Data.Nat.Notation

/-!
# Bits in words

A set of small numbers, kept as bits of a list of 64-bit words.

* `setBit`, `testBit` — set a bit, and is it set.
* `testBit_setBit_self`, `testBit_setBit` — a bit that was set is set, and stays set.
* `testBit_foldl_setBit` — after many bits have been set.
-/

namespace WordSet

/-- The word with one bit set. -/
def mask (bit : ℕ) : BitVec 64 := 1#64 <<< (bit % 64)

/-- Set a bit. -/
def setBit (words : List (BitVec 64)) (bit : ℕ) : List (BitVec 64) :=
  words.modify (bit / 64) fun w => w ||| mask bit

/-- Is a bit set?  There is none beyond the last word. -/
def testBit (words : List (BitVec 64)) (bit : ℕ) : Bool :=
  match words[bit / 64]? with
  | some w => w &&& mask bit != 0#64
  | none => false

variable {words : List (BitVec 64)} {bit bit' : ℕ}

@[simp] theorem length_setBit (words : List (BitVec 64)) (bit : ℕ) :
    (setBit words bit).length = words.length := by
  simp [setBit]

theorem and_mask_ne_zero (w : BitVec 64) (bit : ℕ) :
    (w &&& mask bit != 0#64) = w.getLsbD (bit % 64) := by
  have hlt : bit % 64 < 64 := Nat.mod_lt _ (by decide)
  rw [mask, ← BitVec.twoPow_eq, BitVec.and_twoPow]
  cases w.getLsbD (bit % 64) with
  | false => rfl
  | true =>
    have hne : BitVec.twoPow 64 (bit % 64) ≠ 0#64 := by
      intro h
      have hbit := congrArg (fun v => v.getLsbD (bit % 64)) h
      simp [hlt] at hbit
    simpa using hne

theorem testBit_eq (words : List (BitVec 64)) (bit : ℕ) :
    testBit words bit = (words[bit / 64]?.any fun w => w.getLsbD (bit % 64)) := by
  rw [testBit]
  cases words[bit / 64]? with
  | none => rfl
  | some w => exact and_mask_ne_zero w bit

theorem testBit_setBit_self (h : bit / 64 < words.length) :
    testBit (setBit words bit) bit = true := by
  have hlt : bit % 64 < 64 := Nat.mod_lt _ (by decide)
  rw [testBit_eq, setBit, List.getElem?_modify_eq, List.getElem?_eq_getElem h]
  simp [mask, ← BitVec.twoPow_eq, hlt]

theorem testBit_setBit (h : testBit words bit = true) : testBit (setBit words bit') bit = true := by
  rw [testBit_eq] at h ⊢
  rw [setBit, List.getElem?_modify]
  cases hw : words[bit / 64]? with
  | none =>
    rw [hw] at h
    cases h
  | some =>
    rw [hw] at h
    simp only [Option.any_some] at h
    split
    · simp [h]
    · simpa using h

theorem testBit_foldl_of_testBit (bits : List ℕ) (h : testBit words bit = true) :
    testBit (bits.foldl setBit words) bit = true := by
  induction bits generalizing words with
  | nil => exact h
  | cons b bits ih => exact ih (testBit_setBit h)

@[simp] theorem length_foldl_setBit (bits : List ℕ) (words : List (BitVec 64)) :
    (bits.foldl setBit words).length = words.length := by
  induction bits generalizing words with
  | nil => rfl
  | cons b bits ih => rw [List.foldl_cons, ih, length_setBit]

theorem testBit_foldl_setBit {bits : List ℕ} (hbit : bit ∈ bits)
    (h : bit / 64 < words.length) : testBit (bits.foldl setBit words) bit = true := by
  induction bits generalizing words with
  | nil => cases hbit
  | cons b bits ih =>
    rcases List.mem_cons.1 hbit with rfl | hmem
    · exact testBit_foldl_of_testBit bits (testBit_setBit_self h)
    · exact ih hmem (by rwa [length_setBit])

end WordSet
