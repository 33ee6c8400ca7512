import Mathlib.Data.List.Basic
import Mathlib.Data.Option.Basic

/-!
# Base64

The standard alphabet with padding. Three bytes are one number of 24 bits, written in four digits of
six bits; a last group of one or two bytes is filled up with zero bits and padded. A reader accepts
no other text: the padding has to be there and the bits that fill the last digit have to be zero.
-/

namespace Base64

def alphabet : List Char := "ABCDEFGHIJKLMNOPQRSTUVWXYZabcdefghijklmnopqrstuvwxyz0123456789+/".toList

def digit (n : ℕ) : Char := alphabet.getD (n % 64) 'A'

def value (c : Char) : Option ℕ := if c ∈ alphabet then some (alphabet.idxOf c) else none

def encode : List UInt8 → List Char
  | [] => []
  | [a] =>
    let n := a.toNat * 16
    [digit (n / 64), digit n, '=', '=']
  | [a, b] =>
    let n := (a.toNat * 256 + b.toNat) * 4
    [digit (n / 4096), digit (n / 64), digit n, '=']
  | a :: b :: c :: rest =>
    let n := (a.toNat * 256 + b.toNat) * 256 + c.toNat
    digit (n / 262144) :: digit (n / 4096) :: digit (n / 64) :: digit n :: encode rest

/-- The last group of a text. -/
def decodePadded (c₁ c₂ c₃ : Char) : Option (List UInt8) := do
  let x ← value c₁
  let y ← value c₂
  if c₃ = '=' then
    let n := x * 64 + y
    if n % 16 = 0 then some [UInt8.ofNat (n / 16)] else none
  else
    let z ← value c₃
    let n := (x * 64 + y) * 64 + z
    if n % 4 = 0 then some [UInt8.ofNat (n / 4 / 256), UInt8.ofNat (n / 4)] else none

def decode : List Char → Option (List UInt8)
  | [] => some []
  | c₁ :: c₂ :: c₃ :: c₄ :: rest =>
    if c₄ = '=' then
      if rest = [] then decodePadded c₁ c₂ c₃ else none
    else do
      let x ← value c₁
      let y ← value c₂
      let z ← value c₃
      let w ← value c₄
      let n := ((x * 64 + y) * 64 + z) * 64 + w
      let bytes ← decode rest
      some (UInt8.ofNat (n / 65536) :: UInt8.ofNat (n / 256) :: UInt8.ofNat n :: bytes)
  | _ => none

theorem digit_mod (n : ℕ) : digit (n % 64) = digit n := by rw [digit, digit, Nat.mod_mod]

theorem digit_mem (n : ℕ) : digit n ∈ alphabet := by
  have hdigit : ∀ m < 64, digit m ∈ alphabet := by decide +kernel
  rw [← digit_mod]
  exact hdigit _ (Nat.mod_lt _ (by decide))

/-- A digit reads back as the six bits it was written for. -/
theorem value_digit (n : ℕ) : value (digit n) = some (n % 64) := by
  have hvalue : ∀ m < 64, value (digit m) = some m := by decide +kernel
  rw [← digit_mod]
  exact hvalue _ (Nat.mod_lt _ (by decide))

theorem digit_ne (n : ℕ) : digit n ≠ '=' := by
  intro heq
  have hmem := digit_mem n
  rw [heq] at hmem
  exact absurd hmem (by decide)

theorem ofNat_eq {n : ℕ} {a : UInt8} (h : n % 256 = a.toNat) : UInt8.ofNat n = a := by
  apply UInt8.toNat_inj.mp
  rw [UInt8.toNat_ofNat']
  exact h

/-- What is written reads back. The groups are those of the writer. -/
theorem decode_encode (bytes : List UInt8) : decode (encode bytes) = some bytes := by
  induction bytes using encode.induct with
  | case1 => rfl
  | case2 a =>
    have ha := a.toNat_lt
    simp only [encode, decode, decodePadded, value_digit, if_true, Option.bind_eq_bind,
      Option.bind_some]
    rw [if_pos (by omega), ofNat_eq (a := a) (by omega)]
  | case3 a b =>
    have ha := a.toNat_lt
    have hb := b.toNat_lt
    simp only [encode, decode, decodePadded, value_digit, digit_ne, if_true, if_false,
      Option.bind_eq_bind, Option.bind_some]
    rw [if_pos (by omega), ofNat_eq (a := a) (by omega), ofNat_eq (a := b) (by omega)]
  | case4 a b c rest ih =>
    have ha := a.toNat_lt
    have hb := b.toNat_lt
    have hc := c.toNat_lt
    simp only [encode, decode, value_digit, digit_ne, if_false, Option.bind_eq_bind,
      Option.bind_some, ih]
    rw [ofNat_eq (a := a) (by omega), ofNat_eq (a := b) (by omega), ofNat_eq (a := c) (by omega)]

end Base64
