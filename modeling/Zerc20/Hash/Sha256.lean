import Zerc20.Hash.Poseidon

/-!
# SHA-256

SHA-256 on byte lists, the function behind Solidity's `sha256`, the `sha2` crate and the
arkworks `Sha256Gadget`. Words are natural numbers below `2 ^ 32`; the message schedule is a
sliding window of 16 words, so one round consumes the head of the window and appends the
word sixteen places later.
-/

namespace Zerc20.Sha256

open Radix

def wordModulus : ℕ := 2 ^ 32

def roundConstants : List ℕ :=
  [0x428a2f98, 0x71374491, 0xb5c0fbcf, 0xe9b5dba5, 0x3956c25b, 0x59f111f1,
   0x923f82a4, 0xab1c5ed5, 0xd807aa98, 0x12835b01, 0x243185be, 0x550c7dc3,
   0x72be5d74, 0x80deb1fe, 0x9bdc06a7, 0xc19bf174, 0xe49b69c1, 0xefbe4786,
   0x0fc19dc6, 0x240ca1cc, 0x2de92c6f, 0x4a7484aa, 0x5cb0a9dc, 0x76f988da,
   0x983e5152, 0xa831c66d, 0xb00327c8, 0xbf597fc7, 0xc6e00bf3, 0xd5a79147,
   0x06ca6351, 0x14292967, 0x27b70a85, 0x2e1b2138, 0x4d2c6dfc, 0x53380d13,
   0x650a7354, 0x766a0abb, 0x81c2c92e, 0x92722c85, 0xa2bfe8a1, 0xa81a664b,
   0xc24b8b70, 0xc76c51a3, 0xd192e819, 0xd6990624, 0xf40e3585, 0x106aa070,
   0x19a4c116, 0x1e376c08, 0x2748774c, 0x34b0bcb5, 0x391c0cb3, 0x4ed8aa4a,
   0x5b9cca4f, 0x682e6ff3, 0x748f82ee, 0x78a5636f, 0x84c87814, 0x8cc70208,
   0x90befffa, 0xa4506ceb, 0xbef9a3f7, 0xc67178f2]

def rotr (x n : ℕ) : ℕ := (x >>> n) ||| (x <<< (32 - n)) % wordModulus

def smallSigma0 (x : ℕ) : ℕ := rotr x 7 ^^^ rotr x 18 ^^^ (x >>> 3)

def smallSigma1 (x : ℕ) : ℕ := rotr x 17 ^^^ rotr x 19 ^^^ (x >>> 10)

def bigSigma0 (x : ℕ) : ℕ := rotr x 2 ^^^ rotr x 13 ^^^ rotr x 22

def bigSigma1 (x : ℕ) : ℕ := rotr x 6 ^^^ rotr x 11 ^^^ rotr x 25

def choose (x y z : ℕ) : ℕ := (x &&& y) ^^^ ((wordModulus - 1 - x) &&& z)

def majority (x y z : ℕ) : ℕ := (x &&& y) ^^^ (x &&& z) ^^^ (y &&& z)

structure Words where
  a : ℕ
  b : ℕ
  c : ℕ
  d : ℕ
  e : ℕ
  f : ℕ
  g : ℕ
  h : ℕ

def initial : Words :=
  ⟨0x6a09e667, 0xbb67ae85, 0x3c6ef372, 0xa54ff53a,
    0x510e527f, 0x9b05688c, 0x1f83d9ab, 0x5be0cd19⟩

/-- The window after its head is consumed. -/
def slide (window : List ℕ) : List ℕ :=
  window.tail ++ [(smallSigma1 (window.getD 14 0) + window.getD 9 0
    + smallSigma0 (window.getD 1 0) + window.getD 0 0) % wordModulus]

def round (s : Words × List ℕ) (k : ℕ) : Words × List ℕ :=
  let w := s.1
  let t1 := w.h + bigSigma1 w.e + choose w.e w.f w.g + k + s.2.getD 0 0
  let t2 := bigSigma0 w.a + majority w.a w.b w.c
  (⟨(t1 + t2) % wordModulus, w.a, w.b, w.c, (w.d + t1) % wordModulus, w.e, w.f, w.g⟩, slide s.2)

def compress (w : Words) (block : List ℕ) : Words :=
  let r := (roundConstants.foldl round (w, block)).1
  ⟨(w.a + r.a) % wordModulus, (w.b + r.b) % wordModulus, (w.c + r.c) % wordModulus,
    (w.d + r.d) % wordModulus, (w.e + r.e) % wordModulus, (w.f + r.f) % wordModulus,
    (w.g + r.g) % wordModulus, (w.h + r.h) % wordModulus⟩

/-- The message with its `0x80` marker, zero padding and 64-bit length. -/
def pad (m : List UInt8) : List UInt8 :=
  m ++ 0x80 :: (List.replicate ((119 - m.length % 64) % 64) 0 ++ bytesBE 8 (8 * m.length))

/-- The big-endian words of the first `n` blocks of 64 bytes. -/
def blocks : ℕ → List UInt8 → List (List ℕ)
  | 0, _ => []
  | n + 1, m => ((List.range 16).map fun i => ofBytesBE ((m.drop (4 * i)).take 4))
      :: blocks n (m.drop 64)

def Words.toBytes (w : Words) : List UInt8 :=
  bytesBE 4 w.a ++ bytesBE 4 w.b ++ bytesBE 4 w.c ++ bytesBE 4 w.d
    ++ bytesBE 4 w.e ++ bytesBE 4 w.f ++ bytesBE 4 w.g ++ bytesBE 4 w.h

def hash (m : List UInt8) : List UInt8 :=
  ((blocks ((pad m).length / 64) (pad m)).foldl compress initial).toBytes

theorem hash_length (m : List UInt8) : (hash m).length = 32 := by
  simp [hash, Words.toBytes]

-- the digest of `abc`, the first test vector of the standard
example : ofBytesBE (hash [0x61, 0x62, 0x63])
    = 0xba7816bf8f01cfea414140de5dae2223b00361a396177a9cb410ff61f20015ad := by
  decide +kernel

end Zerc20.Sha256

namespace Zerc20

/-- The hash functions of the deployed system. -/
def realHashes : Hashes where
  poseidon2 := PoseidonT3.poseidon2
  sha256 := Sha256.hash
  sha256_length := Sha256.hash_length

end Zerc20
