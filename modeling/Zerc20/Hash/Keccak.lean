import Zerc20.Lib.Radix

/-!
# Keccak-256

Keccak-256 on byte lists, the function behind Solidity's `keccak256` and `alloy`'s. Lanes are
natural numbers below `2 ^ 64`, a state is the list of its 25 lanes, lane `(x, y)` at `x + 5 * y`.
-/

namespace Zerc20.Keccak

open Radix

def laneModulus : ℕ := 2 ^ 64

def roundConstants : List ℕ :=
  [0x0000000000000001, 0x0000000000008082, 0x800000000000808a, 0x8000000080008000,
   0x000000000000808b, 0x0000000080000001, 0x8000000080008081, 0x8000000000008009,
   0x000000000000008a, 0x0000000000000088, 0x0000000080008009, 0x000000008000000a,
   0x000000008000808b, 0x800000000000008b, 0x8000000000008089, 0x8000000000008003,
   0x8000000000008002, 0x8000000000000080, 0x000000000000800a, 0x800000008000000a,
   0x8000000080008081, 0x8000000000008080, 0x0000000080000001, 0x8000000080008008]

def rotations : List ℕ :=
  [0, 1, 62, 28, 27, 36, 44, 6, 55, 20, 3, 10, 43, 25, 39, 41, 45, 15, 21, 8, 18, 2, 61, 56, 14]

def rotl (x n : ℕ) : ℕ := (x <<< n) % laneModulus ||| (x >>> (64 - n))

def lane (s : List ℕ) (x y : ℕ) : ℕ := s.getD (x % 5 + 5 * (y % 5)) 0

/-- The lanes `f x y`. -/
def tabulate (f : ℕ → ℕ → ℕ) : List ℕ := (List.range 25).map fun i => f (i % 5) (i / 5)

def theta (s : List ℕ) : List ℕ :=
  let parity := (List.range 5).map fun x =>
    lane s x 0 ^^^ lane s x 1 ^^^ lane s x 2 ^^^ lane s x 3 ^^^ lane s x 4
  tabulate fun x y =>
    lane s x y ^^^ parity.getD ((x + 4) % 5) 0 ^^^ rotl (parity.getD ((x + 1) % 5) 0) 1

/-- `ρ` and `π`: the lane that comes to `(x, y)` stood at `(x + 3 * y, x)`. -/
def rhoPi (s : List ℕ) : List ℕ :=
  let rotated := List.zipWith rotl s rotations
  tabulate fun x y => lane rotated (x + 3 * y) x

def chi (s : List ℕ) : List ℕ :=
  tabulate fun x y => lane s x y ^^^ ((laneModulus - 1 - lane s (x + 1) y) &&& lane s (x + 2) y)

def round (s : List ℕ) (constant : ℕ) : List ℕ :=
  let s := chi (rhoPi (theta s))
  s.set 0 (lane s 0 0 ^^^ constant)

def permutation (s : List ℕ) : List ℕ := roundConstants.foldl round s

/-- A block of 136 bytes is absorbed into the first 17 lanes. -/
def absorb (s : List ℕ) (block : List UInt8) : List ℕ :=
  permutation (tabulate fun x y =>
    lane s x y ^^^ ofBytesBE ((block.drop (8 * (x + 5 * y))).take 8).reverse)

/-- The message with its `0x01` marker, zero padding and final `0x80`. -/
def pad (m : List UInt8) : List UInt8 :=
  let zeros := (135 - m.length % 136)
  if zeros = 0 then m ++ [0x81] else m ++ 0x01 :: (List.replicate (zeros - 1) 0 ++ [0x80])

/-- The first `n` blocks of 136 bytes. -/
def blocks : ℕ → List UInt8 → List (List UInt8)
  | 0, _ => []
  | n + 1, m => m.take 136 :: blocks n (m.drop 136)

/-- The word that the digest is. -/
def hash (m : List UInt8) : Fin (2 ^ 256) :=
  let s := (blocks ((pad m).length / 136) (pad m)).foldl absorb (List.replicate 25 0)
  Fin.ofNat _ (ofBytesBE ((s.take 4).flatMap fun x => (bytesBE 8 x).reverse))

-- the digest of the empty message
example : (hash []).val
    = 0xc5d2460186f7233c927e7db2dcc703c0e500b653ca82273b7bfad8045d85a470 := by
  decide +kernel

end Zerc20.Keccak
