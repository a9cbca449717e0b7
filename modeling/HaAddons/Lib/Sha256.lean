import Mathlib.Algebra.Group.Nat.Defs
import Mathlib.Data.List.Basic

/-!
# SHA-256

The hash function as it is specified: a message is padded to blocks of sixteen words, and each
block is folded into the digest in 64 rounds. All words have 32 bits. The digest of a concrete
message can be evaluated.
-/

namespace HaAddons

abbrev Word := BitVec 32

namespace Sha256

def ch (x y z : Word) : Word := (x &&& y) ^^^ (~~~x &&& z)

def maj (x y z : Word) : Word := (x &&& y) ^^^ (x &&& z) ^^^ (y &&& z)

def bigSigma0 (x : Word) : Word := x.rotateRight 2 ^^^ x.rotateRight 13 ^^^ x.rotateRight 22

def bigSigma1 (x : Word) : Word := x.rotateRight 6 ^^^ x.rotateRight 11 ^^^ x.rotateRight 25

def sigma0 (x : Word) : Word := x.rotateRight 7 ^^^ x.rotateRight 18 ^^^ x >>> 3

def sigma1 (x : Word) : Word := x.rotateRight 17 ^^^ x.rotateRight 19 ^^^ x >>> 10

def roundConstants : List Word :=
  [0x428a2f98, 0x71374491, 0xb5c0fbcf, 0xe9b5dba5, 0x3956c25b, 0x59f111f1, 0x923f82a4, 0xab1c5ed5,
   0xd807aa98, 0x12835b01, 0x243185be, 0x550c7dc3, 0x72be5d74, 0x80deb1fe, 0x9bdc06a7, 0xc19bf174,
   0xe49b69c1, 0xefbe4786, 0x0fc19dc6, 0x240ca1cc, 0x2de92c6f, 0x4a7484aa, 0x5cb0a9dc, 0x76f988da,
   0x983e5152, 0xa831c66d, 0xb00327c8, 0xbf597fc7, 0xc6e00bf3, 0xd5a79147, 0x06ca6351, 0x14292967,
   0x27b70a85, 0x2e1b2138, 0x4d2c6dfc, 0x53380d13, 0x650a7354, 0x766a0abb, 0x81c2c92e, 0x92722c85,
   0xa2bfe8a1, 0xa81a664b, 0xc24b8b70, 0xc76c51a3, 0xd192e819, 0xd6990624, 0xf40e3585, 0x106aa070,
   0x19a4c116, 0x1e376c08, 0x2748774c, 0x34b0bcb5, 0x391c0cb3, 0x4ed8aa4a, 0x5b9cca4f, 0x682e6ff3,
   0x748f82ee, 0x78a5636f, 0x84c87814, 0x8cc70208, 0x90befffa, 0xa4506ceb, 0xbef9a3f7, 0xc67178f2]

structure Digest where
  (a b c d e f g h : Word)

def Digest.initial : Digest :=
  ⟨0x6a09e667, 0xbb67ae85, 0x3c6ef372, 0xa54ff53a, 0x510e527f, 0x9b05688c, 0x1f83d9ab, 0x5be0cd19⟩

def Digest.add (s t : Digest) : Digest :=
  ⟨s.a + t.a, s.b + t.b, s.c + t.c, s.d + t.d, s.e + t.e, s.f + t.f, s.g + t.g, s.h + t.h⟩

/-- One round, with its constant and its word of the message schedule. -/
def Digest.round (s : Digest) (kw : Word × Word) : Digest :=
  let t1 := s.h + bigSigma1 s.e + ch s.e s.f s.g + kw.1 + kw.2
  let t2 := bigSigma0 s.a + maj s.a s.b s.c
  ⟨t1 + t2, s.a, s.b, s.c, s.d + t1, s.e, s.f, s.g⟩

/-- The message schedule: `n` more words after those of `w`. -/
def schedule : ℕ → List Word → List Word
  | 0, w => w
  | n + 1, w =>
    schedule n (w ++ [sigma1 (w.getD (w.length - 2) 0) + w.getD (w.length - 7) 0 +
      sigma0 (w.getD (w.length - 15) 0) + w.getD (w.length - 16) 0])

def Digest.compress (s : Digest) (block : List Word) : Digest :=
  s.add ((roundConstants.zip (schedule 48 block)).foldl round s)

/-- The bytes of a word, the highest first. -/
def bytesOf (w : Word) : List UInt8 :=
  [⟨w.extractLsb' 24 8⟩, ⟨w.extractLsb' 16 8⟩, ⟨w.extractLsb' 8 8⟩, ⟨w.extractLsb' 0 8⟩]

def wordsOf : List UInt8 → List Word
  | a :: b :: c :: d :: rest =>
    (a.toBitVec ++ b.toBitVec ++ c.toBitVec ++ d.toBitVec) :: wordsOf rest
  | _ => []

/-- A one bit, zeros up to the last eight bytes of a block, and there the length in bits. -/
def pad (m : List UInt8) : List UInt8 :=
  m ++ 0x80 :: List.replicate ((119 - m.length % 64) % 64) 0 ++
    bytesOf (.ofNat 32 (8 * m.length / 2 ^ 32)) ++ bytesOf (.ofNat 32 (8 * m.length))

def Digest.blocks : ℕ → List Word → Digest → Digest
  | 0, _, s => s
  | n + 1, w, s => blocks n (w.drop 16) (s.compress (w.take 16))

def Digest.bytes (s : Digest) : List UInt8 :=
  [s.a, s.b, s.c, s.d, s.e, s.f, s.g, s.h].flatMap bytesOf

end Sha256

open Sha256 in
/-- The hash of a message. -/
@[irreducible] def sha256 (m : List UInt8) : List UInt8 :=
  (Digest.initial.blocks ((wordsOf (pad m)).length / 16) (wordsOf (pad m))).bytes

@[simp] theorem length_sha256 (m : List UInt8) : (sha256 m).length = 32 := by
  unfold sha256
  rfl

example : (sha256 "abc".toUTF8.data.toList).take 4 = [0xba, 0x78, 0x16, 0xbf] := by
  decide +kernel

end HaAddons
