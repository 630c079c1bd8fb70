namespace TemporalCheck

def rotateLeft (x k : UInt32) : UInt32 := (x <<< k) ||| (x >>> (32 - k))

structure Lanes where
  a : UInt32
  b : UInt32
  c : UInt32
deriving DecidableEq

namespace Lanes

/-- One half turn of the mix: every lane is moved by the rotation of another one. -/
def turn (k₁ k₂ k₃ : UInt32) (s : Lanes) : Lanes :=
  let a := (s.a - s.c) ^^^ rotateLeft s.c k₁
  let c := s.c + s.b
  let b := (s.b - a) ^^^ rotateLeft a k₂
  let a := a + c
  let c := (c - b) ^^^ rotateLeft b k₃
  let b := b + a
  ⟨a, b, c⟩

def mix (s : Lanes) : Lanes := (s.turn 4 6 8).turn 16 19 4

def finish (s : Lanes) : Lanes :=
  let c := (s.c ^^^ s.b) - rotateLeft s.b 14
  let a := (s.a ^^^ c) - rotateLeft c 11
  let b := (s.b ^^^ a) - rotateLeft a 25
  let c := (c ^^^ b) - rotateLeft b 16
  let a := (a ^^^ c) - rotateLeft c 4
  let b := (b ^^^ a) - rotateLeft a 14
  let c := (c ^^^ b) - rotateLeft b 24
  ⟨a, b, c⟩

def word : List UInt8 → UInt32
  | [] => 0
  | x :: xs => x.toUInt32 ||| (word xs <<< 8)

def absorb (s : Lanes) (key : List UInt8) : Lanes :=
  ⟨s.a + word (key.take 4), s.b + word ((key.drop 4).take 4), s.c + word ((key.drop 8).take 4)⟩

def blocks : Nat → Lanes → List UInt8 → Lanes × List UInt8
  | 0, s, key => (s, key)
  | n + 1, s, key => blocks n (s.absorb key).mix (key.drop 12)

end Lanes

/-- Both hash words of a key, the primary one first. An empty key leaves the seeds unmixed. -/
def hashPair (key : List UInt8) (primary secondary : UInt32) : UInt32 × UInt32 :=
  let seed := 0xdeadbeef + key.length.toUInt32 + primary
  let start : Lanes := ⟨seed, seed, seed + secondary⟩
  if key.isEmpty then (start.c, start.b)
  else
    let (s, rest) := Lanes.blocks ((key.length - 1) / 12) start key
    let s := (s.absorb rest).finish
    (s.c, s.b)

/-- What a state is hashed by. It never decides identity. -/
structure Digest where
  seedB : UInt32 := 0
  seedC : UInt32 := 0
  key : List UInt8 := []
deriving DecidableEq

namespace Digest

def hashes (d : Digest) : UInt32 × UInt32 := hashPair d.key d.seedB d.seedC

def bucket (d : Digest) : UInt64 :=
  (d.hashes.1.toUInt64 <<< 32) ||| d.hashes.2.toUInt64

end Digest

class HasDigest (α : Type) where
  digest : α → Digest

def littleEndian (x : UInt32) : List UInt8 :=
  [x.toUInt8, (x >>> 8).toUInt8, (x >>> 16).toUInt8, (x >>> 24).toUInt8]

end TemporalCheck
