import Mathlib.Tactic.Common
import Mathlib.Tactic.IntervalCases
import TemporalCheck.Digest

/-!
The hash of a state table is `hashlittle2` of lookup3. The scheme is written down here as it was
published for machines that read a byte at a time: registers of 32 bits, a block of twelve bytes
after the other while more than twelve are left, and a switch that falls through the bytes of the
last block.
-/

namespace TemporalCheck

namespace Lookup3

structure Registers where
  a : BitVec 32
  b : BitVec 32
  c : BitVec 32
deriving DecidableEq

def mix (s : Registers) : Registers :=
  let ⟨a, b, c⟩ := s
  let a := a - c; let a := a ^^^ c.rotateLeft 4; let c := c + b
  let b := b - a; let b := b ^^^ a.rotateLeft 6; let a := a + c
  let c := c - b; let c := c ^^^ b.rotateLeft 8; let b := b + a
  let a := a - c; let a := a ^^^ c.rotateLeft 16; let c := c + b
  let b := b - a; let b := b ^^^ a.rotateLeft 19; let a := a + c
  let c := c - b; let c := c ^^^ b.rotateLeft 4; let b := b + a
  ⟨a, b, c⟩

def final (s : Registers) : Registers :=
  let ⟨a, b, c⟩ := s
  let c := c ^^^ b; let c := c - b.rotateLeft 14
  let a := a ^^^ c; let a := a - c.rotateLeft 11
  let b := b ^^^ a; let b := b - a.rotateLeft 25
  let c := c ^^^ b; let c := c - b.rotateLeft 16
  let a := a ^^^ c; let a := a - c.rotateLeft 4
  let b := b ^^^ a; let b := b - a.rotateLeft 14
  let c := c ^^^ b; let c := c - b.rotateLeft 24
  ⟨a, b, c⟩

def octet (key : List UInt8) (i : Nat) : BitVec 32 := (key.getD i 0).toBitVec.setWidth 32

def block (key : List UInt8) (s : Registers) : Registers :=
  { a := s.a + octet key 0 + octet key 1 <<< 8 + octet key 2 <<< 16 + octet key 3 <<< 24
    b := s.b + octet key 4 + octet key 5 <<< 8 + octet key 6 <<< 16 + octet key 7 <<< 24
    c := s.c + octet key 8 + octet key 9 <<< 8 + octet key 10 <<< 16 + octet key 11 <<< 24 }

/-- The switch on the number of bytes left. Every case adds the last of them and falls through to
the next case. -/
def fallThrough (key : List UInt8) : Nat → Registers → Registers
  | 12, s => fallThrough key 11 { s with c := s.c + octet key 11 <<< 24 }
  | 11, s => fallThrough key 10 { s with c := s.c + octet key 10 <<< 16 }
  | 10, s => fallThrough key 9 { s with c := s.c + octet key 9 <<< 8 }
  | 9, s => fallThrough key 8 { s with c := s.c + octet key 8 }
  | 8, s => fallThrough key 7 { s with b := s.b + octet key 7 <<< 24 }
  | 7, s => fallThrough key 6 { s with b := s.b + octet key 6 <<< 16 }
  | 6, s => fallThrough key 5 { s with b := s.b + octet key 5 <<< 8 }
  | 5, s => fallThrough key 4 { s with b := s.b + octet key 4 }
  | 4, s => fallThrough key 3 { s with a := s.a + octet key 3 <<< 24 }
  | 3, s => fallThrough key 2 { s with a := s.a + octet key 2 <<< 16 }
  | 2, s => fallThrough key 1 { s with a := s.a + octet key 1 <<< 8 }
  | 1, s => { s with a := s.a + octet key 0 }
  | _, s => s

def run (key : List UInt8) (s : Registers) : Registers :=
  if 12 < key.length then run (key.drop 12) (mix (block key s))
  else if key.length = 0 then s
  else final (fallThrough key key.length s)
termination_by key.length
decreasing_by simp only [List.length_drop]; omega

def hashlittle2 (key : List UInt8) (pc pb : BitVec 32) : BitVec 32 × BitVec 32 :=
  let start := 0xdeadbeef + BitVec.ofNat 32 key.length + pc
  let s := run key ⟨start, start, start + pb⟩
  (s.c, s.b)

theorem octet_of_le {key : List UInt8} {i : Nat} (h : key.length ≤ i) : octet key i = 0#32 := by
  simp [octet, h]

theorem octet_take_drop (key : List UInt8) (n : Nat) {i : Nat} (h : i < 4) :
    octet ((key.drop n).take 4) i = octet key (n + i) := by
  simp [octet, h]

/-- The switch does what a whole block does, bytes that are not there counting as zero. -/
theorem fallThrough_eq_block (key : List UInt8) (s : Registers) (h : key.length ≤ 12) :
    fallThrough key key.length s = block key s := by
  have hzero (i : Nat) : key.length ≤ i → octet key i = 0#32 := octet_of_le
  -- the switch adds from the last byte down, a block from the first one up
  have htwo (r w x : BitVec 32) : r + x + w = r + w + x := by ac_rfl
  have hthree (r w x y : BitVec 32) : r + y + x + w = r + w + x + y := by ac_rfl
  have hfour (r w x y z : BitVec 32) : r + z + y + x + w = r + w + x + y + z := by ac_rfl
  generalize key.length = n at h hzero
  interval_cases n <;>
    simp (disch := decide) only [fallThrough, block, hzero, BitVec.zero_shiftLeft, BitVec.add_zero]
  all_goals
    rw [Registers.mk.injEq]
    refine ⟨?_, ?_, ?_⟩ <;>
      with_reducible first | rfl | exact hfour .. | exact hthree .. | exact htwo ..

end Lookup3

namespace Lanes

open Lookup3

def registers (s : Lanes) : Registers := ⟨s.a.toBitVec, s.b.toBitVec, s.c.toBitVec⟩

theorem toBitVec_rotateLeft (x k : UInt32) (hpos : 0 < k.toNat) (hlt : k.toNat < 32) :
    (TemporalCheck.rotateLeft x k).toBitVec = x.toBitVec.rotateLeft k.toNat := by
  have hle : k ≤ 32 := by
    rw [UInt32.le_iff_toNat_le]
    exact Nat.le_of_lt hlt
  have hsub : (32 - k).toNat % 32 = 32 - k.toNat := by
    rw [UInt32.toNat_sub_of_le _ _ hle]
    exact Nat.mod_eq_of_lt (Nat.sub_lt (by decide) hpos)
  apply BitVec.eq_of_toNat_eq
  simp only [TemporalCheck.rotateLeft, BitVec.rotateLeft_def, Nat.mod_eq_of_lt hlt,
    UInt32.toBitVec_or, BitVec.toNat_or, UInt32.toNat_toBitVec, UInt32.toNat_shiftLeft,
    UInt32.toNat_shiftRight, hsub, BitVec.toNat_shiftLeft, BitVec.toNat_ushiftRight]

theorem registers_mix (s : Lanes) : s.mix.registers = Lookup3.mix s.registers := by
  simp (disch := decide) only [Lanes.mix, turn, registers, Lookup3.mix, UInt32.toBitVec_add,
    UInt32.toBitVec_sub, UInt32.toBitVec_xor, toBitVec_rotateLeft, UInt32.reduceToNat]

theorem registers_finish (s : Lanes) : s.finish.registers = final s.registers := by
  simp (disch := decide) only [Lanes.finish, registers, final, UInt32.toBitVec_sub,
    UInt32.toBitVec_xor, toBitVec_rotateLeft, UInt32.reduceToNat]

/-- A byte and a word moved out of its way do not overlap, so that they add up. -/
theorem toBitVec_word_cons (x : UInt8) (bytes : List UInt8) :
    (word (x :: bytes)).toBitVec = x.toBitVec.setWidth 32 + (word bytes).toBitVec <<< 8 := by
  have hdisjoint : x.toBitVec.setWidth 32 &&& (word bytes).toBitVec <<< 8 = 0#32 := by
    ext i hi
    by_cases h : i < 8
    · simp [h]
    · simp [BitVec.getLsbD_of_ge x.toBitVec i (by omega)]
  rw [BitVec.add_eq_or_of_and_eq_zero _ _ hdisjoint]
  simp [word]

theorem toBitVec_word (bytes : List UInt8) (h : bytes.length ≤ 4) : (word bytes).toBitVec =
    octet bytes 0 + octet bytes 1 <<< 8 + octet bytes 2 <<< 16 + octet bytes 3 <<< 24 := by
  have hnil : (word []).toBitVec = 0#32 := rfl
  match bytes with
  | [] | [_] | [_, _] | [_, _, _] | [_, _, _, _] =>
    simp [toBitVec_word_cons, octet, hnil, BitVec.shiftLeft_add_distrib, ← BitVec.shiftLeft_add,
      BitVec.add_assoc]

theorem registers_absorb (s : Lanes) (key : List UInt8) :
    (s.absorb key).registers = block key s.registers := by
  have hlane (n : Nat) : (word ((key.drop n).take 4)).toBitVec =
      octet key n + octet key (n + 1) <<< 8 + octet key (n + 2) <<< 16 +
      octet key (n + 3) <<< 24 := by
    rw [toBitVec_word _ (by simp)]
    simp [octet_take_drop]
  have hfirst := hlane 0
  rw [List.drop_zero] at hfirst
  simp only [absorb, registers, block, UInt32.toBitVec_add, hfirst, hlane, BitVec.add_assoc]

theorem run_blocks (n : Nat) (s : Lanes) (key : List UInt8) (h : 12 * n < key.length) :
    run key s.registers = run (blocks n s key).2 (blocks n s key).1.registers := by
  induction n generalizing s key with
  | zero => rfl
  | succ n ih =>
      rw [run, if_pos (by omega), ← registers_absorb, ← registers_mix, blocks]
      exact ih _ _ (by rw [List.length_drop]; omega)

theorem length_blocks (n : Nat) (s : Lanes) (key : List UInt8) :
    (blocks n s key).2.length = key.length - 12 * n := by
  induction n generalizing s key with
  | zero => rfl
  | succ n ih =>
      rw [blocks, ih, List.length_drop]
      omega

/-- All blocks but the last are as many as leave one to twelve bytes over. -/
theorem run_registers (s : Lanes) (key : List UInt8) (h : key ≠ []) :
    run key s.registers = (((blocks ((key.length - 1) / 12) s key).1.absorb
      (blocks ((key.length - 1) / 12) s key).2).finish).registers := by
  have hpos := List.length_pos_iff.2 h
  have hlength := length_blocks ((key.length - 1) / 12) s key
  rw [run_blocks ((key.length - 1) / 12) s key (by omega), run, if_neg (by omega),
    if_neg (by omega), fallThrough_eq_block _ _ (by omega), ← registers_absorb, ← registers_finish]

end Lanes

open Lookup3

/-- The hash of every key under every pair of seeds is the one of lookup3, primary word first. -/
theorem hashPair_eq_hashlittle2 (key : List UInt8) (pc pb : UInt32) :
    hashPair key pc pb = (.ofBitVec (hashlittle2 key pc.toBitVec pb.toBitVec).1,
      .ofBitVec (hashlittle2 key pc.toBitVec pb.toBitVec).2) := by
  let start : UInt32 := 0xdeadbeef + key.length.toUInt32 + pc
  let first : Lanes := ⟨start, start, start + pb⟩
  have hfirst : hashlittle2 key pc.toBitVec pb.toBitVec =
      ((run key first.registers).c, (run key first.registers).b) := rfl
  rw [hfirst]
  by_cases hempty : key = []
  · subst hempty
    rw [run]
    rfl
  · rw [Lanes.run_registers first key hempty, hashPair, if_neg (by simpa using hempty)]
    rfl

/-- Two blocks and six bytes. -/
example : hashPair ("Four score and seven years ago".toList.map fun x => x.toNat.toUInt8) 0 1 =
    (0xe3607cae, 0xbd371de4) := by
  decide +kernel

end TemporalCheck
