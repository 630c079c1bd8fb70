import TemporalCheck.Formula.Basic

namespace TemporalCheck

def mixHash (h item : UInt64) : UInt64 :=
  (((h <<< 5) ||| (h >>> 59)) ^^^ item) * 0x517cc1b727220a95

def littleEndianValue : List UInt8 → UInt64
  | [] => 0
  | x :: xs => x.toUInt64 ||| (littleEndianValue xs <<< 8)

def mixTail (h : UInt64) (bytes : List UInt8) : UInt64 :=
  let (h, bytes) :=
    if 4 ≤ bytes.length then (mixHash h (littleEndianValue (bytes.take 4)), bytes.drop 4)
    else (h, bytes)
  let (h, bytes) :=
    if 2 ≤ bytes.length then (mixHash h (littleEndianValue (bytes.take 2)), bytes.drop 2)
    else (h, bytes)
  match bytes with
  | [] => h
  | x :: _ => mixHash h x.toUInt64

def mixBytes : Nat → UInt64 → List UInt8 → UInt64
  | 0, h, bytes => mixTail h bytes
  | n + 1, h, bytes => mixBytes n (mixHash h (littleEndianValue (bytes.take 8))) (bytes.drop 8)

def mixText (h : UInt64) (s : String) : UInt64 :=
  let bytes := s.toUTF8.data.toList
  mixHash (mixBytes (bytes.length / 8) h bytes) 0xff

namespace Formula

mutual

def mixInto (h : UInt64) : Formula → UInt64
  | prop p => mixText (mixHash h 0) p
  | neg f => mixInto (mixHash h 1) f
  | next f => mixInto (mixHash h 2) f
  | conj fs => mixAll (mixHash (mixHash h 3) fs.length.toUInt64) fs
  | disj fs => mixAll (mixHash (mixHash h 4) fs.length.toUInt64) fs
  | .until l r => mixInto (mixInto (mixHash h 5) l) r
  | release l r => mixInto (mixInto (mixHash h 6) l) r
  | top => mixHash h 7
  | bot => mixHash h 8

def mixAll (h : UInt64) : List Formula → UInt64
  | [] => h
  | f :: fs => mixAll (mixInto h f) fs

end

def hash32 (f : Formula) : UInt32 :=
  let h := mixInto 0 f
  (h ^^^ (h >>> 32)).toUInt32

end Formula

end TemporalCheck
