/-
Go's byte strings and fixed-size byte arrays, and `encoding/binary`'s
big-endian integers.
-/
import Mathlib.Data.List.Basic
import Mathlib.Data.Vector.Basic

/-- A Go `string` or `[]byte`: bytes, no more than an `int` counts. -/
structure GoString where
  bytes : List UInt8
  fits : bytes.length < 2 ^ 63
deriving DecidableEq

namespace GoString

def empty : GoString := ⟨[], by decide⟩

instance : Inhabited GoString := ⟨empty⟩

def length (s : GoString) : Nat := s.bytes.length

@[ext] theorem ext {s t : GoString} (h : s.bytes = t.bytes) : s = t := by
  cases s; cases t; simp only at h; subst h; rfl

/-- The first `n` bytes of `l`, a sub-slice of a Go slice. -/
def ofTake (n : UInt32) (l : List UInt8) : GoString :=
  ⟨l.take n.toNat, by
    have := n.toNat_lt
    rw [List.length_take]
    omega⟩

theorem ofTake_append {n : UInt32} {s : GoString} {r : List UInt8} (h : n.toNat = s.length) :
    ofTake n (s.bytes ++ r) = s := by
  ext1
  simp [ofTake, h, length]

end GoString

/-- A Go `[n]byte`. -/
abbrev ByteArr (n : Nat) := Vector UInt8 n

namespace ByteArr

variable {n : Nat}

def zero : ByteArr n := Vector.replicate n 0

/-- `copy(dst[:], b)` into a zeroed array. -/
def copyFrom (b : List UInt8) : ByteArr n :=
  ⟨(b.take n ++ List.replicate (n - b.length) 0).toArray, by
    rw [List.size_toArray, List.length_append, List.length_take, List.length_replicate]
    omega⟩

def toGoString (a : ByteArr n) (h : n < 2 ^ 63) : GoString := ⟨a.toList, by simpa using h⟩

theorem toList_copyFrom {b : List UInt8} (h : b.length = n) : (copyFrom b : ByteArr n).toList = b := by
  simp [copyFrom, Vector.toList, ← h]

theorem toList_inj {a b : ByteArr n} (h : a.toList = b.toList) : a = b :=
  Vector.toList_inj.mp h

theorem copyFrom_toList_append (a : ByteArr n) (r : List UInt8) : copyFrom (a.toList ++ r) = a := by
  have htake : (a.toList ++ r).take n = a.toList := List.take_left' (by simp)
  have hzero : n - (a.toList ++ r).length = 0 := by simp
  refine toList_inj ?_
  simp only [copyFrom, htake, hzero, List.replicate_zero, List.append_nil]
  rfl

@[simp] theorem copyFrom_toList (a : ByteArr n) : copyFrom a.toList = a := by
  simpa using copyFrom_toList_append a []

end ByteArr

/-- `binary.BigEndian.PutUint64`. -/
def putUint64 (v : UInt64) : List UInt8 :=
  [56, 48, 40, 32, 24, 16, 8, 0].map fun s => UInt8.ofNat (v.toNat / 2 ^ s)

/-- `binary.BigEndian.PutUint32`. -/
def putUint32 (v : UInt32) : List UInt8 :=
  [24, 16, 8, 0].map fun s => UInt8.ofNat (v.toNat / 2 ^ s)

/-- `binary.BigEndian.Uint64`, which panics on fewer than eight bytes. -/
def getUint64 : List UInt8 → Option UInt64
  | a :: b :: c :: d :: e :: f :: g :: h :: _ => some <| UInt64.ofNat <|
    a.toNat * 2 ^ 56 + b.toNat * 2 ^ 48 + c.toNat * 2 ^ 40 + d.toNat * 2 ^ 32 +
      e.toNat * 2 ^ 24 + f.toNat * 2 ^ 16 + g.toNat * 2 ^ 8 + h.toNat
  | _ => none

/-- `binary.BigEndian.Uint32`, which panics on fewer than four bytes. -/
def getUint32 : List UInt8 → Option UInt32
  | a :: b :: c :: d :: _ => some <| UInt32.ofNat <|
    a.toNat * 2 ^ 24 + b.toNat * 2 ^ 16 + c.toNat * 2 ^ 8 + d.toNat
  | _ => none

@[simp] theorem length_putUint64 (v : UInt64) : (putUint64 v).length = 8 := rfl
@[simp] theorem length_putUint32 (v : UInt32) : (putUint32 v).length = 4 := rfl

@[simp] theorem getUint64_put (v : UInt64) (r : List UInt8) : getUint64 (putUint64 v ++ r) = some v := by
  have hv := v.toNat_lt
  simp only [putUint64, List.map_cons, List.map_nil, List.cons_append, List.nil_append, getUint64,
    Option.some.injEq, UInt8.toNat_ofNat']
  apply UInt64.toNat_inj.mp
  rw [UInt64.toNat_ofNat']
  omega

@[simp] theorem getUint32_put (v : UInt32) (r : List UInt8) : getUint32 (putUint32 v ++ r) = some v := by
  have hv := v.toNat_lt
  simp only [putUint32, List.map_cons, List.map_nil, List.cons_append, List.nil_append, getUint32,
    Option.some.injEq, UInt8.toNat_ofNat']
  apply UInt32.toNat_inj.mp
  rw [UInt32.toNat_ofNat']
  omega

theorem putUint64_inj {v w : UInt64} (h : putUint64 v = putUint64 w) : v = w := by
  have := getUint64_put v []
  rw [h, getUint64_put] at this
  exact (Option.some.inj this).symm

theorem putUint32_inj {v w : UInt32} (h : putUint32 v = putUint32 w) : v = w := by
  have := getUint32_put v []
  rw [h, getUint32_put] at this
  exact (Option.some.inj this).symm

/-- `hex.EncodeToString`, and `fmt`'s `%x`. -/
def hexEncode (b : List UInt8) : String :=
  String.ofList <| b.flatMap fun x => [Nat.digitChar (x.toNat / 16), Nat.digitChar (x.toNat % 16)]
