import Mathlib

/-!
# Byte strings

Go's `[]byte` as a list of bytes, with the fixed-width integers of
`encoding/binary` written and read on it. A value is written as its base-256
digits (`putBE`, most significant first) and read back by Horner's rule
(`getBE`); the two are inverse up to the width (`getBE_putBE`), and everything
about a fixed-width field follows from that.
-/

namespace CellHive.Go

abbrev Bytes := List UInt8

instance instLawfulBEqBytes : LawfulBEq Bytes := inferInstance

/-! ## Digits in base 256 -/

/-- The `w` low bytes of `n`, most significant first. -/
def putBE : Nat → Nat → Bytes
  | 0, _ => []
  | w + 1, n => UInt8.ofNat (n / 256 ^ w) :: putBE w n

/-- The number whose big-endian bytes are `b`. -/
def getBE (b : Bytes) : Nat :=
  b.foldl (fun acc x => acc * 256 + x.toNat) 0

/-- The number whose little-endian bytes are `b`. -/
def getLE (b : Bytes) : Nat :=
  b.foldr (fun x acc => x.toNat + 256 * acc) 0

@[simp] theorem length_putBE (w n : Nat) : (putBE w n).length = w := by
  induction w with
  | zero => rfl
  | succ w ih => simp [putBE, ih]

theorem foldl_putBE (w n acc : Nat) :
    (putBE w n).foldl (fun acc x => acc * 256 + x.toNat) acc = acc * 256 ^ w + n % 256 ^ w := by
  induction w generalizing acc with
  | zero => simp [putBE, Nat.mod_one]
  | succ w ih =>
    simp only [putBE, List.foldl_cons]
    rw [ih, UInt8.toNat_ofNat', pow_succ (256 : Nat) w, Nat.mod_mul]
    ring

theorem getBE_putBE (w n : Nat) : getBE (putBE w n) = n % 256 ^ w := by
  unfold getBE
  rw [foldl_putBE, Nat.zero_mul, Nat.zero_add]

/-! ## Fixed-width fields -/

def putUint16 (x : UInt16) : Bytes := putBE 2 x.toNat

def putUint32 (x : UInt32) : Bytes := putBE 4 x.toNat

def putUint64 (x : UInt64) : Bytes := putBE 8 x.toNat

def uint16 (b : Bytes) : UInt16 := UInt16.ofNat (getBE (b.take 2))

def uint32 (b : Bytes) : UInt32 := UInt32.ofNat (getBE (b.take 4))

def uint64 (b : Bytes) : UInt64 := UInt64.ofNat (getBE (b.take 8))

def uint32LE (b : Bytes) : UInt32 := UInt32.ofNat (getLE (b.take 4))

@[simp] theorem length_putUint16 (x : UInt16) : (putUint16 x).length = 2 := length_putBE 2 _

@[simp] theorem length_putUint32 (x : UInt32) : (putUint32 x).length = 4 := length_putBE 4 _

@[simp] theorem length_putUint64 (x : UInt64) : (putUint64 x).length = 8 := length_putBE 8 _

@[simp] theorem drop_putUint16 (x : UInt16) (b : Bytes) (n : Nat) :
    (putUint16 x ++ b).drop (n + 2) = b.drop n := rfl

@[simp] theorem drop_putUint32 (x : UInt32) (b : Bytes) (n : Nat) :
    (putUint32 x ++ b).drop (n + 4) = b.drop n := rfl

@[simp] theorem drop_putUint64 (x : UInt64) (b : Bytes) (n : Nat) :
    (putUint64 x ++ b).drop (n + 8) = b.drop n := rfl

@[simp] theorem uint16_putUint16 (x : UInt16) (rest : Bytes) :
    uint16 (putUint16 x ++ rest) = x := by
  unfold uint16
  have hlt : x.toNat < 256 ^ 2 := x.toNat_lt
  rw [List.take_left' (length_putUint16 x), putUint16, getBE_putBE, Nat.mod_eq_of_lt hlt,
    UInt16.ofNat_toNat]

@[simp] theorem uint32_putUint32 (x : UInt32) (rest : Bytes) :
    uint32 (putUint32 x ++ rest) = x := by
  unfold uint32
  have hlt : x.toNat < 256 ^ 4 := x.toNat_lt
  rw [List.take_left' (length_putUint32 x), putUint32, getBE_putBE, Nat.mod_eq_of_lt hlt,
    UInt32.ofNat_toNat]

@[simp] theorem uint64_putUint64 (x : UInt64) (rest : Bytes) :
    uint64 (putUint64 x ++ rest) = x := by
  unfold uint64
  have hlt : x.toNat < 256 ^ 8 := x.toNat_lt
  rw [List.take_left' (length_putUint64 x), putUint64, getBE_putBE, Nat.mod_eq_of_lt hlt,
    UInt64.ofNat_toNat]

/-! ## Slices -/

def slice (b : Bytes) (lo hi : Nat) : Bytes := (b.drop lo).take (hi - lo)

end CellHive.Go
