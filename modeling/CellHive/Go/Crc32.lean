import CellHive.Go.Bytes

/-!
# CRC-32

`hash/crc32.Checksum` with the reflected polynomials of the Go standard library,
computed bit by bit: each byte is added to the low end of the register, which is
then shifted right eight times, adding the polynomial whenever a one falls out.
-/

namespace CellHive.Go

/-- The reflected Castagnoli polynomial (`crc32.Castagnoli`). -/
def castagnoli : UInt32 := 0x82f63b78

/-- The reflected IEEE polynomial (`crc32.IEEE`). -/
def ieee : UInt32 := 0xedb88320

def crcShift (poly c : UInt32) : UInt32 :=
  if c &&& 1 = 1 then (c >>> 1) ^^^ poly else c >>> 1

def crcByte (poly c : UInt32) (b : UInt8) : UInt32 :=
  Nat.iterate (crcShift poly) 8 (c ^^^ b.toUInt32)

def crc32 (poly : UInt32) (b : Bytes) : UInt32 :=
  ~~~ (b.foldl (crcByte poly) (~~~ 0))

-- The check values of the two catalogued algorithms, on the bytes of "123456789".
example : crc32 castagnoli [49, 50, 51, 52, 53, 54, 55, 56, 57] = 0xe3069283 := by decide +kernel
example : crc32 ieee [49, 50, 51, 52, 53, 54, 55, 56, 57] = 0xcbf43926 := by decide +kernel

end CellHive.Go
