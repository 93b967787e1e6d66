import CellHive.Go.Error

/-!
# The program's error sentinels

Every package-level error value that callers test with `errors.Is`, in one
enumeration, so that an error can be wrapped across packages.
-/

namespace CellHive

/-- The sentinel errors of the modelled packages. -/
inductive Sentinel where
  | ltxShort
  | ltxMagic
  | ltxChecksum
  | lz4Truncated
  | lz4BadOffset
  | lz4BadLength
  | lz4TooLarge
  | lz4ShortOutput
  | bucketNotFound
  | bucketPrecondition
  /-- `bucket.ErrAuthoritySegmentFull` -/
  | authoritySegmentFull
  /-- `cell.ErrResourceDeleted` -/
  | resourceDeleted
  /-- `replica.ErrEpochMarkerConflict` -/
  | epochMarkerConflict
  /-- `replica.ErrNoPageIndex` -/
  | noPageIndex
  | ownerUnowned
  | ownerLive
  | ownerEpochMismatch
  | ownerGenContention
  | ownerGenCorrupt
  /-- `wal.ErrNoWAL` -/
  | noWAL
  | walChecksum
  /-- `cellcapture.ErrNotOwner` -/
  | notOwner
  /-- `cellcapture.ErrLocalBehindDurable` -/
  | localBehindDurable
  deriving DecidableEq, Repr

abbrev Err := Go.GoError Sentinel

abbrev Res (α : Type) := Except Err α

end CellHive
