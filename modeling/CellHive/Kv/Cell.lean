import CellHive.Go.Bytes
import CellHive.Go.Strings
import CellHive.Sql.Table

/-!
# The key-value table of a cell

The `kv` table of a cell and the calls that read and write it (`cellstore.Cell`: `Get`,
`GetMany`, `List`, `ListMeta`, `PutTxIf`, `IncrTx`). Keys are `TEXT` under the binary
collation, so they are byte strings in lexicographic order. Every call takes the time its own
`time.Now()` returned. A write runs inside `Cell.Tx`: an error rolls the table back and leaves
the transaction number alone.
-/

namespace CellHive.Kv

open Go Sql

abbrev Key := Bytes

structure Row where
  key : Key
  value : Bytes
  metadata : Option Bytes
  updatedMs : Int
  expiresMs : Int
deriving DecidableEq, Repr

structure Cell where
  kv : Table Row.key
  txid : UInt64
deriving DecidableEq

/-- How `strconv.ParseInt` failed, and on which text. -/
inductive NumError
  | invalidSyntax (num : Bytes)
  | outOfRange (num : Bytes)
deriving DecidableEq, Repr

inductive Err
  | notFound
  | conditionFailed
  | notInteger (cause : NumError)
  | incrOverflow
  | notNull
deriving DecidableEq, Repr

/-! ## Numbers as text -/

/-- The white space of `unicode.IsSpace`, in UTF-8. -/
def spaceRunes : List Bytes :=
  [[0x09], [0x0a], [0x0b], [0x0c], [0x0d], [0x20], [0xc2, 0x85], [0xc2, 0xa0],
    [0xe1, 0x9a, 0x80], [0xe2, 0x80, 0xa8], [0xe2, 0x80, 0xa9], [0xe2, 0x80, 0xaf],
    [0xe2, 0x81, 0x9f], [0xe3, 0x80, 0x80]] ++
  (List.range 11).map fun i => [0xe2, 0x80, 0x80 + UInt8.ofNat i]

def trimStart (runes : List Bytes) : Nat → Bytes → Bytes
  | 0, s => s
  | n + 1, s =>
    match runes.find? (·.isPrefixOf s) with
    | some rune => trimStart runes n (s.drop rune.length)
    | none => s

def trimSpace (s : Bytes) : Bytes :=
  let left := trimStart spaceRunes s.length s
  (trimStart (spaceRunes.map List.reverse) left.length left.reverse).reverse

/-- The digit loop of `strconv.ParseUint(s, 10, 64)`, which stops at the first digit that does
not fit. -/
def parseUintLoop (num : Bytes) : Nat → Bytes → Except NumError Nat
  | n, [] => .ok n
  | n, c :: rest =>
    if c < 0x30 ∨ 0x39 < c then .error (.invalidSyntax num)
    else
      let next := n * 10 + (c - 0x30).toNat
      if 2 ^ 64 ≤ next then .error (.outOfRange num) else parseUintLoop num next rest

def parseInt (s : Bytes) : Except NumError Int := do
  let neg := s.head? = some 0x2d
  let digits := if s.head? = some 0x2b ∨ neg then s.tail else s
  if digits = [] then throw (.invalidSyntax s)
  let un ← parseUintLoop s 0 digits
  if (¬ neg ∧ 2 ^ 63 ≤ un) ∨ (neg ∧ 2 ^ 63 < un) then throw (.outOfRange s)
  return if neg then -(un : Int) else un

def formatInt (n : Int) : Bytes :=
  let digits := (formatUint n.natAbs).map fun c => UInt8.ofNat c.toNat
  if n < 0 then 0x2d :: digits else digits

/-! ## Reads -/

/-- `expires_ms=0 OR expires_ms>now`, the guard of every read. -/
def live (now : Int) (r : Row) : Bool := r.expiresMs = 0 ∨ now < r.expiresMs

/-- The row a guarded `SELECT .. WHERE key=?` finds. -/
def Cell.lookup (c : Cell) (now : Int) (key : Key) : Option Row := (c.kv.get key).filter (live now)

def Cell.get (c : Cell) (now : Int) (key : Key) : Except Err (Bytes × Option Bytes) :=
  match c.lookup now key with
  | some r => .ok (r.value, r.metadata)
  | none => .error .notFound

structure KVResult where
  value : Option Bytes := none
  metadata : Option Bytes := none
  found : Bool := false
deriving DecidableEq, Repr

def Cell.getMany (c : Cell) (now : Int) (keys : List Key) : List KVResult :=
  keys.map fun key =>
    match c.lookup now key with
    | some r => ⟨some r.value, r.metadata, true⟩
    | none => {}

/-- The least string above every string that starts with `pfx`; a string of `0xff` has none. -/
def prefixUpperBound (pfx : Key) : Option Key :=
  match pfx.reverse.dropWhile (· = 0xff) with
  | [] => none
  | b :: rest => some ((b + 1) :: rest).reverse

def clampLimit (limit : Int) : Nat := if limit ≤ 0 ∨ 1000 < limit then 100 else limit.toNat

/-- The `WHERE` clause of a listing. -/
def scanned (now : Int) (pfx after : Key) (r : Row) : Bool :=
  decide ((if after ≠ [] then after ++ [0] else pfx) ≤ r.key) && live now r &&
    (prefixUpperBound pfx).all fun hi => decide (r.key < hi)

def Cell.page (c : Cell) (now : Int) (pfx after : Key) (limit : Int) : List Row :=
  (c.kv.orderBy (scanned now pfx after)).take (clampLimit limit)

def Cell.list (c : Cell) (now : Int) (pfx after : Key) (limit : Int) : List Key :=
  (c.page now pfx after limit).map Row.key

structure KVEntry where
  key : Key
  metadata : Option Bytes
  expiresMs : Int
deriving DecidableEq, Repr

def Cell.listMeta (c : Cell) (now : Int) (pfx after : Key) (limit : Int) : List KVEntry :=
  (c.page now pfx after limit).map fun r => ⟨r.key, r.metadata, r.expiresMs⟩

/-! ## Writes -/

/-- `Cell.Tx`: the statements see the table, and the number moves with a commit. -/
def Cell.tx {α : Type} (c : Cell) (fn : Table Row.key → Except Err (α × Table Row.key)) :
    Except Err (α × UInt64) × Cell :=
  match fn c.kv with
  | .error e => (.error e, c)
  | .ok (a, kv) => (.ok (a, c.txid + 1), ⟨kv, c.txid + 1⟩)

def clampExpiry (now expiresMs : Int) : Int :=
  if 0 < expiresMs ∧ expiresMs ≤ now then now else expiresMs

/-- The prepared upsert; the value column is `NOT NULL`. -/
def kvUpsert (kv : Table Row.key) (key : Key) (value metadata : Option Bytes)
    (now expiresMs : Int) : Except Err (Table Row.key) :=
  match value with
  | none => .error .notNull
  | some v => .ok (kv.upsert ⟨key, v, metadata, now, expiresMs⟩)

inductive PutTxCondition
  | absent
  | present
deriving DecidableEq, Repr

def Cell.putTxIf (c : Cell) (now : Int) (key : Key) (value metadata : Option Bytes)
    (expiresMs : Int) (cond : PutTxCondition) : Except Err UInt64 × Cell :=
  let (result, c') := c.tx fun kv => do
    let found := ((kv.get key).filter (live now)).isSome
    if (cond = .absent ∧ found) ∨ (cond = .present ∧ ¬ found) then throw .conditionFailed
    let kv ← kvUpsert kv key value metadata now (clampExpiry now expiresMs)
    return ((), kv)
  (result.map (·.2), c')

def maxInt64 : Int := 2 ^ 63 - 1
def minInt64 : Int := -2 ^ 63

/-- The value an increment writes: a missing row counts as 0. -/
def nextValue (current : Option Row) (delta : Int) : Except Err Int :=
  match current with
  | none => .ok delta
  | some r =>
    match parseInt (trimSpace r.value) with
    | .error e => .error (.notInteger e)
    | .ok v =>
      if (0 < delta ∧ maxInt64 - delta < v) ∨ (delta < 0 ∧ v < minInt64 - delta) then
        .error .incrOverflow
      else .ok (v + delta)

/-- The metadata an increment writes: without metadata of its own it keeps what the row has.
This `SELECT` has no expiry guard. -/
def keptMetadata (kv : Table Row.key) (key : Key) (metadata : Option Bytes) : Option Bytes :=
  match metadata with
  | some m => some m
  | none => ((kv.get key).bind Row.metadata).filter (· ≠ [])

def incrTxIn (kv : Table Row.key) (now : Int) (key : Key) (delta expiresMs : Int)
    (metadata : Option Bytes) : Except Err (Int × Table Row.key) := do
  let next ← nextValue ((kv.get key).filter (live now)) delta
  let kv' ← kvUpsert kv key (some (formatInt next)) (keptMetadata kv key metadata) now expiresMs
  return (next, kv')

def Cell.incrTx (c : Cell) (now : Int) (key : Key) (delta expiresMs : Int)
    (metadata : Option Bytes) : Except Err (Int × UInt64) × Cell :=
  c.tx fun kv => incrTxIn kv now key delta (clampExpiry now expiresMs) metadata

end CellHive.Kv
