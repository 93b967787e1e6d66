import CellHive.Kv.Listing

/-!
# Expired rows are no rows

A call on a cell compared with the same call on the cell without its expired rows. Every
statement but one has the expiry guard, so the two agree; the one without it is the `SELECT meta`
of an increment, which carries the metadata of an expired row into the row it writes.
-/

namespace CellHive.Kv

open Go Sql

def expired (now : Int) (r : Row) : Bool := 0 < r.expiresMs ∧ r.expiresMs ≤ now

structure Swept (now : Int) (c c' : Cell) : Prop where
  mem : ∀ r, r ∈ c'.kv.rows ↔ r ∈ c.kv.rows ∧ expired now r = false
  txid : c'.txid = c.txid

/-! ## The calls -/

inductive Call
  | get (key : Key)
  | getMany (keys : List Key)
  | list (pfx after : Key) (limit : Int)
  | listMeta (pfx after : Key) (limit : Int)
  | putTxIf (key : Key) (value metadata : Option Bytes) (expiresMs : Int) (cond : PutTxCondition)
  | incrTx (key : Key) (delta expiresMs : Int) (metadata : Option Bytes)
deriving DecidableEq, Repr

inductive Reply
  | value (r : Except Err (Bytes × Option Bytes))
  | results (r : List KVResult)
  | keys (r : List Key)
  | entries (r : List KVEntry)
  | txid (r : Except Err UInt64)
  | counter (r : Except Err (Int × UInt64))

def Cell.call (c : Cell) (now : Int) : Call → Reply × Cell
  | .get key => (.value (c.get now key), c)
  | .getMany keys => (.results (c.getMany now keys), c)
  | .list pfx after limit => (.keys (c.list now pfx after limit), c)
  | .listMeta pfx after limit => (.entries (c.listMeta now pfx after limit), c)
  | .putTxIf key value metadata expiresMs cond =>
    let (result, c') := c.putTxIf now key value metadata expiresMs cond
    (.txid result, c')
  | .incrTx key delta expiresMs metadata =>
    let (result, c') := c.incrTx now key delta expiresMs metadata
    (.counter result, c')

def SameUnexpired (now : Int) (c c' : Cell) : Prop :=
  ∀ r, expired now r = false → (r ∈ c.kv.rows ↔ r ∈ c'.kv.rows)

/-- The same reply, and the same unexpired rows afterwards. -/
def Agree (now : Int) (c c' : Cell) (call : Call) : Prop :=
  (c.call now call).1 = (c'.call now call).1 ∧
    SameUnexpired now (c.call now call).2 (c'.call now call).2

/-- An increment without metadata of its own, of a key whose row has expired and has metadata,
that writes a row which is not expired itself. -/
def Leaks (now : Int) (c : Cell) : Call → Prop
  | .incrTx key _ expiresMs none =>
    ¬ (0 < expiresMs ∧ expiresMs ≤ now) ∧
      ∃ r ∈ c.kv.rows, r.key = key ∧ expired now r = true ∧ ∃ m, r.metadata = some m ∧ m ≠ []
  | _ => False

/-! ## What the guard hides -/

theorem not_live_of_expired {now : Int} {r : Row} (h : expired now r = true) :
    live now r = false := by
  simp only [expired, decide_eq_true_eq] at h
  simp only [live, decide_eq_false_iff_not]
  omega

theorem not_expired_of_live {now : Int} {r : Row} (h : live now r = true) :
    expired now r = false := by
  cases he : expired now r with
  | false => rfl
  | true =>
    rw [not_live_of_expired he] at h
    cases h

section Swept

variable {now : Int} {c c' : Cell}

theorem Swept.sameUnexpired (h : Swept now c c') : SameUnexpired now c c' := by
  intro r hr
  rw [h.mem]
  exact ⟨fun hmem => ⟨hmem, hr⟩, And.left⟩

theorem Swept.lookup (h : Swept now c c') (key : Key) :
    (c.kv.get key).filter (live now) = (c'.kv.get key).filter (live now) := by
  apply Option.ext
  intro r
  rw [Option.filter_eq_some_iff, Option.filter_eq_some_iff, Table.get_eq_some, Table.get_eq_some,
    h.mem]
  constructor
  · rintro ⟨⟨hr, hk⟩, hlive⟩
    exact ⟨⟨⟨hr, not_expired_of_live hlive⟩, hk⟩, hlive⟩
  · rintro ⟨⟨⟨hr, -⟩, hk⟩, hlive⟩
    exact ⟨⟨hr, hk⟩, hlive⟩

theorem Swept.page (h : Swept now c c') (pfx after : Key) (limit : Int) :
    c.page now pfx after limit = c'.page now pfx after limit := by
  unfold Cell.page
  congr 1
  apply Table.orderBy_congr
  intro r
  rw [h.mem]
  constructor
  · rintro ⟨hr, hs⟩
    exact ⟨⟨hr, not_expired_of_live (scanned_iff.mp hs).2.1⟩, hs⟩
  · rintro ⟨⟨hr, -⟩, hs⟩
    exact ⟨hr, hs⟩

end Swept

/-! ## Writes as a decision and an upsert -/

/-- A transaction that decides on a row to write, or fails. -/
def Cell.write {α : Type} (c : Cell) (decision : Except Err (α × Row)) :
    Except Err (α × UInt64) × Cell :=
  c.tx fun kv => decision.map fun (a, r) => (a, kv.upsert r)

/-- The row a conditional write writes, from the unexpired row it found. -/
def putRow (found : Option Row) (now : Int) (key : Key) (value metadata : Option Bytes)
    (expiresMs : Int) (cond : PutTxCondition) : Except Err (Unit × Row) :=
  if (cond = .absent ∧ found.isSome) ∨ (cond = .present ∧ ¬ found.isSome) then
    .error .conditionFailed
  else
    match value with
    | none => .error .notNull
    | some v => .ok ((), ⟨key, v, metadata, now, clampExpiry now expiresMs⟩)

/-- The row an increment writes, from the unexpired row it found and the metadata it keeps. -/
def incrRow (found : Option Row) (kept : Option Bytes) (now : Int) (key : Key)
    (delta expiresMs : Int) : Except Err (Int × Row) :=
  (nextValue found delta).map fun next =>
    (next, ⟨key, formatInt next, kept, now, clampExpiry now expiresMs⟩)

theorem putTxIf_eq_write (c : Cell) (now : Int) (key : Key) (value metadata : Option Bytes)
    (expiresMs : Int) (cond : PutTxCondition) :
    c.putTxIf now key value metadata expiresMs cond =
      let (result, c') := c.write
        (putRow ((c.kv.get key).filter (live now)) now key value metadata expiresMs cond)
      (result.map (·.2), c') := by
  unfold Cell.putTxIf Cell.write Cell.tx putRow
  dsimp only
  by_cases hcond : (cond = .absent ∧ ((c.kv.get key).filter (live now)).isSome) ∨
      (cond = .present ∧ ¬ ((c.kv.get key).filter (live now)).isSome)
  · rw [if_pos hcond, if_pos hcond]
    rfl
  · rw [if_neg hcond, if_neg hcond]
    cases value <;> rfl

theorem incrTx_eq_write (c : Cell) (now : Int) (key : Key) (delta expiresMs : Int)
    (metadata : Option Bytes) :
    c.incrTx now key delta expiresMs metadata =
      c.write (incrRow ((c.kv.get key).filter (live now)) (keptMetadata c.kv key metadata) now key
        delta expiresMs) := by
  unfold Cell.incrTx Cell.write Cell.tx incrTxIn incrRow kvUpsert
  dsimp only
  cases nextValue ((c.kv.get key).filter (live now)) delta with
  | error | ok => rfl

section Swept

variable {now : Int} {c c' : Cell}

section Writes

variable (h : Swept now c c')
include h

theorem Swept.write_error {α : Type} (e : Err) :
    (c.write (α := α) (.error e)).1 = (c'.write (.error e)).1 ∧
      SameUnexpired now (c.write (α := α) (.error e)).2 (c'.write (α := α) (.error e)).2 :=
  ⟨rfl, h.sameUnexpired⟩

theorem Swept.write_ok {α : Type} (a : α) (r : Row) :
    (c.write (.ok (a, r))).1 = (c'.write (.ok (a, r))).1 ∧
      SameUnexpired now (c.write (.ok (a, r))).2 (c'.write (.ok (a, r))).2 := by
  refine ⟨?_, ?_⟩
  · simp [Cell.write, Cell.tx, Except.map, h.txid]
  · intro x hx
    simp only [Cell.write, Cell.tx, Except.map]
    rw [Table.mem_upsert, Table.mem_upsert, h.sameUnexpired x hx]

theorem Swept.write_expired {α : Type} (a : α) {r r' : Row}
    (hr : expired now r = true) (hr' : expired now r' = true) (hkey : r.key = r'.key) :
    (c.write (.ok (a, r))).1 = (c'.write (.ok (a, r'))).1 ∧
      SameUnexpired now (c.write (.ok (a, r))).2 (c'.write (.ok (a, r'))).2 := by
  have hne {x y : Row} (hx : expired now x = false) (hy : expired now y = true) : x ≠ y := by
    rintro rfl
    rw [hx] at hy
    cases hy
  refine ⟨?_, ?_⟩
  · simp [Cell.write, Cell.tx, Except.map, h.txid]
  · intro x hx
    simp only [Cell.write, Cell.tx, Except.map]
    rw [Table.mem_upsert, Table.mem_upsert, h.sameUnexpired x hx, hkey]
    simp [hne hx hr, hne hx hr']

theorem Swept.putTxIf (key : Key) (value metadata : Option Bytes)
    (expiresMs : Int) (cond : PutTxCondition) :
    Agree now c c' (.putTxIf key value metadata expiresMs cond) := by
  unfold Agree Cell.call
  simp only [putTxIf_eq_write, ← h.lookup key]
  cases putRow ((c.kv.get key).filter (live now)) now key value metadata expiresMs cond with
  | error e =>
    obtain ⟨hreply, hrows⟩ := h.write_error (α := Unit) e
    exact ⟨by rw [hreply], hrows⟩
  | ok d =>
    obtain ⟨hreply, hrows⟩ := h.write_ok d.1 d.2
    exact ⟨by rw [hreply], hrows⟩

theorem Swept.keptMetadata (key : Key) (metadata : Option Bytes)
    (hrow : metadata = none → ∀ r ∈ c.kv.rows, r.key = key → expired now r = true →
      ∀ m, r.metadata = some m → m = []) :
    keptMetadata c.kv key metadata = keptMetadata c'.kv key metadata := by
  cases metadata with
  | some m => rfl
  | none =>
    unfold Kv.keptMetadata
    cases hget : c.kv.get key with
    | none =>
      have hnone : c'.kv.get key = none := by
        rw [Table.get_eq_none] at hget ⊢
        intro r hr
        exact hget r ((h.mem r).mp hr).1
      rw [hnone]
    | some r =>
      obtain ⟨hr, hk⟩ := Table.get_eq_some.mp hget
      rcases hexp : expired now r with _ | _
      · rw [Table.get_eq_some.mpr ⟨(h.mem r).mpr ⟨hr, hexp⟩, hk⟩]
      -- the swept cell has no row under the key, and this one keeps nothing
      have hnone : c'.kv.get key = none := by
        rw [Table.get_eq_none]
        intro x hx hxk
        obtain ⟨hxc, hxe⟩ := (h.mem x).mp hx
        rw [Table.key_injOn hxc hr (hxk.trans hk.symm), hexp] at hxe
        cases hxe
      rw [hnone, Option.bind_some, Option.bind_none]
      cases hmeta : r.metadata with
      | none => rfl
      | some m => simp [hrow rfl r hr hk hexp m hmeta]

omit h in
theorem expired_clamped (key : Key) (value : Bytes) (metadata : Option Bytes) {expiresMs : Int} :
    expired now ⟨key, value, metadata, now, clampExpiry now expiresMs⟩ = true ↔
      0 < expiresMs ∧ expiresMs ≤ now := by
  unfold expired clampExpiry
  rw [decide_eq_true_iff]
  dsimp only
  split <;> omega

theorem Swept.incrTx (key : Key) (delta expiresMs : Int)
    (metadata : Option Bytes) (hleak : ¬ Leaks now c (.incrTx key delta expiresMs metadata)) :
    Agree now c c' (.incrTx key delta expiresMs metadata) := by
  unfold Agree Cell.call
  simp only [incrTx_eq_write, ← h.lookup key]
  unfold incrRow
  cases nextValue ((c.kv.get key).filter (live now)) delta with
  | error e =>
    obtain ⟨hreply, hrows⟩ := h.write_error (α := Int) e
    exact ⟨congrArg _ hreply, hrows⟩
  | ok next =>
    by_cases hexp : 0 < expiresMs ∧ expiresMs ≤ now
    · have hclamped (kept : Option Bytes) :=
        (expired_clamped key (formatInt next) kept).mpr hexp
      obtain ⟨hreply, hrows⟩ := h.write_expired next
        (hclamped (Kv.keptMetadata c.kv key metadata))
        (hclamped (Kv.keptMetadata c'.kv key metadata)) rfl
      exact ⟨congrArg _ hreply, hrows⟩
    · have hkept : Kv.keptMetadata c.kv key metadata = Kv.keptMetadata c'.kv key metadata := by
        apply h.keptMetadata
        rintro rfl r hr hk hexpired m hm
        by_contra hne
        exact hleak ⟨hexp, r, hr, hk, hexpired, m, hm, hne⟩
      rw [← hkept]
      obtain ⟨hreply, hrows⟩ := h.write_ok next
        ⟨key, formatInt next, Kv.keptMetadata c.kv key metadata, now, clampExpiry now expiresMs⟩
      exact ⟨congrArg _ hreply, hrows⟩

theorem Swept.not_agree {call : Call} (hleak : Leaks now c call) : ¬ Agree now c c' call := by
  cases call with
  | incrTx key delta expiresMs metadata =>
    cases metadata with
    | some m => exact hleak.elim
    | none =>
      obtain ⟨hexp, r, hr, hk, hexpired, m, hm, hne⟩ := hleak
      have hget : c.kv.get key = some r := Table.get_eq_some.mpr ⟨hr, hk⟩
      have hlookup : (c.kv.get key).filter (live now) = none := by
        rw [hget, Option.filter_some, not_live_of_expired hexpired]
        rfl
      have hnone : c'.kv.get key = none := by
        rw [Table.get_eq_none]
        intro x hx hxk
        obtain ⟨hxc, hxe⟩ := (h.mem x).mp hx
        rw [Table.key_injOn hxc hr (hxk.trans hk.symm), hexpired] at hxe
        cases hxe
      have hkept : Kv.keptMetadata c.kv key none = some m := by
        simp [Kv.keptMetadata, hget, hm, hne]
      have hkept' : Kv.keptMetadata c'.kv key none = none := by
        simp [Kv.keptMetadata, hnone]
      rintro ⟨-, hrows⟩
      unfold Cell.call at hrows
      simp only [incrTx_eq_write, ← h.lookup key, hlookup, hkept, hkept', incrRow, nextValue,
        Except.map, Cell.write, Cell.tx] at hrows
      have hfresh := hrows ⟨key, formatInt delta, some m, now, clampExpiry now expiresMs⟩ (by
        rw [Bool.eq_false_iff, ne_eq, expired_clamped]
        exact hexp)
      rw [Table.mem_upsert, Table.mem_upsert] at hfresh
      simp at hfresh
  | _ => exact hleak.elim

end Writes

/-- Every call agrees on a cell and on the cell without its expired rows, but for the increments
that keep the metadata of an expired row. -/
theorem agree_iff_not_leaks (now : Int) (c c' : Cell) (h : Swept now c c') (call : Call) :
    Agree now c c' call ↔ ¬ Leaks now c call := by
  constructor
  · intro hagree hleak
    exact h.not_agree hleak hagree
  · intro hleak
    cases call with
    | get key =>
      refine ⟨?_, h.sameUnexpired⟩
      simp only [Cell.call, Cell.get, Cell.lookup, h.lookup key]
    | getMany keys =>
      refine ⟨?_, h.sameUnexpired⟩
      simp only [Cell.call, Cell.getMany, Cell.lookup, h.lookup]
    | list pfx after limit =>
      refine ⟨?_, h.sameUnexpired⟩
      simp only [Cell.call, Cell.list, h.page]
    | listMeta pfx after limit =>
      refine ⟨?_, h.sameUnexpired⟩
      simp only [Cell.call, Cell.listMeta, h.page]
    | putTxIf key value metadata expiresMs cond => exact h.putTxIf key value metadata expiresMs cond
    | incrTx key delta expiresMs metadata => exact h.incrTx key delta expiresMs metadata hleak

end Swept

/-- A counter that expired at 5 with the metadata `x`, and the same cell without it. -/
def staleCounter : Cell := ⟨⟨[⟨[0x6b], [0x37], some [0x78], 0, 5⟩], by decide⟩, 1⟩
def noCounter : Cell := ⟨Table.empty, 1⟩

theorem swept_staleCounter : Swept 9 staleCounter noCounter := by
  refine ⟨fun r => ?_, rfl⟩
  simp only [noCounter, staleCounter, Table.rows_empty, List.not_mem_nil, List.mem_singleton,
    false_iff, not_and]
  rintro rfl
  decide

theorem agree_iff_not_leaks_read :
    Agree 9 staleCounter noCounter (.get [0x6b]) ↔ ¬ Leaks 9 staleCounter (.get [0x6b]) :=
  agree_iff_not_leaks 9 staleCounter noCounter swept_staleCounter (.get [0x6b])

/-- The increment at 9 finds no counter and starts from 0, and still writes the metadata `x`. -/
theorem incr_keeps_expired_metadata :
    (staleCounter.incrTx 9 [0x6b] 1 0 none).2.kv.rows = [⟨[0x6b], [0x31], some [0x78], 9, 0⟩] ∧
      (noCounter.incrTx 9 [0x6b] 1 0 none).2.kv.rows = [⟨[0x6b], [0x31], none, 9, 0⟩] ∧
      ¬ Agree 9 staleCounter noCounter (.incrTx [0x6b] 1 0 none) := by
  refine ⟨by decide +kernel, by decide +kernel, ?_⟩
  apply swept_staleCounter.not_agree
  exact ⟨by decide, _, List.mem_singleton_self _, rfl, by decide, [0x78], rfl, by decide⟩

end CellHive.Kv
