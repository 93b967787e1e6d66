import CellHive.Go.Bytes
import CellHive.Go.Strings
import CellHive.Errors

/-!
# Object store

`internal/bucket/fsbucket.go` as a sequential store: a finite map from keys to
values, listed in ascending key order. Etags, locks and counters are left out: no
function modelled over this store reads them.
-/

namespace CellHive.Bucket

open Go

abbrev Key := Str

structure Store where
  objects : List (Key × Bytes)
  ascending : objects.Pairwise fun a b => a.1 < b.1
  deriving DecidableEq

def Store.empty : Store := ⟨[], List.Pairwise.nil⟩

/-- `Get`, without the etag. -/
def Store.get (b : Store) (key : Key) : Res Bytes :=
  match b.objects.lookup key with
  | none => .error (.sentinel .bucketNotFound)
  | some data => .ok data

/-- `RangedGet`: the range is cut at the end of the object, an offset behind it is refused. -/
def Store.rangedGet (b : Store) (key : Key) (off length : Nat) : Res Bytes := do
  let data ← b.get key
  if data.length < off then .error (.errorf "bucket: range out of bounds")
  else .ok (slice data off (min (off + length) data.length))

theorem Store.rangedGet_eq_ok {b : Store} {key : Key} {off length : Nat} {raw : Bytes} :
    b.rangedGet key off length = .ok raw ↔
      ∃ data, b.get key = .ok data ∧ off ≤ data.length ∧ raw = (data.drop off).take length := by
  unfold Store.rangedGet
  rw [bind_eq_ok]
  refine exists_congr fun data => and_congr_right fun _ => ?_
  have hcut : slice data off (min (off + length) data.length) = (data.drop off).take length := by
    rw [slice, List.take_eq_take_iff, List.length_drop]
    omega
  rw [hcut]
  split
  · next hlt =>
    refine ⟨nofun, fun h => ?_⟩
    omega
  · next hle =>
    rw [Except.ok.injEq, eq_comm]
    exact ⟨fun h => ⟨by omega, h⟩, fun h => h.2⟩

def Store.list (b : Store) (start : Key) : List Key :=
  (b.objects.map (·.1)).filter (start.isPrefixOf ·)

/-! ## Writing -/

def insertObject (key : Key) (data : Bytes) : List (Key × Bytes) → List (Key × Bytes)
  | [] => [(key, data)]
  | (k, d) :: rest =>
    if key < k then (key, data) :: (k, d) :: rest
    else if key = k then (key, data) :: rest
    else (k, d) :: insertObject key data rest

theorem mem_insertObject {key : Key} {data : Bytes} {objects : List (Key × Bytes)}
    {o : Key × Bytes} (h : o ∈ insertObject key data objects) : o = (key, data) ∨ o ∈ objects := by
  induction objects with
  | nil => exact .inl (List.mem_singleton.1 h)
  | cons p rest ih =>
    rw [insertObject] at h
    split at h
    · exact List.mem_cons.1 h
    split at h
    · rcases List.mem_cons.1 h with h | h
      · exact .inl h
      · exact .inr (List.mem_cons_of_mem _ h)
    · rcases List.mem_cons.1 h with rfl | h
      · exact .inr List.mem_cons_self
      · exact (ih h).imp_right (List.mem_cons_of_mem _)

theorem ascending_insertObject {key : Key} {data : Bytes} {objects : List (Key × Bytes)}
    (h : objects.Pairwise fun a b => a.1 < b.1) :
    (insertObject key data objects).Pairwise fun a b => a.1 < b.1 := by
  induction objects with
  | nil => exact List.pairwise_singleton _ _
  | cons p rest ih =>
    obtain ⟨hp, hrest⟩ := List.pairwise_cons.1 h
    rw [insertObject]
    split
    · next hlt =>
      refine List.pairwise_cons.2 ⟨?_, h⟩
      intro o ho
      rcases List.mem_cons.1 ho with rfl | ho
      · exact hlt
      · exact lt_trans hlt (hp o ho)
    · next hnot =>
      split
      · next heq =>
        subst heq
        exact List.pairwise_cons.2 ⟨hp, hrest⟩
      · next hne =>
        refine List.pairwise_cons.2 ⟨?_, ih hrest⟩
        intro o ho
        rcases mem_insertObject ho with rfl | ho
        · exact lt_of_le_of_ne (not_lt.1 hnot) (Ne.symm hne)
        · exact hp o ho

def Store.put (b : Store) (key : Key) (data : Bytes) : Store :=
  ⟨insertObject key data b.objects, ascending_insertObject b.ascending⟩

/-- `Delete`: deleting a missing object is no error. -/
def Store.delete (b : Store) (key : Key) : Store :=
  ⟨b.objects.filter (·.1 ≠ key), b.ascending.filter _⟩

/-! ## Reading after writing -/

theorem lookup_cons (k : Key) (o : Key × Bytes) (rest : List (Key × Bytes)) :
    (o :: rest).lookup k = if k = o.1 then some o.2 else rest.lookup k := by
  rw [List.lookup_cons]
  by_cases hk : k = o.1
  · simp [hk]
  · rw [beq_eq_false_iff_ne.2 hk, if_neg hk]

theorem lookup_insertObject (key : Key) (data : Bytes) (objects : List (Key × Bytes)) (k : Key) :
    (insertObject key data objects).lookup k = if k = key then some data else objects.lookup k := by
  induction objects with
  | nil => rw [insertObject, lookup_cons]
  | cons o rest ih =>
    rw [insertObject]
    split
    · rw [lookup_cons]
    split
    · next heq =>
      rw [lookup_cons, lookup_cons, ← heq]
      split <;> rfl
    · next hne =>
      rw [lookup_cons, lookup_cons, ih]
      split
      · next hk => rw [if_neg (by rw [hk]; exact Ne.symm hne)]
      · rfl

theorem Store.get_put (b : Store) (key : Key) (data : Bytes) (k : Key) :
    (b.put key data).get k = if k = key then .ok data else b.get k := by
  unfold Store.get
  rw [Store.put, lookup_insertObject]
  by_cases hk : k = key <;> simp [hk]

@[simp] theorem Store.get_put_self (b : Store) (key : Key) (data : Bytes) :
    (b.put key data).get key = .ok data := by
  rw [Store.get_put, if_pos rfl]

end CellHive.Bucket
