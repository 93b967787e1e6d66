import CellHive.Control.Hosts
import CellHive.Util.Prefixes

/-!
# Classes of Durable Objects

The rows `do_classes` of one worker (`internal/control/store.go`). A rename records the storage
class under the new name and drops the row of the old one. The old name then has no row, and a
class without a row has the storage class of its own name: the one the rename just took along.
-/

namespace CellHive.Control

open Go Sql

structure ClassRow where
  codeClass : Str
  storageClass : Str
  deleted : Bool
deriving DecidableEq, Repr

abbrev Classes := Table ClassRow.codeClass

inductive ClassOp
  | renameClass (old new : Str)
  | deleteClass (name : Str)
deriving DecidableEq, Repr

namespace Classes

variable (t : Classes)

/-- The storage class by the aliases of `DOClassState`. -/
def storage (name : Str) : Str :=
  let recorded := (t.get name).elim [] ClassRow.storageClass
  if recorded = [] then name else recorded

def deleted (name : Str) : Bool := (t.get name).any ClassRow.deleted

def renameClass (old new : Str) : Except Err Classes :=
  if old = [] ∨ new = [] then .error (.errorf "control: rename needs from and to")
  else if (t.get new).isSome then
    .error (.errorf s!"control: class {String.ofList new} already exists")
  else
    .ok ((t.upsert ⟨new, t.storage old, false⟩).delete (·.codeClass = old))

def deleteClass (name : Str) : Except Err Classes :=
  if name = [] then .error (.errorf "control: delete needs a class")
  else
    .ok ((t.insertIgnore ⟨name, [], true⟩).update (·.codeClass = name)
      (fun row => { row with deleted := true }) fun _ => rfl)

def exec : ClassOp → Except Err Classes
  | .renameClass old new => t.renameClass old new
  | .deleteClass name => t.deleteClass name

/-- A transaction that fails leaves the rows as they are. -/
def step (op : ClassOp) : Classes := ((t.exec op).toOption).getD t

def run (ops : List ClassOp) : Classes := ops.foldl step Table.empty

/-- No two classes that are not deleted have one storage class. -/
def Apart : Prop :=
  ∀ c d, t.deleted c = false → t.deleted d = false → t.storage c = t.storage d → c = d

/-- A rename that takes place, to another name. -/
def Renames : ClassOp → Prop
  | .renameClass old new => old ≠ [] ∧ new ≠ [] ∧ old ≠ new ∧ t.get new = none
  | .deleteClass _ => False

/-- Each class keeps its storage class, but for the two names of a rename: the new one has the
storage class the old one had. -/
def Moves (op : ClassOp) (t' : Classes) : Prop :=
  ∀ c, t'.storage c = t.storage c ∨ ∃ old new, op = .renameClass old new ∧
    (c = old ∨ (c = new ∧ t'.storage c = t.storage old))

variable {t} {t' : Classes} {old new : Str}

theorem storage_congr {u : Classes} {name : Str}
    (h : (u.get name).elim [] ClassRow.storageClass = (t.get name).elim [] ClassRow.storageClass) :
    u.storage name = t.storage name := by
  rw [storage, storage, h]

theorem storage_ne_nil {name : Str} (h : name ≠ []) : t.storage name ≠ [] := by
  unfold storage
  dsimp only
  split
  · exact h
  · next hrecorded => exact hrecorded

theorem renameClass_eq_ok (h : t.renameClass old new = .ok t') :
    (old ≠ [] ∧ new ≠ [] ∧ t.get new = none) ∧ ∀ k, t'.get k =
      if k = old then none else if k = new then some ⟨new, t.storage old, false⟩ else t.get k := by
  unfold renameClass at h
  split at h
  · cases h
  next hnames =>
  split at h
  · cases h
  next hfree =>
  cases h
  push Not at hnames
  refine ⟨⟨hnames.1, hnames.2, by simpa using hfree⟩, fun k => ?_⟩
  rw [Table.get_delete, Table.get_upsert]
  by_cases hnew : new = k
  · subst hnew
    by_cases hold : new = old <;> simp [hold]
  rw [if_neg hnew, if_neg (Ne.symm hnew)]
  cases hget : t.get k with
  | none => simp
  | some row =>
    have hkey : row.codeClass = k := Table.get_key hget
    by_cases hold : k = old <;> simp [hkey, hold]

theorem storage_deleteClass {name : Str} (h : t.deleteClass name = .ok t') (k : Str) :
    t'.storage k = t.storage k := by
  unfold deleteClass at h
  split at h
  · cases h
  cases h
  apply storage_congr
  rw [Table.get_update, Table.get_insertIgnore]
  by_cases hk : name = k
  · subst hk
    cases hget : t.get name with
    | none => simp
    | some row => simp [show row.codeClass = name from Table.get_key hget]
  · rw [if_neg hk]
    cases hget : t.get k with
    | none => rfl
    | some row =>
      have hkey : row.codeClass = k := Table.get_key hget
      simp [hkey, Ne.symm hk]

theorem moves_step (t : Classes) (op : ClassOp) : t.Moves op (t.step op) := by
  intro c
  unfold step
  rcases hexec : t.exec op with e | t'
  · exact .inl rfl
  change t'.storage c = _ ∨ ∃ old new, _ ∧ (_ ∨ (_ ∧ t'.storage c = _))
  cases op with
  | deleteClass name => exact .inl (storage_deleteClass hexec c)
  | renameClass old new =>
    obtain ⟨⟨hne, -, -⟩, hget⟩ := renameClass_eq_ok hexec
    by_cases hold : c = old
    · exact .inr ⟨old, new, rfl, .inl hold⟩
    by_cases hnew : c = new
    · refine .inr ⟨old, new, rfl, .inr ⟨hnew, ?_⟩⟩
      have hrow := hget c
      rw [if_neg hold, if_pos hnew] at hrow
      rw [storage, hrow]
      simp [storage_ne_nil hne]
    · exact .inl (storage_congr (by rw [hget, if_neg hold, if_neg hnew]))

/-! ## Runs -/

/-- No class has an alias. -/
def Plain (t : Classes) : Prop := ∀ c, t.storage c = c

theorem Plain.apart (h : t.Plain) : t.Apart := fun c d _ _ heq => by rwa [h c, h d] at heq

theorem Plain.step {op : ClassOp} (h : t.Plain) (hop : ¬ t.Renames op) : (t.step op).Plain := by
  intro c
  rcases t.moves_step op c with hsame | ⟨old, new, rfl, hc⟩
  · rw [hsame, h c]
  rcases hexec : t.renameClass old new with e | t'
  · simpa [Classes.step, exec, hexec, Except.toOption] using h c
  obtain ⟨⟨hold, hnew, hfree⟩, hget⟩ := renameClass_eq_ok hexec
  obtain rfl : old = new := by
    by_contra hne
    exact hop ⟨hold, hnew, hne, hfree⟩
  have hsame : t'.get c = t.get c := by
    rw [hget]
    split
    · next hc => rw [hc, hfree]
    · rfl
  have hstorage : t'.storage c = c := (storage_congr (by rw [hsame])).trans (h c)
  simpa [Classes.step, exec, hexec, Except.toOption] using hstorage

/-- After a rename the old name has the storage class that went with the new one. -/
theorem Plain.not_apart {op : ClassOp} (h : t.Plain) (hop : t.Renames op) :
    ¬ (t.step op).Apart := by
  cases op with
  | deleteClass name => exact hop.elim
  | renameClass old new =>
    obtain ⟨hold, hnew, hne, hfree⟩ := hop
    obtain ⟨t', hexec⟩ : ∃ t', t.renameClass old new = .ok t' := by
      simp [renameClass, hold, hnew, hfree]
    have hget := (renameClass_eq_ok hexec).2
    have hstep : t.step (.renameClass old new) = t' := by
      simp [Classes.step, exec, hexec, Except.toOption]
    have hrowOld : t'.get old = none := by simp [hget]
    have hrowNew : t'.get new = some ⟨new, old, false⟩ := by simp [hget, Ne.symm hne, h old]
    rw [hstep]
    intro hapart
    refine hne (hapart old new ?_ ?_ ?_)
    · simp [deleted, hrowOld]
    · simp [deleted, hrowNew]
    · simp [storage, hrowOld, hrowNew, hold]

/-- A storage class moves with the renames of its class only, and classes share none in any state
of a run exactly if no rename takes place. -/
theorem storage_classes_apart (ops : List ClassOp) :
    (∀ before op, before ++ [op] <+: ops → (run before).Moves op (run (before ++ [op]))) ∧
      ((∀ before, before <+: ops → (run before).Apart) ↔
        ∀ before op, before ++ [op] <+: ops → ¬ (run before).Renames op) := by
  have hconcat (before : List ClassOp) (op : ClassOp) :
      run (before ++ [op]) = (run before).step op := by
    rw [run, List.foldl_append]
    rfl
  have hstart : Plain Table.empty := fun _ => rfl
  refine ⟨fun before op _ => hconcat before op ▸ moves_step _ op, fun hall => ?_, fun hops => ?_⟩
  · have hstep (t : Classes) (op : ClassOp) (ht : t.Plain) (hgood : (t.step op).Apart) :
        (t.step op).Plain := ht.step fun hop => ht.not_apart hop hgood
    have hplain := Util.invariant_of_steps hstart hstep
      fun before op hinit => hconcat before op ▸ hall _ hinit
    intro before op hinit hop
    have hafter := hall _ hinit
    rw [hconcat] at hafter
    exact (hplain before ((List.prefix_append before [op]).trans hinit)).not_apart hop hafter
  · intro before hinit
    exact (Util.invariant_of_steps (I := Plain) hstart (fun t op ht hop => ht.step hop) hops before
      hinit).apart

/-- The class renamed to `B` and a new class under its old name share the storage class `A`. -/
theorem renamed_class_shares : ¬ (run [.renameClass ['A'] ['B']]).Apart := by
  intro h
  have heq := h ['A'] ['B'] (by decide) (by decide) (by decide)
  cases heq

end Classes

end CellHive.Control
