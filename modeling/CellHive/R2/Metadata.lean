import CellHive.Go.Bytes
import CellHive.R2.Keys
import CellHive.Util.Prefixes

/-!
# The metadata of an R2 object

`internal/r2`: the metadata of an object lies in a sidecar of its own, which counts as long as it
has the size and the etag of the object. `PutConditional` replaces the sidecar, `CompleteMultipart`
leaves it. The calls are made on one key, one after the other.
-/

namespace CellHive.R2

open Go

structure Metadata where
  http : List (Str × Str) := []
  custom : List (Str × Str) := []
  md5 : Str := []
  sha256 : Str := []
  size : Nat := 0
  etag : Str := []
  uploadedMs : Int := 0
deriving DecidableEq, Repr

def Metadata.matches (md : Metadata) (size : Nat) (etag : Str) : Bool :=
  etag ≠ [] && md.etag = etag && md.size = size

/-- What a caller gives; the other fields are filled in. -/
def Metadata.user (md : Metadata) : List (Str × Str) × List (Str × Str) × Str × Str :=
  (md.http, md.custom, md.md5, md.sha256)

structure Condition where
  etagMatches : List Str := []
  etagDoesNotMatch : List Str := []
  found : Option Bool := none

/-- `strings.Trim(v, "\"")` -/
def unquote (v : Str) : Str := ((v.dropWhile (· = '"')).reverse.dropWhile (· = '"')).reverse

/-- `Condition.matches`, of the etag of the object if there is one. -/
def Condition.matches (c : Condition) (etag : Option Str) : Bool :=
  c.found.all (· = etag.isSome) &&
    (c.etagMatches.isEmpty || c.etagMatches.any fun v => etag = some (unquote v)) &&
    !c.etagDoesNotMatch.any fun v => etag = some (unquote v)

/-- The etags of a bucket, whether it can delete on a condition, and the digests in hex. -/
structure Backend where
  etag : Bytes → Str
  conditionalDelete : Bool
  md5 : Bytes → Str
  sha256 : Bytes → Str

/-- The object of the key, its sidecar, and the metadata the last write was given. -/
structure Stored where
  object : Option Bytes := none
  sidecar : Option Metadata := none
  given : Option Metadata := none
deriving DecidableEq

inductive Call
  | put (data : Bytes) (md : Option Metadata) (condition : Option Condition) (now : Int)
  /-- the staged parts with the etags they are expected to have -/
  | complete (parts : List (Bytes × Str))
  | delete (sidecarFails : Bool)

def maxMultipartBytes : Nat := 512 * 2 ^ 20

namespace Stored

variable (b : Backend) (s : Stored)

/-- The sidecar of a write, none for metadata that says nothing. -/
def sidecarFor (data : Bytes) (now : Int) (md : Metadata) : Option Metadata :=
  if md.user = ([], [], [], []) then none
  else some { md with
    size := data.length
    etag := b.etag data
    uploadedMs := if md.uploadedMs = 0 then now else md.uploadedMs }

/-- `PutConditional`, where it returns success and the condition was met. -/
def putConditional (data : Bytes) (md : Option Metadata) (condition : Option Condition)
    (now : Int) : Option Stored :=
  let digest (want : Metadata → Str) (sum : Bytes → Str) : Bool :=
    md.all fun md => want md = [] || (want md).map Char.toLower = sum data
  if !digest Metadata.md5 b.md5 || !digest Metadata.sha256 b.sha256 then none
  else if condition.any (!·.matches (s.object.map b.etag)) then none
  else if s.sidecar.isSome && !b.conditionalDelete then none
  else some ⟨some data, md.bind (sidecarFor b data now), md⟩

/-- The content of an upload whose parts are all there. -/
def assembled (parts : List (Bytes × Str)) : Option Bytes :=
  let data := (parts.map (·.1)).flatten
  if parts = [] ∨ maxMultipartParts < parts.length then none
  else if parts.any fun p => p.2 ≠ [] && p.2 ≠ b.etag p.1 then none
  else if maxMultipartBytes < data.length then none
  else some data

def completeMultipart (parts : List (Bytes × Str)) : Option Stored :=
  (assembled b parts).map fun data => { s with object := some data, given := none }

def delete (sidecarFails : Bool) : Stored := ⟨none, if sidecarFails then s.sidecar else none, none⟩

/-- A call that does not return success is not one of the sequence. -/
def step : Call → Stored
  | .put data md condition now => (s.putConditional b data md condition now).getD s
  | .complete parts => (s.completeMultipart b parts).getD s
  | .delete sidecarFails => s.delete sidecarFails

def getMeta : Option Metadata :=
  s.sidecar.filter fun md => s.object.any fun data => md.matches data.length (b.etag data)

/-- The metadata of the object is what the last write was given. -/
def Belongs : Prop := ∀ md, s.getMeta b = some md → s.given.map Metadata.user = some md.user

/-- An upload is not completed to the size and etag of a sidecar that is there. -/
def Meets : Call → Prop
  | .complete parts => ∀ data, assembled b parts = some data → ∀ md, s.sidecar = some md →
    md.matches data.length (b.etag data) = false
  | _ => True

end Stored

def runCalls (b : Backend) (calls : List Call) : Stored := calls.foldl (Stored.step b) {}

section Runs

variable {b : Backend} {s s' : Stored}

theorem Stored.belongs_putConditional {data : Bytes} {md : Option Metadata}
    {condition : Option Condition} {now : Int}
    (h : s.putConditional b data md condition now = some s') : s'.Belongs b := by
  unfold putConditional at h
  dsimp only at h
  split at h
  · cases h
  split at h
  · cases h
  split at h
  · cases h
  cases h
  intro found hfound
  obtain ⟨hside, -⟩ := Option.filter_eq_some_iff.1 hfound
  obtain ⟨given, rfl, hfor⟩ := Option.bind_eq_some_iff.1 hside
  unfold sidecarFor at hfor
  split at hfor
  · cases hfor
  · cases hfor
    rfl

theorem Stored.belongs_step_iff (h : s.Belongs b) (c : Call) :
    (s.step b c).Belongs b ↔ s.Meets b c := by
  cases c with
  | put data md condition now =>
    refine iff_true_intro ?_
    rw [step]
    cases hput : s.putConditional b data md condition now with
    | none => exact h
    | some s' => exact belongs_putConditional hput
  | delete sidecarFails =>
    refine iff_true_intro fun md hmd => ?_
    simp [getMeta, step, delete] at hmd
  | complete parts =>
    rw [step, completeMultipart, Meets]
    cases assembled b parts with
    | none => simpa using h
    | some data => simp [Belongs, getMeta]

/-- The metadata of the object is that of its last write, at every moment of a sequence of calls,
exactly when no upload is completed to the size and etag of a sidecar that an earlier write left. -/
theorem metadata_of_last_write_iff (b : Backend) (calls : List Call) :
    (∀ before, before <+: calls → (runCalls b before).Belongs b) ↔
      ∀ before c, before ++ [c] <+: calls → (runCalls b before).Meets b c :=
  Util.invariant_iff_steps (I := Stored.Belongs b) (fun _ h => by cases h)
    (fun _ c h => Stored.belongs_step_iff h c) calls

/-- Contents of one length have one etag. -/
def lengthTagged : Backend := ⟨fun data => formatUint data.length, true, fun _ => [], fun _ => []⟩

/-- An upload of the bytes that were put before shows the metadata of the put. -/
theorem upload_revives_metadata :
    ¬ (runCalls lengthTagged [.put [7] (some { custom := [(['k'], ['v'])] }) none 1,
      .complete [([7], [])]]).Belongs lengthTagged := by
  intro h
  have hmeta := h { custom := [(['k'], ['v'])], size := 1, etag := ['1'], uploadedMs := 1 }
    (by decide)
  cases hmeta

end Runs

end CellHive.R2
