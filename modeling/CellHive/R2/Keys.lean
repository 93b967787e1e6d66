import CellHive.Control.Namespace

/-!
# The backend keys of R2

`internal/r2`: objects and their metadata live under the namespace and the bucket, the parts of a
multipart upload in a staging area that shares the prefix of the objects. A namespace with the
name of the staging area owns objects there.
-/

namespace CellHive.R2

open Go Control

inductive Err
  | badKey
  | badUpload
deriving DecidableEq, Repr

def maxMultipartParts : Int := 10000

/-- `fmt.Sprintf("r2/%s/%s/%s", ns, bucketName, key)` -/
def key (ns bucketName key : Str) : Except Err Str :=
  if ns = [] ∨ bucketName = [] ∨ key = [] then .error .badKey
  else if hasSeparator ns ∨ hasSeparator bucketName then .error .badKey
  else if ['/'].isPrefixOf key ∨ containsSub key ['.', '.'] then .error .badKey
  else .ok (['r', '2', '/'] ++ ns ++ '/' :: (bucketName ++ '/' :: key))

def listPrefix (ns bucketName : Str) : Except Err Str :=
  if ns = [] ∨ bucketName = [] ∨ hasSeparator ns ∨ hasSeparator bucketName then .error .badKey
  else .ok (['r', '2', '/'] ++ ns ++ '/' :: (bucketName ++ ['/']))

def metaKey (ns bucketName k : Str) : Except Err Str :=
  match key ns bucketName k with
  | .error e => .error e
  | .ok _ => .ok (['r', '2', 'm', 'e', 't', 'a', '/'] ++ ns ++ '/' :: (bucketName ++ '/' :: k))

/-- 32 lowercase hex digits -/
def isUploadID (s : Str) : Bool :=
  s.length = 32 && s.all fun c => ('0' ≤ c && c ≤ '9') || ('a' ≤ c && c ≤ 'f')

def stagingArea : Str := ['.', 'm', 'p', 'u']

def multipartPrefix (ns bucketName uploadID : Str) : Except Err Str :=
  if ns = [] ∨ bucketName = [] ∨ isUploadID uploadID = false then .error .badUpload
  else if hasSeparator ns ∨ hasSeparator bucketName then .error .badUpload
  else
    .ok (['r', '2', '/'] ++ stagingArea ++ '/' ::
      (ns ++ '/' :: (bucketName ++ '/' :: (uploadID ++ ['/']))))

/-- `%05d` of a positive number -/
def pad5 (n : Nat) : Str := List.replicate (5 - (formatUint n).length) '0' ++ formatUint n

def partKey (staging : Str) (part : Int) : Except Err Str :=
  if part < 1 ∨ maxMultipartParts < part then .error .badUpload
  else .ok (staging ++ pad5 part.toNat)

def createMarkerKey (staging : Str) : Str := staging ++ "created".toList

/-! ## What a namespace reaches -/

/-- The backend keys that the operations of a namespace read, write, delete or list. -/
inductive Reaches (ns : Str) : Str → Prop
  | object {b k x : Str} (h : key ns b k = .ok x) : Reaches ns x
  | listed {b p : Str} (h : listPrefix ns b = .ok p) (rest : Str) : Reaches ns (p ++ rest)
  | metadata {b k x : Str} (h : metaKey ns b k = .ok x) : Reaches ns x
  | part {b id p x : Str} {n : Int} (h : multipartPrefix ns b id = .ok p)
      (hpart : partKey p n = .ok x) :
    Reaches ns x
  | marker {b id p : Str} (h : multipartPrefix ns b id = .ok p) : Reaches ns (createMarkerKey p)
  | staged {b id p : Str} (h : multipartPrefix ns b id = .ok p) (rest : Str) :
      Reaches ns (p ++ rest)

/-- A part or a creation marker of some upload. -/
def Staged (x : Str) : Prop :=
  ∃ ns b id p, multipartPrefix ns b id = .ok p ∧ (x = createMarkerKey p ∨ ∃ n, partKey p n = .ok x)

section Shapes

variable {ns ns' b k id p x : Str}

theorem key_eq_ok (h : key ns b k = .ok x) :
    '/' ∉ ns ∧ ∃ rest, x = ['r', '2', '/'] ++ ns ++ '/' :: rest := by
  unfold key at h
  split at h
  · cases h
  split at h
  · cases h
  next hsep =>
  split at h
  · cases h
  cases h
  simp only [not_or, Bool.not_eq_true] at hsep
  exact ⟨slash_notMem hsep.1, _, rfl⟩

theorem metaKey_eq_ok (h : metaKey ns b k = .ok x) :
    '/' ∉ ns ∧ ∃ rest, x = ['r', '2', 'm', 'e', 't', 'a', '/'] ++ ns ++ '/' :: rest := by
  unfold metaKey at h
  cases hkey : key ns b k with
  | error e =>
    rw [hkey] at h
    cases h
  | ok y =>
    rw [hkey] at h
    cases h
    exact ⟨(key_eq_ok hkey).1, _, rfl⟩

theorem listPrefix_eq_ok (h : listPrefix ns b = .ok p) :
    '/' ∉ ns ∧ ∃ rest, p = ['r', '2', '/'] ++ ns ++ '/' :: rest := by
  unfold listPrefix at h
  split at h
  · cases h
  next hsep =>
  cases h
  simp only [not_or, Bool.not_eq_true] at hsep
  exact ⟨slash_notMem hsep.2.2.1, _, rfl⟩

theorem multipartPrefix_eq_ok (h : multipartPrefix ns b id = .ok p) :
    '/' ∉ ns ∧ ∃ rest, p = ['r', '2', '/'] ++ stagingArea ++ '/' :: (ns ++ '/' :: rest) := by
  unfold multipartPrefix at h
  split at h
  · cases h
  split at h
  · cases h
  next hsep =>
  cases h
  simp only [not_or, Bool.not_eq_true] at hsep
  exact ⟨slash_notMem hsep.1, _, rfl⟩

theorem partKey_eq_ok {n : Int} (h : partKey p n = .ok x) : ∃ rest, x = p ++ rest := by
  unfold partKey at h
  split at h
  · cases h
  · cases h
    exact ⟨_, rfl⟩

/-- The three areas of a namespace. -/
theorem Reaches.areas (h : Reaches ns x) : '/' ∉ ns ∧ ∃ rest,
    x = ['r', '2', '/'] ++ ns ++ '/' :: rest ∨
    x = ['r', '2', 'm', 'e', 't', 'a', '/'] ++ ns ++ '/' :: rest ∨
    x = ['r', '2', '/'] ++ stagingArea ++ '/' :: (ns ++ '/' :: rest) := by
  cases h with
  | object h =>
    obtain ⟨hns, rest, rfl⟩ := key_eq_ok h
    exact ⟨hns, rest, .inl rfl⟩
  | listed h rest =>
    obtain ⟨hns, rest', rfl⟩ := listPrefix_eq_ok h
    exact ⟨hns, rest' ++ rest, .inl (by simp)⟩
  | metadata h =>
    obtain ⟨hns, rest, rfl⟩ := metaKey_eq_ok h
    exact ⟨hns, rest, .inr (.inl rfl)⟩
  | part h hpart =>
    obtain ⟨hns, rest, rfl⟩ := multipartPrefix_eq_ok h
    obtain ⟨rest', rfl⟩ := partKey_eq_ok hpart
    exact ⟨hns, rest ++ rest', .inr (.inr (by simp))⟩
  | marker h =>
    obtain ⟨hns, rest, rfl⟩ := multipartPrefix_eq_ok h
    exact ⟨hns, rest ++ "created".toList, .inr (.inr (by simp [createMarkerKey]))⟩
  | staged h rest =>
    obtain ⟨hns, rest', rfl⟩ := multipartPrefix_eq_ok h
    exact ⟨hns, rest' ++ rest, .inr (.inr (by simp))⟩

theorem component_inj {r r' : Str} (h : '/' ∉ ns) (h' : '/' ∉ ns')
    (heq : ns ++ '/' :: r = ns' ++ '/' :: r') : ns = ns' ∧ r = r' := by
  have hcut := congrArg (cutAt '/') heq
  rw [cutAt_append h, cutAt_append h', Option.some.injEq, Prod.mk.injEq] at hcut
  exact hcut

end Shapes

/-! ## Tenants -/

section Tenants

variable {ns ns' x : Str}

theorem eq_stagingArea {r r' : Str} (h : '/' ∉ ns)
    (heq : ['r', '2', '/'] ++ ns ++ '/' :: r = ['r', '2', '/'] ++ stagingArea ++ '/' :: r') :
    ns = stagingArea := by
  rw [List.append_assoc] at heq
  exact (component_inj h (by decide) (List.append_cancel_left heq)).1

theorem Reaches.disjoint (hne : ns ≠ ns') (hns : ns ≠ stagingArea) (hns' : ns' ≠ stagingArea)
    (h : Reaches ns x) : ¬ Reaches ns' x := by
  intro h'
  obtain ⟨hslash, r, hx⟩ := h.areas
  obtain ⟨hslash', r', hx'⟩ := h'.areas
  rcases hx with rfl | rfl | rfl <;> rcases hx' with hx' | hx' | hx'
  · rw [List.append_assoc] at hx'
    exact hne (component_inj hslash hslash' (List.append_cancel_left hx')).1
  · simp at hx'
  · exact hns (eq_stagingArea hslash hx')
  · simp at hx'
  · rw [List.append_assoc] at hx'
    exact hne (component_inj hslash hslash' (List.append_cancel_left hx')).1
  · simp at hx'
  · exact hns' (eq_stagingArea hslash' hx'.symm)
  · simp at hx'
  · have hrest := (List.cons.inj (List.append_cancel_left hx')).2
    exact hne (component_inj hslash hslash' hrest).1

theorem not_staged_of_ne (hns : ns ≠ stagingArea) {b k : Str} (h : key ns b k = .ok x) :
    ¬ Staged x := by
  rintro ⟨ns', b', id, p, hp, hx⟩
  obtain ⟨hslash, r, rfl⟩ := key_eq_ok h
  obtain ⟨-, r', rfl⟩ := multipartPrefix_eq_ok hp
  obtain ⟨rest, hrest⟩ : ∃ rest, ['r', '2', '/'] ++ ns ++ '/' :: r
      = ['r', '2', '/'] ++ stagingArea ++ '/' :: (ns' ++ '/' :: r') ++ rest := by
    rcases hx with hx | ⟨n, hx⟩
    · exact ⟨_, hx⟩
    · exact partKey_eq_ok hx
  exact hns (eq_stagingArea hslash hrest)

def zeroUpload : Str := List.replicate 32 '0'

/-- The first part of an upload of a namespace is an object of the namespace `.mpu`, in the bucket
with the name of the first namespace. -/
theorem staged_object (h : validateNS ns = .ok ()) :
    ∃ p x, multipartPrefix ns ['b'] zeroUpload = .ok p ∧ partKey p 1 = .ok x ∧
      key stagingArea ns (['b', '/'] ++ zeroUpload ++ "/00001".toList) = .ok x := by
  obtain ⟨hnil, hsep⟩ := validateNS_eq_ok h
  have hupload : isUploadID zeroUpload = true := by decide
  have hb : hasSeparator ['b'] = false := by decide
  have harea : hasSeparator stagingArea = false := by decide
  have hkey : (['/'].isPrefixOf (['b', '/'] ++ zeroUpload ++ "/00001".toList)
      || containsSub (['b', '/'] ++ zeroUpload ++ "/00001".toList) ['.', '.']) = false := by
    decide +kernel
  rw [Bool.or_eq_false_iff] at hkey
  have hpad : pad5 (1 : Int).toNat = "00001".toList := by decide +kernel
  refine ⟨['r', '2', '/'] ++ stagingArea ++ '/' ::
    (ns ++ '/' :: (['b'] ++ '/' :: (zeroUpload ++ ['/']))),
    ['r', '2', '/'] ++ stagingArea ++
      '/' :: (ns ++ '/' :: (['b'] ++ '/' :: (zeroUpload ++ ['/']))) ++ "00001".toList, ?_, ?_, ?_⟩
  · simp [multipartPrefix, hnil, hupload, hsep, hb]
  · rw [partKey, if_neg (by decide), hpad]
  · rw [key, if_neg (by simp [hnil, stagingArea]), if_neg (by simp [hsep, harea]),
      if_neg (by simp only [hkey]; decide)]
    simp

/-- The keys of two tenants are apart, and no object of theirs is a staged part, unless one of them
is named like the staging area. -/
theorem tenants_apart_iff (ns ns' : Str) (hne : ns ≠ ns') (h : validateNS ns = .ok ())
    (h' : validateNS ns' = .ok ()) :
    ((∀ x, Reaches ns x → ¬ Reaches ns' x) ∧
      ∀ b k x, key ns b k = .ok x ∨ key ns' b k = .ok x → ¬ Staged x) ↔
    ns ≠ stagingArea ∧ ns' ≠ stagingArea := by
  constructor
  · rintro ⟨-, hstaged⟩
    constructor
    · rintro rfl
      obtain ⟨p, x, hp, hpart, hkey⟩ := staged_object h'
      exact hstaged _ _ x (.inl hkey) ⟨_, _, _, p, hp, .inr ⟨1, hpart⟩⟩
    · rintro rfl
      obtain ⟨p, x, hp, hpart, hkey⟩ := staged_object h
      exact hstaged _ _ x (.inr hkey) ⟨_, _, _, p, hp, .inr ⟨1, hpart⟩⟩
  · rintro ⟨hns, hns'⟩
    refine ⟨fun x hx => hx.disjoint hne hns hns', ?_⟩
    rintro b k x (hx | hx)
    · exact not_staged_of_ne hns hx
    · exact not_staged_of_ne hns' hx

theorem tenants_apart_iff_acme_globex :
    "acme".toList ≠ "globex".toList ∧
    (((∀ x, Reaches "acme".toList x → ¬ Reaches "globex".toList x) ∧
      ∀ b k x, key "acme".toList b k = .ok x ∨ key "globex".toList b k = .ok x → ¬ Staged x) ↔
    "acme".toList ≠ stagingArea ∧ "globex".toList ≠ stagingArea) :=
  ⟨by decide, tenants_apart_iff _ _ (by decide) (by decide) (by decide)⟩

/-- Namespace `.mpu` is valid and can have a token; its object in bucket `a` is the first part of an
upload of namespace `a`. -/
theorem mpu_object_is_part :
    validateNS stagingArea = .ok () ∧ exact stagingArea = true ∧ validateNS ['a'] = .ok () ∧
    ∃ p x, multipartPrefix ['a'] ['b'] zeroUpload = .ok p ∧ partKey p 1 = .ok x ∧
      key stagingArea ['a'] (['b', '/'] ++ zeroUpload ++ "/00001".toList) = .ok x ∧
      Reaches stagingArea x ∧ Reaches ['a'] x ∧ Staged x := by
  obtain ⟨p, x, hp, hpart, hkey⟩ := staged_object (show validateNS ['a'] = .ok () by decide)
  exact ⟨by decide, by decide, by decide, p, x, hp, hpart, hkey, .object hkey, .part hp hpart,
    _, _, _, p, hp, .inr ⟨1, hpart⟩⟩

end Tenants

end CellHive.R2
