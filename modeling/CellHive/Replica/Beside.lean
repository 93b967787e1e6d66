import CellHive.Replica.Retire

/-!
# Objects of other epochs

A restore of one epoch reads only objects of that epoch's directory, as long as its manifest
lists no others. `Beside e m m'` says that `m'` is `m` without some objects of epochs other
than `e`; what is read for `e` is the same in both.
-/

namespace CellHive.Replica

open Go Ltx Bucket

namespace Manager

theorem epochOf_append (scope : Key) (e : UInt64) (name : Str) :
    epochOf scope (epochDir scope e ++ name) = some (e, name) := by
  have hsplit : epochDir scope e ++ name =
      (ltxDir scope ++ ['e']) ++ (formatUint e.toNat ++ '/' :: name) := by
    simp [epochDir]
  unfold epochOf
  rw [hsplit, cutStart_append]
  dsimp only
  rw [cutAt_append (not_mem_formatUint (by decide) _)]
  dsimp only
  rw [parseUint_formatUint e.toNat_lt]
  simp

theorem epoch_of_dir {scope k : Key} {e x : UInt64} {name : Str}
    (hk : (epochDir scope e).isPrefixOf k = true) (hx : epochOf scope k = some (x, name)) :
    x = e := by
  obtain ⟨rest, rfl⟩ := List.isPrefixOf_iff_prefix.1 hk
  rw [epochOf_append, Option.some.injEq, Prod.mk.injEq] at hx
  exact hx.1.symm

/-- `m'` lacks some objects of epochs other than `e`. -/
structure Beside (e : UInt64) (m m' : Manager) : Prop where
  scope : m'.scope = m.scope
  manifests : m'.manifests = m.manifests
  fence : m'.fence = m.fence
  objects : ∃ keep : Key → Bool,
    m'.objects.objects = m.objects.objects.filter (fun o => keep o.1) ∧
      ∀ k, keep k = false → ∃ x name, epochOf m.scope k = some (x, name) ∧ x ≠ e

section Beside

variable {e : UInt64} {m m' m'' : Manager}

theorem Beside.refl (e : UInt64) (m : Manager) : Beside e m m :=
  ⟨rfl, rfl, rfl, fun _ => true, by simp, nofun⟩

theorem Beside.trans (h : Beside e m m') (h' : Beside e m' m'') : Beside e m m'' := by
  obtain ⟨keep, hobj, hkeep⟩ := h.objects
  obtain ⟨keep', hobj', hkeep'⟩ := h'.objects
  refine ⟨h'.scope.trans h.scope, h'.manifests.trans h.manifests, h'.fence.trans h.fence,
    fun k => keep k && keep' k, ?_, fun k hk => ?_⟩
  · rw [hobj', hobj, List.filter_filter]
    congr 1
    funext o
    exact Bool.and_comm _ _
  · rcases Bool.and_eq_false_iff.1 hk with hk | hk
    · exact hkeep k hk
    · rw [← h.scope]
      exact hkeep' k hk

theorem Beside.delete {x : UInt64} {key : Key} {name : Str}
    (hkey : epochOf m.scope key = some (x, name)) (hx : x ≠ e) :
    Beside e m { m with objects := m.objects.delete key } := by
  refine ⟨rfl, rfl, rfl, fun k => decide (k ≠ key), rfl, fun k hk => ?_⟩
  obtain rfl : k = key := by simpa using hk
  exact ⟨x, name, hkey, hx⟩

theorem Beside.keeps {keep : Key → Bool} {k : Key}
    (hkeep : ∀ k, keep k = false → ∃ x name, epochOf m.scope k = some (x, name) ∧ x ≠ e)
    (hk : ∀ x name, epochOf m.scope k = some (x, name) → x = e) : keep k = true := by
  by_contra hno
  obtain ⟨x, name, hx, hne⟩ := hkeep k (Bool.eq_false_of_not_eq_true hno)
  exact hne (hk x name hx)

theorem lookup_filter_of_keep {keep : Key → Bool} {k : Key} (hk : keep k = true)
    (objects : List (Key × Bytes)) :
    (objects.filter fun o => keep o.1).lookup k = objects.lookup k := by
  induction objects with
  | nil => rfl
  | cons o rest ih =>
    rw [List.filter_cons]
    by_cases ho : keep o.1 = true
    · rw [if_pos ho, lookup_cons, lookup_cons, ih]
    · rw [if_neg ho, ih, lookup_cons, if_neg]
      rintro rfl
      exact ho hk

theorem isPrefixOf_of_append {a b k : Key} (h : (a ++ b).isPrefixOf k = true) :
    a.isPrefixOf k = true := by
  obtain ⟨rest, rfl⟩ := List.isPrefixOf_iff_prefix.1 h
  rw [List.append_assoc]
  exact List.isPrefixOf_iff_prefix.2 (List.prefix_append _ _)

theorem isPrefixOf_append_self (a b : Key) : a.isPrefixOf (a ++ b) = true :=
  List.isPrefixOf_iff_prefix.2 (List.prefix_append _ _)

variable (h : Beside e m m')
include h

theorem Beside.get {k : Key} (hk : ∀ x name, epochOf m.scope k = some (x, name) → x = e) :
    m'.objects.get k = m.objects.get k := by
  obtain ⟨keep, hobj, hkeep⟩ := h.objects
  unfold Store.get
  rw [hobj, lookup_filter_of_keep (Beside.keeps hkeep hk)]

theorem Beside.get_of_dir {k : Key}
    (hk : (epochDir m.scope e).isPrefixOf k = true) : m'.objects.get k = m.objects.get k :=
  h.get fun _ _ => epoch_of_dir hk

theorem Beside.filter_keys {p : Key → Bool}
    (hp : ∀ k, p k = true → ∀ x name, epochOf m.scope k = some (x, name) → x = e) :
    (m'.objects.objects.map (·.1)).filter p = (m.objects.objects.map (·.1)).filter p := by
  obtain ⟨keep, hobj, hkeep⟩ := h.objects
  rw [hobj]
  induction m.objects.objects with
  | nil => rfl
  | cons o rest ih =>
    rw [List.filter_cons]
    split
    · rw [List.map_cons, List.map_cons, List.filter_cons, List.filter_cons, ih]
    · next hno =>
      rw [List.map_cons, List.filter_cons, if_neg, ih]
      intro hpo
      exact hno (Beside.keeps hkeep (hp o.1 hpo))

theorem Beside.list_dir :
    m'.objects.list (epochDir m.scope e) = m.objects.list (epochDir m.scope e) :=
  h.filter_keys fun _ hk _ _ => epoch_of_dir hk

theorem Beside.listL0Segments : m'.listL0Segments e = m.listL0Segments e := by
  unfold Manager.listL0Segments
  rw [h.scope, h.list_dir]

theorem Beside.readManifest (x : UInt64) : m'.readManifest x = m.readManifest x := by
  unfold Manager.readManifest
  rw [h.manifests]

theorem Beside.readIndex : m'.readIndex e = m.readIndex e := by
  unfold Manager.readIndex
  rw [h.scope, h.get_of_dir]
  unfold indexName l1Dir
  rw [List.append_assoc]
  exact isPrefixOf_append_self _ _

theorem Beside.skipPartialSnapshot (txid : UInt64) :
    m'.skipPartialSnapshot e txid = m.skipPartialSnapshot e txid := by
  have hstarted : m'.objects.get (snapshotStartedName m.scope e txid) =
      m.objects.get (snapshotStartedName m.scope e txid) :=
    h.get_of_dir (isPrefixOf_append_self _ _)
  have hdone : m'.objects.get (snapshotDoneName m.scope e txid) =
      m.objects.get (snapshotDoneName m.scope e txid) :=
    h.get_of_dir (isPrefixOf_append_self _ _)
  unfold Manager.skipPartialSnapshot Manager.snapshotStarted Manager.snapshotDone
  rw [h.scope, hstarted, hdone]

theorem Beside.provenObject (man : Manifest) (entry : PageIndexEntry)
    (key : Key) : m'.provenObject e man entry key = m.provenObject e man entry key := by
  unfold Manager.provenObject
  rw [h.scope]
  by_cases hdir : (l1Dir m.scope e).isPrefixOf key = false
  · rw [if_pos (.inl hdir), if_pos (.inl hdir)]
  · rw [h.get_of_dir]
    apply isPrefixOf_of_append
    simpa [l1Dir] using hdir

theorem Beside.provenObjects (man : Manifest) (keys : List Key) (entries : List PageIndexEntry) :
    m'.provenObjects e man entries keys = m.provenObjects e man entries keys := by
  induction keys generalizing entries with
  | nil => rfl
  | cons key rest ih =>
    unfold Manager.provenObjects
    split
    · rfl
    · rw [h.provenObject]
      simp only [ih]

theorem Beside.completeBaseline (man : Manifest) :
    m'.completeBaseline e man = m.completeBaseline e man := by
  unfold Manager.completeBaseline
  rw [h.readIndex]
  simp only [h.provenObjects]

theorem Beside.restoreObject (man : Option Manifest) :
    m'.restoreObject e man = m.restoreObject e man := by
  have hleft : m'.leftOut e man = m.leftOut e man := by
    funext key hd
    unfold Manager.leftOut
    simp only [h.skipPartialSnapshot, h.completeBaseline]
  have hpart : m'.restorePart e man = m.restorePart e man := by
    funext key st d
    unfold Manager.restorePart
    rw [hleft]
  funext st object
  unfold Manager.restoreObject
  rw [hpart]

/-- The objects of a manifest that is kept with its epoch. -/
def ManifestInside (m : Manager) (e : UInt64) : Prop :=
  ∀ k ∈ compactedKeys (m.readManifest e), (l1Dir m.scope e).isPrefixOf k = true

theorem Beside.restoreOnceKeys (hman : ManifestInside m e) {l0 : List Key}
    (hl0 : ∀ k ∈ l0, ∀ x name, epochOf m.scope k = some (x, name) → x = e) :
    m'.restoreOnceKeys e l0 = m.restoreOnceKeys e l0 := by
  have hget : ∀ keys : List Key,
      (∀ k ∈ keys, ∀ x name, epochOf m.scope k = some (x, name) → x = e) →
      keys.mapM m'.objects.get = keys.mapM m.objects.get := by
    intro keys hkeys
    induction keys with
    | nil => rfl
    | cons k rest ih =>
      rw [List.mapM_cons, List.mapM_cons, h.get (hkeys k List.mem_cons_self),
        ih fun k' hk' => hkeys k' (List.mem_cons_of_mem k hk')]
  unfold Manager.restoreOnceKeys Manager.fenced
  rw [h.fence, h.readManifest]
  dsimp only
  rw [hget, h.restoreObject]
  intro k hk x name hx
  rcases List.mem_append.1 hk with hk | hk
  · exact epoch_of_dir (isPrefixOf_of_append (hman k (List.mem_eraseDups.1 hk))) hx
  · exact hl0 k (List.mem_of_mem_filter hk) x name hx

theorem Beside.restore (hman : ManifestInside m e) : m'.restore e = m.restore e := by
  unfold Manager.restore
  rw [h.listL0Segments, h.restoreOnceKeys hman]
  intro k hk x name hx
  exact epoch_of_dir (List.mem_filter.1 (List.mem_of_mem_filter hk)).2 hx

end Beside

end Manager

end CellHive.Replica
