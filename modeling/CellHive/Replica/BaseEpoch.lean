import CellHive.Replica.Beside

/-!
# Restoring from the newest epoch

`RestoreChain` starts at the newest epoch that has a base. If that is the bound itself and
its segments form a chain by themselves, the result is what the epoch yields alone
(`restoreChain_of_base`).
-/

namespace CellHive.Replica.Manager

open Go Ltx Bucket

/-! ## Segments are told apart by key and position -/

def place (s : Segment) : Key × Nat := (s.key, s.part)

section Places

variable {m : Manager} {e : UInt64} {man : Option Manifest} {st st' : RestoreScan}

theorem restorePart_places {key : Key} {d : (Header × Bytes) × Nat}
    (h : m.restorePart e man key st d = .ok st') :
    st'.segs.map place = st.segs.map place ∨
      st'.segs.map place = st.segs.map place ++ [(key, d.2)] := by
  obtain ⟨out, -, h⟩ := bind_eq_ok.1 h
  split at h
  · cases h
    exact .inl rfl
  split at h
  · cases h
    exact .inl rfl
  split at h
  · cases h
    exact .inl rfl
  · cases h
    right
    rw [List.map_append]
    rfl

theorem foldlM_restorePart_places {key : Key} {ds : List ((Header × Bytes) × Nat)}
    (h : ds.foldlM (m.restorePart e man key) st = .ok st') :
    ∃ ns : List Nat, ns.Sublist (ds.map (·.2)) ∧
      st'.segs.map place = st.segs.map place ++ ns.map ((key, ·)) := by
  induction ds generalizing st with
  | nil =>
    cases h
    exact ⟨[], List.nil_sublist _, by simp⟩
  | cons d rest ih =>
    obtain ⟨st₁, hpart, hrest⟩ := bind_eq_ok.1 h
    obtain ⟨ns, hsub, hplaces⟩ := ih hrest
    rcases restorePart_places hpart with hsame | hmore
    · exact ⟨ns, hsub.cons _, by rw [hplaces, hsame]⟩
    · exact ⟨d.2 :: ns, hsub.cons_cons _, by rw [hplaces, hmore]; simp⟩

theorem restoreObject_places {object : Key × Bytes}
    (h : m.restoreObject e man st object = .ok st') :
    ∃ ns : List Nat, ns.Nodup ∧ st'.segs.map place = st.segs.map place ++ ns.map ((object.1, ·)) := by
  obtain ⟨parts, -, hfold⟩ := bind_eq_ok.1 h
  obtain ⟨ns, hsub, hplaces⟩ := foldlM_restorePart_places hfold
  refine ⟨ns, hsub.nodup ?_, hplaces⟩
  rw [List.zipIdx_map_snd]
  exact List.nodup_range'

theorem foldlM_restoreObject_places {objects : List (Key × Bytes)}
    (h : objects.foldlM (m.restoreObject e man) st = .ok st') (hkeys : (objects.map (·.1)).Nodup)
    (hst : (st.segs.map place).Nodup) (hnew : ∀ p ∈ st.segs.map place, p.1 ∉ objects.map (·.1)) :
    (st'.segs.map place).Nodup := by
  induction objects generalizing st with
  | nil =>
    cases h
    exact hst
  | cons o rest ih =>
    obtain ⟨st₁, hobj, hrest⟩ := bind_eq_ok.1 h
    obtain ⟨ns, hns, hplaces⟩ := restoreObject_places hobj
    rw [List.map_cons, List.nodup_cons] at hkeys
    apply ih hrest hkeys.2
    · rw [hplaces, List.nodup_append]
      refine ⟨hst, hns.map fun a b hab => (Prod.mk.inj hab).2, fun p hp q hq hpq => ?_⟩
      subst hpq
      obtain ⟨n, -, rfl⟩ := List.mem_map.1 hq
      exact hnew _ hp List.mem_cons_self
    · intro p hp
      rw [hplaces] at hp
      rcases List.mem_append.1 hp with hp | hp
      · exact fun hin => hnew p hp (List.mem_cons_of_mem _ hin)
      · obtain ⟨n, -, rfl⟩ := List.mem_map.1 hp
        exact hkeys.1

end Places

theorem addSegments_of_nodup {out segs : List Segment} (h : ((out ++ segs).map place).Nodup) :
    addSegments out segs = out ++ segs := by
  induction segs generalizing out with
  | nil => rw [List.append_nil]; rfl
  | cons s rest ih =>
    unfold addSegments at ih ⊢
    rw [List.foldl_cons, if_neg, ih]
    · simp
    · simpa using h
    · rw [List.any_eq_true]
      rintro ⟨o, ho, hsame⟩
      rw [List.map_append, List.nodup_append] at h
      refine h.2.2 (place o) (List.mem_map_of_mem ho) (place s) List.mem_cons_self ?_
      obtain ⟨hkey, hpart⟩ := of_decide_eq_true hsame
      exact Prod.ext hkey hpart

theorem nodup_eraseDups (l : List Key) : l.eraseDups.Nodup := by
  induction hn : l.length using Nat.strong_induction_on generalizing l with
  | _ n ih =>
    subst hn
    rcases l with _ | ⟨k, rest⟩
    · exact List.nodup_nil
    rw [List.eraseDups_cons, List.nodup_cons]
    refine ⟨by simp, ih _ ?_ _ rfl⟩
    exact Nat.lt_succ_of_le (List.length_filter_le _ _)

theorem map_fst_zip_sublist (keys : List Key) (raws : List Bytes) :
    ((keys.zip raws).map (·.1)).Sublist keys := by
  induction keys generalizing raws with
  | nil => simp
  | cons k rest ih =>
    cases raws with
    | nil => simp
    | cons raw raws => exact (ih raws).cons_cons k

theorem keys_nodup (b : Store) : (b.objects.map (·.1)).Nodup := by
  rw [List.Nodup, List.pairwise_map]
  exact b.ascending.imp fun h => ne_of_lt h

theorem restoreOnceKeys_places {m : Manager} {e : UInt64} {l0 : List Key} {segs : List Segment}
    (h : m.restoreOnceKeys e l0 = .ok segs) (hl0 : l0.Nodup)
    (hman : ∀ k ∈ compactedKeys (m.readManifest e), k ∉ l0) : (segs.map place).Nodup := by
  unfold restoreOnceKeys at h
  split at h
  · cases h
    exact List.nodup_nil
  obtain ⟨raws, hraws, h⟩ := bind_eq_ok.1 h
  obtain ⟨st, hst, h⟩ := bind_eq_ok.1 h
  rw [Except.ok.injEq] at h
  subst h
  have hperm := (List.perm_insertionSort segmentLE st.segs).map place
  rw [hperm.nodup_iff]
  apply foldlM_restoreObject_places hst
  · apply (map_fst_zip_sublist _ _).nodup
    rw [List.nodup_append]
    refine ⟨nodup_eraseDups _, hl0.filter _, fun k hk k' hk' heq => ?_⟩
    subst heq
    exact hman k (List.mem_eraseDups.1 hk) (List.mem_of_mem_filter hk')
  · exact List.nodup_nil
  · nofun

/-! ## The keys of an epoch -/

section Keys

variable {m m' : Manager} {e : UInt64}

def isChainL0 (scope : Key) (e : UInt64) (k : Key) : Bool :=
  (ltxDir scope).isPrefixOf k &&
    match epochOf scope k with
    | none => false
    | some (x, name) =>
      decide (x = e) && isSegmentKey k && decide (cutStart name ['L', '1', '/'] = none)

theorem inBound_self (e : UInt64) : inBound e e = true := by
  unfold inBound
  simp

theorem chainL0_eq_filter :
    m.chainL0 e e = (m.objects.objects.map (·.1)).filter (isChainL0 m.scope e) := by
  unfold chainL0 chainKeys Store.list
  induction m.objects.objects.map (·.1) with
  | nil => rfl
  | cons k rest ih =>
    rw [List.filter_cons, List.filter_cons]
    unfold isChainL0 at ih ⊢
    by_cases hp : (ltxDir m.scope).isPrefixOf k = true
    · rw [if_pos hp, hp, List.filterMap_cons]
      cases hk : epochOf m.scope k with
      | none =>
        exact ih
      | some x =>
        obtain ⟨x, name⟩ := x
        by_cases hx : x = e
        · subst hx
          by_cases hseg : isSegmentKey k = true
          · by_cases hl1 : cutStart name ['L', '1', '/'] = none
            all_goals simpa [inBound_self, hseg, hl1] using ih
          · simpa [hseg] using ih
        · by_cases hin : (inBound e x && isSegmentKey k) = true
          all_goals simpa [hin, hx] using ih
    · simpa [hp] using ih

theorem epoch_of_isChainL0 {scope k : Key} (h : isChainL0 scope e k = true) {x : UInt64} {name : Str}
    (hx : epochOf scope k = some (x, name)) : x = e := by
  unfold isChainL0 at h
  rw [hx, Bool.and_eq_true, Bool.and_eq_true, Bool.and_eq_true] at h
  exact of_decide_eq_true h.2.1.1

theorem Beside.chainL0 (h : Beside e m m') : m'.chainL0 e e = m.chainL0 e e := by
  rw [chainL0_eq_filter, chainL0_eq_filter, h.scope]
  exact h.filter_keys fun _ hk _ _ hx => epoch_of_isChainL0 hk hx

theorem Beside.hasBase (h : Beside e m m') : m'.hasBase e e = m.hasBase e e := by
  unfold Manager.hasBase
  rw [h.readManifest, h.chainL0]

def CanonicalKeys (m : Manager) : Prop :=
  ∀ k ∈ m.objects.objects.map (·.1), ∀ x name, epochOf m.scope k = some (x, name) →
    k = epochDir m.scope x ++ name

theorem isPrefixOf_append_left (a b k : Key) :
    (a ++ b).isPrefixOf (a ++ k) = b.isPrefixOf k := by
  induction a with
  | nil => rfl
  | cons c a ih =>
    rw [List.cons_append, List.cons_append, List.isPrefixOf_cons_cons, ih]
    simp

theorem cutStart_eq_none {s start : Str} : cutStart s start = none ↔ start.isPrefixOf s = false := by
  unfold cutStart
  split
  · next h => simp [h]
  · next h => exact ⟨fun _ => Bool.eq_false_of_not_eq_true h, fun _ => rfl⟩

theorem chainL0_eq_listL0Segments (h : CanonicalKeys m) : m.chainL0 e e = m.listL0Segments e := by
  rw [chainL0_eq_filter]
  unfold listL0Segments Store.list
  rw [List.filter_filter]
  apply List.filter_congr
  intro k hk
  by_cases hdir : (epochDir m.scope e).isPrefixOf k = true
  · obtain ⟨name, rfl⟩ := List.isPrefixOf_iff_prefix.1 hdir
    have hltx : (ltxDir m.scope).isPrefixOf (epochDir m.scope e ++ name) = true := by
      unfold epochDir
      rw [List.append_assoc]
      exact isPrefixOf_append_self _ _
    unfold isChainL0
    rw [epochOf_append, hltx]
    dsimp only
    unfold l1Dir
    rw [isPrefixOf_append_left]
    cases hl1 : (['L', '1', '/'] : Str).isPrefixOf name with
    | true =>
      have hcut : ¬ cutStart name ['L', '1', '/'] = none := fun hc => by
        rw [cutStart_eq_none, hl1] at hc
        cases hc
      simp [hcut]
    | false =>
      rw [cutStart_eq_none.2 hl1]
      simp
  · -- a key that is not in the directory is not one of the epoch
    have hno : isChainL0 m.scope e k = false := by
      by_contra hc
      rw [Bool.not_eq_false] at hc
      unfold isChainL0 at hc
      rw [Bool.and_eq_true] at hc
      cases hx : epochOf m.scope k with
      | none =>
        rw [hx] at hc
        cases hc.2
      | some x =>
        obtain ⟨x, name⟩ := x
        rw [hx] at hc
        rw [Bool.and_eq_true, Bool.and_eq_true] at hc
        obtain rfl : x = e := of_decide_eq_true hc.2.1.1
        rw [h k hk x name hx] at hdir
        exact hdir (isPrefixOf_append_self _ _)
    rw [hno]
    simp [hdir]

end Keys

/-! ## The start of the chain -/

section Start

variable {m : Manager} {e : UInt64}

theorem le_of_mem_chainEpochs {x : UInt64} (he : e ≠ 0) (hx : x ∈ m.chainEpochs e) : x ≤ e := by
  have hbound : inBound e x = true := by
    unfold chainEpochs at hx
    rw [List.mem_insertionSort, List.mem_dedup, List.mem_append] at hx
    rcases hx with hx | hx
    · obtain ⟨k, hk, rfl⟩ := List.mem_map.1 hx
      obtain ⟨key, -, hkey⟩ := List.mem_filterMap.1 hk
      split at hkey
      · cases hkey
      split at hkey
      · next hin =>
        cases hkey
        exact (Bool.and_eq_true_iff.1 hin).1
      · cases hkey
    · exact (List.mem_filter.1 hx).2
  exact (of_decide_eq_true hbound).resolve_left he

theorem mem_chainEpochs_of_hasBase (h : m.hasBase e e = true) : e ∈ m.chainEpochs e := by
  unfold chainEpochs
  rw [List.mem_insertionSort, List.mem_dedup, List.mem_append]
  unfold hasBase at h
  rw [Bool.or_eq_true] at h
  rcases h with h | h
  · right
    rw [List.mem_filter]
    refine ⟨?_, inBound_self e⟩
    by_contra hno
    have hnone : m.manifests.lookup e = none := by
      rw [List.lookup_eq_none_iff]
      intro p hp
      rw [bne_iff_ne]
      rintro rfl
      exact hno (List.mem_map_of_mem hp)
    unfold readManifest at h
    rw [hnone] at h
    cases h
  · left
    obtain ⟨k, hk, -⟩ := List.any_eq_true.1 h
    obtain ⟨x, hx, -⟩ := List.mem_map.1 hk
    obtain ⟨hmem, hxe⟩ := List.mem_filter.1 hx
    rw [List.mem_map]
    exact ⟨x, hmem, (of_decide_eq_true hxe).1⟩

theorem chainEpochs_eq_concat (he : e ≠ 0) (h : e ∈ m.chainEpochs e) :
    ∃ older, m.chainEpochs e = older ++ [e] := by
  have hsorted : (m.chainEpochs e).Pairwise (· ≤ ·) := List.pairwise_insertionSort _ _
  rcases List.eq_nil_or_concat' (m.chainEpochs e) with hnil | ⟨older, last, hsplit⟩
  · rw [hnil] at h
    cases h
  refine ⟨older, ?_⟩
  have hle : last ≤ e := le_of_mem_chainEpochs he (by rw [hsplit]; simp)
  have hge : e ≤ last := by
    rw [hsplit] at h hsorted
    rcases List.mem_append.1 h with h | h
    · exact (List.pairwise_append.1 hsorted).2.2 e h last (List.mem_singleton_self _)
    · rw [List.mem_singleton.1 h]
      exact UInt64.le_refl _
  rw [hsplit, UInt64.le_antisymm hle hge]

theorem startList_concat (bases : List Bool) :
    ∃ rest, startList (bases ++ [true]) = bases.length :: rest := by
  have hpositions : ((List.range (bases ++ [true]).length).filter fun i =>
      (bases ++ [true]).getD i false).reverse =
      bases.length :: ((List.range bases.length).filter fun i =>
        (bases ++ [true]).getD i false).reverse := by
    rw [List.length_append, List.length_singleton, List.range_succ]
    simp
  unfold startList
  dsimp only
  rw [hpositions]
  split <;> exact ⟨_, rfl⟩

theorem restoreChain_of_base {segs : List Segment} (he : e ≠ 0) (hbase : m.hasBase e e = true)
    (hsegs : m.restoreOnceKeys e (m.chainL0 e e) = .ok segs) (hplaces : (segs.map place).Nodup)
    (hchain : Restore.validateChain (segs.map (·.raw)) = .ok ()) : m.restoreChain e = .ok segs := by
  obtain ⟨older, hepochs⟩ := chainEpochs_eq_concat he (mem_chainEpochs_of_hasBase hbase)
  obtain ⟨rest, hstart⟩ := startList_concat (older.map (m.hasBase e))
  rw [List.length_map] at hstart
  have hout : m.chainSegments e [e] = .ok segs := by
    unfold chainSegments
    rw [List.foldlM_cons, hsegs, ok_bind, addSegments_of_nodup (by simpa using hplaces)]
    rfl
  unfold restoreChain
  dsimp only
  rw [hepochs, List.map_append, List.map_singleton, hbase, hstart]
  unfold restoreFrom
  rw [List.drop_left, hout, ok_bind, if_neg (by simp), hchain]

end Start

end CellHive.Replica.Manager
