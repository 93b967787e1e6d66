import CellHive.Fencing.Runs
import CellHive.Replica.NamesSpec

/-!
# The cut of an epoch

`MarkEpoch` lists the epoch, claims a fixed key with the bytes of its marker and then creates
the marker. The claim decides between two cuts; the listing, which comes first, keeps a marker
that was there before the claims existed in charge. Nothing is ever deleted by a run of
`MarkEpoch` calls, so a claim that was found once stays.
-/

namespace CellHive.Fencing

open Go Ltx Bucket Concurrent Replica Replica.Manager

/-! ## Keys of an epoch -/

section Keys

variable {scope : Key} {epoch epoch' cut cut' : UInt64}

def markerBytes (epoch cut : UInt64) : Bytes := encode (markerHeader epoch cut) []

def markerKey (scope : Key) (epoch cut : UInt64) : Key :=
  epochDir scope epoch ++ segmentName (markerHeader epoch cut)

def nameIn (scope : Key) (epoch : UInt64) (key : Key) : Str := key.drop (epochDir scope epoch).length

def markers (scope : Key) (epoch : UInt64) (keys : List Key) : List Key :=
  (keys.filter ((epochDir scope epoch).isPrefixOf ·)).filter fun key =>
    hasSuffix (nameIn scope epoch key) dotMarker

def cutOf (scope : Key) (epoch : UInt64) (key : Key) : Option Nat :=
  match parseSegmentSpan (nameIn scope epoch key) with
  | some span => if span.marker then some span.end else none
  | none => none

/-- A directory holds the keys of its own epoch only. -/
theorem epoch_of_prefix {name : Str}
    (h : (epochDir scope epoch).isPrefixOf (epochDir scope epoch' ++ name) = true) :
    epoch = epoch' := by
  obtain ⟨rest, hrest⟩ := List.isPrefixOf_iff_prefix.1 h
  unfold epochDir at hrest
  rw [List.append_assoc, List.append_assoc] at hrest
  have hdirs := List.append_cancel_left hrest
  rw [List.cons_append, List.cons_append] at hdirs
  have hnumbers := (List.cons.inj hdirs).2
  have hdigits : ∀ n : Nat, '/' ∉ formatUint n := not_mem_formatUint (by decide)
  have hcut := congrArg (cutAt '/') hnumbers
  rw [List.append_assoc, List.append_assoc, List.singleton_append, List.singleton_append,
    cutAt_append (hdigits _), cutAt_append (hdigits _)] at hcut
  have hsame := congrArg (fun p : Option (Str × Str) => (p.map (·.1)).getD []) hcut
  exact UInt64.toNat_inj.1 (formatUint_injective hsame)

theorem nameIn_append (name : Str) : nameIn scope epoch (epochDir scope epoch ++ name) = name :=
  List.drop_left

theorem markerBytes_injective (h : markerBytes epoch cut = markerBytes epoch cut') : cut = cut' := by
  have hdec := congrArg decode h
  unfold markerBytes at hdec
  rw [decode_encode _ _ (by simp), decode_encode _ _ (by simp)] at hdec
  have hheader := (Prod.mk.inj (Except.ok.inj hdec)).1
  exact congrArg Header.endTxID hheader

theorem parse_markerKey (h : ¬ cut + 1 = 0) :
    parseSegmentSpan (nameIn scope epoch (markerKey scope epoch cut)) =
      some { start := (cut + 1).toNat, «end» := cut.toNat, marker := true } := by
  have hlt : cut.toNat + 1 < 2 ^ 64 := by
    have hbound := cut.toNat_lt
    by_contra hge
    apply h
    apply UInt64.toNat_inj.1
    rw [UInt64.toNat_add]
    have hone : (1 : UInt64).toNat = 1 := rfl
    have hzero : (0 : UInt64).toNat = 0 := rfl
    omega
  have hnext : (cut + 1).toNat = cut.toNat + 1 := by
    exact Nat.mod_eq_of_lt hlt
  rw [markerKey, nameIn_append, parseSegmentSpan_segmentName]
  have hspan : headerSpan (markerHeader epoch cut) =
      some { start := (cut + 1).toNat, «end» := (cut + 1).toNat - 1, marker := true } := by
    have hkind : kindMarker ≠ kindSnapshot ∧ kindMarker ≠ kindLink := by decide
    unfold headerSpan markerHeader
    rw [if_neg hkind.1, if_neg hkind.2, if_pos rfl, if_neg h]
  rw [hspan, hnext]
  rfl

theorem cutOf_markerKey (h : ¬ cut + 1 = 0) :
    cutOf scope epoch (markerKey scope epoch cut) = some cut.toNat := by
  unfold cutOf
  rw [parse_markerKey h]
  rfl

theorem cutOf_of_agrees {key : Key} (hmarker : hasSuffix (nameIn scope epoch key) dotMarker = true)
    (h : otherMarker cut (nameIn scope epoch key) = false) :
    cutOf scope epoch key = some cut.toNat := by
  unfold otherMarker at h
  unfold cutOf
  rw [hmarker, Bool.true_and, Bool.not_eq_false'] at h
  cases hparse : parseSegmentSpan (nameIn scope epoch key) with
  | none =>
    rw [hparse] at h
    cases h
  | some span =>
    rw [hparse] at h
    dsimp only at h ⊢
    obtain ⟨hmark, hend⟩ := Bool.and_eq_true_iff.1 h
    rw [if_pos hmark, eq_of_beq hend]

end Keys

/-! ## The invariant -/

/-- What a run of `MarkEpoch` calls keeps, from the objects there were at first. -/
structure CutInv (scope : Key) (first now : Objects Key Bytes) : Prop where
  kept : ∀ key ∈ first.keys, key ∈ now.keys
  made : ∀ epoch, ∀ key ∈ markers scope epoch now.keys, key ∉ first.keys →
    ∃ cut tag, ¬ cut + 1 = 0 ∧ key = markerKey scope epoch cut ∧
      now.get (epochCutName scope epoch) = some (markerBytes epoch cut, tag) ∧
      ∀ old ∈ markers scope epoch first.keys, otherMarker cut (nameIn scope epoch old) = false

/-- How a step of a `MarkEpoch` moves the objects. -/
structure Marks (scope : Key) (first : Objects Key Bytes) (s s' : Traced ops World) : Prop where
  grows : ∀ key x, s.shared.objects.get key = some x → s'.shared.objects.get key = some x
  inv : CutInv scope first s.shared.objects → CutInv scope first s'.shared.objects

section Marks

variable {scope : Key} {first : Objects Key Bytes} {s s' : Traced ops World} {i m rounds : Nat}
  {kind : Bool} {epoch cut : UInt64}

theorem Marks.refl (s : Traced ops World) : Marks scope first s s := ⟨fun _ _ h => h, id⟩

theorem Marks.trans {s₁ s₂ s₃ : Traced ops World} (h : Marks scope first s₁ s₂)
    (h' : Marks scope first s₂ s₃) : Marks scope first s₁ s₃ :=
  ⟨fun key x hx => h'.grows key x (h.grows key x hx), h'.inv ∘ h.inv⟩

variable {c : Choice} {x w : World} {key : Key}

theorem marks_of_eq (h : s'.shared.objects = s.shared.objects) : Marks scope first s s' := by
  refine ⟨fun key y hy => ?_, fun hinv => ?_⟩
  · rw [h]
    exact hy
  · rw [h]
    exact hinv

theorem marks_of_still {op : Op} {r : Reply op} (hop : op.still = true)
    (h : exec op c s.shared = some (r, x)) : Marks scope first s (s.push i op r x) :=
  marks_of_eq ((exec_writes h).2.2 hop)

theorem spec_of_still {α : Type} {p : Prog ops α} (hp : p.Within fun op : Op => op.still = true) :
    Spec exec (Marks scope first) i p (fun _ s' => Marks scope first s s') s :=
  ((Spec.of_within hp fun _ hop _ _ _ _ hexec => marks_of_still hop hexec).reached Marks.refl
    fun _ _ _ => Marks.trans).mono fun _ _ h => h.1

/-! ## Reading the fence leaves the objects alone -/

theorem migrateFence_still {legacy : Legacy} :
    (migrateFence legacy).Within fun op : Op => op.still = true := by
  unfold migrateFence
  split
  · trivial
  refine .perform_bind rfl fun r => ?_
  cases r with
  | ok tag => trivial
  | error e =>
    dsimp only
    split
    · refine .perform_bind rfl fun r => ?_
      cases r with
      | ok | error => trivial
    · trivial

theorem readResourceFenceFresh_still :
    (readResourceFenceFresh kind).Within fun op : Op => op.still = true := by
  unfold readResourceFenceFresh
  split
  · trivial
  refine .perform_bind rfl fun r => ?_
  cases r with
  | ok y => trivial
  | error e =>
    dsimp only
    split
    · refine .perform_bind rfl fun r => ?_
      cases r with
      | ok legacy => exact migrateFence_still
      | error e =>
        dsimp only
        split
        · exact migrateFence_still
        · trivial
    · trivial

theorem readResourceFenceShared_still (refresh : Bool) (rounds : Nat) :
    (readResourceFenceShared kind m refresh rounds).Within fun op : Op => op.still = true := by
  induction rounds with
  | zero => trivial
  | succ rounds ih =>
    refine .perform_bind rfl fun r => ?_
    rcases r with e | found
    · trivial
    cases found with
    | hit => trivial
    | join flight =>
      refine .perform_bind rfl fun r => ?_
      rcases r with e | out
      · trivial
      dsimp only
      split
      · exact ih
      · trivial
    | own flight rev =>
      refine readResourceFenceFresh_still.bind fun res => ?_
      refine Prog.Within.bind ?_ fun _ => ?_
      · cases res with
        | ok read => exact ⟨rfl, fun _ => trivial⟩
        | error e => trivial
      · refine .perform_bind rfl fun r => ?_
        cases r with
        | true => trivial
        | false => exact ih

theorem readResourceFence_still :
    (readResourceFence kind m rounds).Within fun op : Op => op.still = true := by
  unfold readResourceFence
  split
  · trivial
  · exact readResourceFenceShared_still false rounds

/-! ## Creating an object -/

theorem exec_create {data : Bytes} {r : Reply (.create key data)}
    (h : exec (.create key data) c w = some (r, x)) : (∃ e, r = .error e ∧ x.objects = w.objects) ∨
      ∃ tag, r = .ok tag ∧ w.objects.create key data = some x.objects ∧ tag = w.objects.fresh := by
  unfold exec at h
  split at h
  · cases h
    exact .inl ⟨_, rfl, rfl⟩
  simp only [effect] at h
  split at h
  · cases h
    exact .inl ⟨_, rfl, rfl⟩
  · next o hcreate =>
    cases h
    exact .inr ⟨_, rfl, hcreate, rfl⟩

theorem mem_markers {keys : List Key} : key ∈ markers scope epoch keys ↔
    key ∈ keys ∧ (epochDir scope epoch).isPrefixOf key = true ∧
      hasSuffix (nameIn scope epoch key) dotMarker = true := by
  unfold markers
  rw [List.mem_filter, List.mem_filter, and_assoc]

/-- The marker has a cut that was claimed and that the markers there were at first have. -/
def Claimed (scope : Key) (first now : Objects Key Bytes) (epoch : UInt64) (key : Key) : Prop :=
  ∃ cut tag, ¬ cut + 1 = 0 ∧ key = markerKey scope epoch cut ∧
    now.get (epochCutName scope epoch) = some (markerBytes epoch cut, tag) ∧
    ∀ old ∈ markers scope epoch first.keys, otherMarker cut (nameIn scope epoch old) = false

/-- A create keeps the invariant if a marker it writes has been claimed. -/
theorem marks_of_create {data : Bytes} {r : Reply (.create key data)}
    (h : exec (.create key data) c s.shared = some (r, x))
    (hkey : ∀ epoch, key ∈ markers scope epoch [key] →
      Claimed scope first s.shared.objects epoch key) :
    Marks scope first s (s.push i (.create key data) r x) := by
  have hshared : (s.push i (.create key data) r x).shared = x := rfl
  rcases exec_create h with ⟨_, -, hsame⟩ | ⟨tag, -, hcreate, -⟩
  · exact marks_of_eq hsame
  obtain ⟨hfree, hkeys, hget⟩ := Objects.create_eq_some hcreate
  have hgrows : ∀ k y, s.shared.objects.get k = some y → x.objects.get k = some y := by
    intro k y hy
    rw [hget k, if_neg]
    · exact hy
    · rintro rfl
      rw [Objects.get_eq_none.2 hfree] at hy
      cases hy
  refine ⟨hgrows, fun hinv => ⟨fun k hk => ?_, fun epoch k hk hnew => ?_⟩⟩
  · rw [hshared, hkeys]
    exact List.mem_append_left _ (hinv.kept k hk)
  · rw [hshared, hkeys] at hk
    obtain ⟨hin, hdir, hsuffix⟩ := mem_markers.1 hk
    obtain ⟨cut, tag, hcut, hname, hclaim, hagree⟩ :
        Claimed scope first s.shared.objects epoch k := by
      rcases List.mem_append.1 hin with hold | hlast
      · exact hinv.made epoch k (mem_markers.2 ⟨hold, hdir, hsuffix⟩) hnew
      · obtain rfl := List.mem_singleton.1 hlast
        exact hkey epoch (mem_markers.2 ⟨hlast, hdir, hsuffix⟩)
    exact ⟨cut, tag, hcut, hname, hgrows _ _ hclaim, hagree⟩

theorem exec_get_ok {y : Bytes × Nat} (h : exec (.get key) c w = some (Except.ok y, x)) :
    x.objects = w.objects ∧ w.objects.get key = some y := by
  refine ⟨(exec_writes h).2.2 rfl, ?_⟩
  unfold exec at h
  split at h
  · cases h
  simp only [effect] at h
  split at h
  · cases h
  next found hfound =>
  cases h
  exact hfound

theorem exec_list_ok {start : Key} {keys : List Key}
    (h : exec (.list start) c w = some (Except.ok keys, x)) :
    keys = w.objects.keys.filter (start.isPrefixOf ·) := by
  unfold exec at h
  split at h
  · cases h
  cases h
  rfl

theorem claimKey_marks {seg : Bytes}
    (hkey : ∀ s₁ : Traced ops World, Marks scope first s s₁ → ∀ epoch,
      key ∈ markers scope epoch [key] → Claimed scope first s₁.shared.objects epoch key) :
    Spec exec (Marks scope first) i (claimKey epoch key seg)
      (fun res s' => Marks scope first s s' ∧
        (res = .ok () → ∃ tag, s'.shared.objects.get key = some (seg, tag))) s := by
  apply Spec.perform_bind
  intro s₁ hs _ c r x hexec
  have hstep : Marks scope first s₁ (s₁.push i (.create key seg) r x) :=
    marks_of_create hexec (hkey s₁ hs)
  refine ⟨hstep, ?_⟩
  cases r with
  | ok tag =>
    refine ⟨hs.trans hstep, fun _ => ?_⟩
    rcases exec_create hexec with ⟨e, herr, -⟩ | ⟨tag', -, hcreate, -⟩
    · cases herr
    · refine ⟨s₁.shared.objects.fresh, ((Objects.create_eq_some hcreate).2.2 key).trans ?_⟩
      exact if_pos rfl
  | error e =>
    dsimp only
    split
    · apply Spec.perform_bind
      intro s₂ hs₂ _ c' r' x' hexec'
      have hstep' : Marks scope first s₂ (s₂.push i (.get key) r' x') := marks_of_still rfl hexec'
      have hall := hs.trans (hstep.trans (hs₂.trans hstep'))
      refine ⟨hstep', ?_⟩
      rcases r' with e | y
      · exact ⟨hall, by rintro ⟨⟩⟩
      obtain ⟨raw, tag⟩ := y
      dsimp only
      split
      · exact ⟨hall, by rintro ⟨⟩⟩
      · next hraw =>
        obtain ⟨hsame, hget⟩ := exec_get_ok hexec'
        rw [not_not.1 hraw] at hget
        exact ⟨hall, fun _ => ⟨tag, (congrArg (Objects.get · key) hsame).trans hget⟩⟩
    · exact ⟨hs.trans hstep, by rintro ⟨⟩⟩

/-! ## A whole call -/

def Claims (scope : Key) (epoch cut : UInt64) (res : Res Unit) (s : Traced ops World) : Prop :=
  res = .ok () →
    ∃ tag, s.shared.objects.get (epochCutName scope epoch) = some (markerBytes epoch cut, tag)

theorem Claims.later {res : Res Unit} (h : Claims scope epoch cut res s)
    (hs : Marks scope first s s') : Claims scope epoch cut res s' := by
  intro hok
  obtain ⟨tag, htag⟩ := h hok
  exact ⟨tag, hs.grows _ _ htag⟩

theorem guarded_marks {write : Prog ops (Res Unit)}
    (hwrite : ∀ s₁, Marks scope first s s₁ →
      Spec exec (Marks scope first) i write (Claims scope epoch cut) s₁) :
    Spec exec (Marks scope first) i (guarded kind m epoch write) (Claims scope epoch cut) s := by
  apply Spec.perform_bind
  intro s₁ hs _ c r x hexec
  have hstep : Marks scope first s₁ (s₁.push i (.rlock m) r x) := marks_of_still rfl hexec
  refine ⟨hstep, ?_⟩
  refine Spec.seq (P := Claims scope epoch cut) ?_ fun out s₂ hout => ?_
  · refine Spec.seq (spec_of_still readResourceFenceFresh_still) fun res s₃ hs₃ => ?_
    rcases res with e | found
    · exact nofun
    dsimp only
    split
    · exact nofun
    · exact hwrite s₃ (hs.trans (hstep.trans hs₃))
  · apply Spec.perform_bind
    intro s₃ hs₃ _ c' r' x' hexec'
    have hstep' : Marks scope first s₃ (s₃.push i (.runlock m) r' x') := marks_of_still rfl hexec'
    exact ⟨hstep', hout.later (hs₃.trans hstep')⟩

theorem epochCutName_not_marker {epoch' : UInt64} :
    epochCutName scope epoch ∉ markers scope epoch' [epochCutName scope epoch] := by
  intro hin
  obtain ⟨-, hdir, hsuffix⟩ := mem_markers.1 hin
  obtain rfl := epoch_of_prefix hdir
  unfold epochCutName at hsuffix
  rw [nameIn_append] at hsuffix
  revert hsuffix
  decide

theorem markEpoch_marks (hinv : CutInv scope first s.shared.objects) :
    Spec exec (Marks scope first) i (markEpoch kind scope m rounds epoch cut)
      (Claims scope epoch cut) s := by
  unfold markEpoch
  split
  · exact nofun
  next hcut =>
  refine guarded_marks fun s₀ hs₀ => ?_
  have hinv₀ := hs₀.inv hinv
  apply Spec.perform_bind
  intro s₁ hs₁ _ c r x hexec
  have hstep : Marks scope first s₁ (s₁.push i (.list (epochDir scope epoch)) r x) :=
    marks_of_still rfl hexec
  refine ⟨hstep, ?_⟩
  rcases r with e | keys
  · exact nofun
  dsimp only
  split
  · exact nofun
  next hnone =>
  -- the markers there were at first are still listed, so they have this cut
  have hagree : ∀ old ∈ markers scope epoch first.keys,
      otherMarker cut (nameIn scope epoch old) = false := by
    intro old hold
    obtain ⟨hin, hdir, -⟩ := mem_markers.1 hold
    rw [Bool.not_eq_true, List.any_eq_false] at hnone
    have hlisted : old ∈ keys := by
      rw [exec_list_ok hexec]
      exact List.mem_filter.2 ⟨(hs₁.inv hinv₀).kept old hin, hdir⟩
    have hfalse := hnone _ (List.mem_map.2 ⟨old, hlisted, rfl⟩)
    exact Bool.not_eq_true _ ▸ hfalse
  refine Spec.seq (claimKey_marks fun _ _ _ hin => absurd hin epochCutName_not_marker) ?_
  intro res s₂ ⟨hs₂, hclaim⟩
  rcases res with e | _
  · exact nofun
  obtain ⟨tag, htag⟩ := hclaim rfl
  refine Spec.seq (claimKey_marks fun s₃ hs₃ epoch' hin => ?_) ?_
  · obtain rfl := epoch_of_prefix (mem_markers.1 hin).2.1
    exact ⟨cut, tag, hcut, rfl, hs₃.grows _ _ htag, hagree⟩
  intro res s₃ ⟨hs₃, _⟩
  rcases res with e | _
  · exact nofun
  refine Spec.seq (spec_of_still readResourceFence_still) fun res s₄ hs₄ => ?_
  have hheld : Claims scope epoch cut (.ok ()) s₄ :=
    fun _ => ⟨tag, hs₄.grows _ _ (hs₃.grows _ _ htag)⟩
  rcases res with e | found
  · exact nofun
  dsimp only
  split
  · exact nofun
  · exact hheld

/-- A marker that was not there at first fixes the cut of all others. -/
theorem CutInv.cutOf_eq {now : Objects Key Bytes} {key' : Key} (hinv : CutInv scope first now)
    (hkey : key ∈ markers scope epoch now.keys) (hnew : key ∉ first.keys)
    (hkey' : key' ∈ markers scope epoch now.keys) :
    cutOf scope epoch key' = cutOf scope epoch key := by
  obtain ⟨cut, tag, hcut, rfl, hclaim, hagree⟩ := hinv.made epoch key hkey hnew
  rw [cutOf_markerKey hcut]
  obtain ⟨-, hdir, hsuffix⟩ := mem_markers.1 hkey'
  by_cases hold : key' ∈ first.keys
  · exact cutOf_of_agrees hsuffix (hagree key' (mem_markers.2 ⟨hold, hdir, hsuffix⟩))
  · obtain ⟨cut', tag', hcut', rfl, hclaim', -⟩ := hinv.made epoch key' hkey' hold
    rw [hclaim] at hclaim'
    rw [markerBytes_injective (Prod.mk.inj (Option.some.inj hclaim')).1, cutOf_markerKey hcut']

end Marks

/-! ## Runs -/

/-- One call of `MarkEpoch` on a scope. -/
structure Mark where
  m : Nat
  rounds : Nat
  epoch : UInt64
  cut : UInt64

def Mark.call (mark : Mark) : Call := .markEpoch mark.m mark.rounds mark.epoch mark.cut

/-- Any two calls that succeed for one epoch have the same cut, and unless more than one marker
was there at first, all markers that are listed at any moment have the same cut. -/
theorem epoch_cuts_agree {kind : Bool} {scope : Key} {w : World} {marks : List Mark}
    {schedule : List (Nat × Choice)} {pool : Pool ops World (Res Unit)}
    (hrun : (start kind scope w (marks.map Mark.call)).run exec schedule = some pool) :
    (∀ (i j : Nat) (a b : Mark), marks[i]? = some a → marks[j]? = some b → a.epoch = b.epoch →
      pool.progs[i]? = some (.ret (.ok ())) → pool.progs[j]? = some (.ret (.ok ())) →
      a.cut = b.cut) ∧
    ∀ epoch, (markers scope epoch w.objects.keys).length ≤ 1 →
      ∀ key ∈ markers scope epoch pool.state.shared.objects.keys,
      ∀ key' ∈ markers scope epoch pool.state.shared.objects.keys,
        cutOf scope epoch key = cutOf scope epoch key' := by
  have hstart : CutInv scope w.objects (start kind scope w (marks.map Mark.call)).state.shared.objects := by
    refine ⟨fun key hkey => hkey, fun epoch key hkey hnew => ?_⟩
    exact absurd (mem_markers.1 hkey).1 hnew
  have hspecs := Pool.run_specs (R := Marks scope w.objects)
    (Q := fun i res s => ∀ a, marks[i]? = some a → Claims scope a.epoch a.cut res s)
    (fun _ _ _ => Marks.trans) Marks.refl
    (fun i res s s' hq hs _ a ha => (hq a ha).later hs) ?_ hrun
  · obtain ⟨hmoved, hall⟩ := hspecs
    have hinv := hmoved.inv hstart
    refine ⟨fun i j a b ha hb hepoch hi hj => ?_, fun epoch hone key hkey key' hkey' => ?_⟩
    · obtain ⟨tag, hget⟩ := hall i _ hi a ha rfl
      obtain ⟨tag', hget'⟩ := hall j _ hj b hb rfl
      rw [hepoch, hget'] at hget
      have hbytes := (Prod.mk.inj (Option.some.inj hget)).1
      exact (markerBytes_injective hbytes).symm
    · by_cases hold : key ∈ w.objects.keys
      · by_cases hold' : key' ∈ w.objects.keys
        · have hin := mem_markers.2 ⟨hold, (mem_markers.1 hkey).2⟩
          have hin' := mem_markers.2 ⟨hold', (mem_markers.1 hkey').2⟩
          obtain ⟨only, honly⟩ : ∃ k, markers scope epoch w.objects.keys = [k] :=
            List.length_eq_one_iff.1 (Nat.le_antisymm hone (List.length_pos_of_mem hin))
          rw [honly, List.mem_singleton] at hin hin'
          rw [hin, hin']
        · exact hinv.cutOf_eq hkey' hold' hkey
      · exact (hinv.cutOf_eq hkey hold hkey').symm
  · intro i p hp
    obtain ⟨call, hcall, rfl⟩ := start_progs hp
    rw [List.getElem?_map] at hcall
    obtain ⟨mark, hmark, rfl⟩ := Option.map_eq_some_iff.1 hcall
    refine (markEpoch_marks hstart).mono fun res s h a ha => ?_
    rw [hmark] at ha
    cases ha
    exact h

/-- Two managers mark the same epoch in turns. -/
theorem epoch_cuts_agree_twice : ∃ pool,
    (start true [] newWorld ([⟨0, 1, 2, 7⟩, ⟨1, 1, 2, 7⟩].map Mark.call)).run exec
        (turns 0 6 ++ turns 1 11 ++ turns 0 7) = some pool ∧
      pool.progs[0]? = some (.ret (.ok ())) ∧ pool.progs[1]? = some (.ret (.ok ())) ∧
      ∀ key ∈ markers [] 2 pool.state.shared.objects.keys,
      ∀ key' ∈ markers [] 2 pool.state.shared.objects.keys, cutOf [] 2 key = cutOf [] 2 key' := by
  refine ⟨_, rfl, rfl, rfl, ?_⟩
  exact (@epoch_cuts_agree true [] newWorld [⟨0, 1, 2, 7⟩, ⟨1, 1, 2, 7⟩]
    (turns 0 6 ++ turns 1 11 ++ turns 0 7) _ rfl).2 2 (by decide)

end CellHive.Fencing
