import CellHive.Peer.SessionSafety

/-!
# Runs of a session

Every step of a session keeps the acknowledged frames in the surviving part of the log, as
long as a seal only counts records that are already on disk. The sealed log is then read
whole, from the start or from where the last page ended.
-/

namespace CellHive.Peer

open Go Ltx

def SessionRun.fragments (r : SessionRun) : List SessionFragment :=
  r.acked.map fun p => p.2.fragment p.1

/-- A position between two records of the log. -/
def Between (frames : List SessionAppend) (pos : TailPosition) (i : Nat) : Prop :=
  i ≤ frames.length ∧ pos = ⟨UInt64.ofNat i, (encodeAll 0 (frames.take i)).length⟩

/-- What holds of a run of which `count` frames were submitted. -/
structure Inv (r : SessionRun) (v : View) (count : Nat) : Prop where
  files : Matches v r.state
  count : v.all.length ≤ count
  acked : r.fragments.Sublist (fragmentsFrom 0 (v.frames.take v.durable))
  -- the marker counts every frame, and all of them survive
  marked : ∀ n, r.state.marker = some n → r.acked ≠ [] →
    n = UInt64.ofNat v.frames.length ∧ v.durable = v.frames.length
  reading : r.state.tail ≠ none → r.state.marker ≠ none
  cursor : ∀ c, r.state.tail = some c → r.acked ≠ [] → ∃ i, Between v.frames c.position i
  sealed : r.sealed = true → r.state.marker ≠ none ∧ r.state.markerEntered = true
  late : r.late = false

variable {r : SessionRun} {v : View} {count : Nat} {st : SessionState}

theorem Inv.start : Inv {} ⟨[], [], 0, 0⟩ 0 := by
  refine ⟨⟨?_, rfl, le_rfl, ?_, le_rfl, le_rfl, ?_, ?_⟩, le_rfl, List.Sublist.refl _, ?_, ?_, ?_,
    ?_, rfl⟩
  · exact fun a ha => absurd ha List.not_mem_nil
  all_goals intros; contradiction

theorem Inv.mono {m n : Nat} (h : Inv r v m) (hle : m ≤ n) : Inv r v n :=
  { h with count := h.count.trans hle }

theorem durable_pos {frames : List SessionAppend} {n : Nat}
    (h : r.fragments.Sublist (fragmentsFrom 0 (frames.take n))) (hacked : r.acked ≠ []) : 0 < n := by
  rcases Nat.eq_zero_or_pos n with rfl | hpos
  · have hnil : r.fragments = [] := List.sublist_nil.1 h
    exact absurd (List.map_eq_nil_iff.1 hnil) hacked
  · exact hpos

section Steps

variable (h : Inv r v count)
include h

theorem Inv.touched (hfiles : Matches v st)
    (hmarker : st.marker = r.state.marker) (htail : st.tail = r.state.tail ∨ st.tail = none)
    (hentered : r.state.markerEntered = true → st.markerEntered = true) :
    Inv { r with state := st } v count := by
  refine ⟨hfiles, h.count, h.acked, ?_, ?_, ?_, ?_, h.late⟩
  · intro n hn
    exact h.marked n (hmarker.symm.trans hn)
  · intro ht
    rcases htail with htail | htail
    · rw [hmarker]
      exact h.reading (htail ▸ ht)
    · exact absurd htail ht
  · intro c hc
    rcases htail with htail | htail
    · exact h.cursor c (htail.symm.trans hc)
    · rw [htail] at hc
      cases hc
  · intro hs
    rw [hmarker]
    exact (h.sealed hs).imp_right hentered

/-- A step before any marker, which then leaves no marker either. -/
theorem Inv.unsealed {v' : View} {n : Nat} (hnone : r.state.marker = none)
    (hfiles : Matches v' st) (hcount : v'.all.length ≤ n)
    (acked : List (UInt64 × SessionAppend))
    (hacked : (acked.map fun p => p.2.fragment p.1).Sublist
      (fragmentsFrom 0 (v'.frames.take v'.durable)))
    (hmarker : st.marker = none) (htail : st.tail = r.state.tail) :
    Inv ⟨st, acked, r.sealed, r.late⟩ v' n ∧ r.sealed = false := by
  have hopen : r.state.tail = none := by
    by_contra ht
    exact h.reading ht hnone
  have hsealed : r.sealed = false := by
    by_contra hs
    exact (h.sealed (by simpa using hs)).1 hnone
  refine ⟨⟨hfiles, hcount, hacked, ?_, ?_, ?_, ?_, h.late⟩, hsealed⟩
  · intro m hm
    rw [hmarker] at hm
    cases hm
  · intro ht
    exact absurd (htail.trans hopen) ht
  · intro c hc
    rw [htail, hopen] at hc
    cases hc
  · intro hs
    rw [hsealed] at hs
    cases hs

theorem Inv.load (hnone : r.state.marker = none) :
    ∃ st v', r.state.load = .ok st ∧ st.loaded = true ∧ st.marker = none ∧
      st.flushed = r.state.flushed ∧ Inv { r with state := st } v' count := by
  obtain ⟨st, v', hload, hfiles, hloaded, hall, hdurable, htake, hst⟩ := h.files.load
  have hmarker : st.marker = none := by
    rw [hst]
    exact hnone
  refine ⟨st, v', hload, hloaded, hmarker, by rw [hst],
    (h.unsealed hnone hfiles (hall ▸ h.count) r.acked ?_ hmarker (by rw [hst])).1⟩
  rw [hdurable, htake]
  exact h.acked

/-! ## Appends -/

structure Short (a : SessionAppend) : Prop where
  scope : a.scope.length < 2 ^ 16
  frames : ∀ s ∈ a.segments, s.length < 2 ^ 32
  record : 8 + (encodeSessionFragment a).length < 2 ^ 32

omit h in
theorem segments_of_checkGroup {appends : List SessionAppend} (hcheck : checkGroup appends = .ok ())
    {a : SessionAppend} (ha : a ∈ appends) : a.segments ≠ [] := by
  unfold checkGroup at hcheck
  split at hcheck
  · cases hcheck
  next hne =>
  clear hne
  induction appends with
  | nil => cases ha
  | cons b rest ih =>
    rw [List.forM] at hcheck
    obtain ⟨_, hb, hrest⟩ := bind_eq_ok.1 hcheck
    rcases List.mem_cons.1 ha with rfl | ha
    · intro hnil
      rw [if_pos hnil] at hb
      cases hb
    · exact ih ha hrest

theorem Inv.append {fault : SessionFault} {appends : List SessionAppend}
    (hshort : ∀ a ∈ appends, Short a) :
    ∃ v', Inv (r.step (.append fault appends)) v' (count + appends.length) := by
  have hsame : Inv r v (count + appends.length) := h.mono (Nat.le_add_right _ _)
  dsimp only [SessionRun.step]
  unfold appendSessionGroup
  cases hcheck : checkGroup appends with
  | error e => exact ⟨v, hsame⟩
  | ok _ =>
  have hfits : ∀ a ∈ appends, Fits a := fun a ha =>
    ⟨(hshort a ha).scope, segments_of_checkGroup hcheck ha, (hshort a ha).frames,
      (hshort a ha).record⟩
  by_cases hmarker : r.state.marker.isSome = true
  · rw [if_pos hmarker]
    exact ⟨v, hsame⟩
  rw [if_neg hmarker]
  by_cases hdir : fault = .directory
  · rw [if_pos hdir]
    exact ⟨v, hsame⟩
  rw [if_neg hdir]
  have hnone : r.state.marker = none := by simpa using hmarker
  obtain ⟨st, v₁, hload, hloaded, hstmarker, -, h₁⟩ := h.load hnone
  rw [hload]
  obtain ⟨hsmarker, hstail, -⟩ := writeGroup_sameSeal fault appends st
  have hcount := h₁.count
  rw [View.all, List.length_append] at hcount
  cases hw : (writeGroup fault appends st).1 with
  | error e =>
    obtain ⟨v₂, hfiles₂, hframes, hdurable₂, hextra⟩ := writeGroup_error h₁.files hloaded hfits hw
    refine ⟨v₂, (h₁.unsealed hstmarker hfiles₂ ?_ r.acked ?_ (hsmarker.trans hstmarker) hstail).1⟩
    · rcases hextra with hextra | hextra
      all_goals
        rw [View.all, hframes, hextra, List.length_append]
        omega
    · rw [hframes, hdurable₂]
      exact h₁.acked
  | ok seqs =>
    obtain ⟨hzip, hfiles₂⟩ := writeGroup_ok h₁.files hloaded hfits hw
    have hall₂ : r.fragments ++ fragmentsFrom v₁.frames.length appends =
        (r.acked ++ seqs.zip appends).map fun p => p.2.fragment p.1 := by
      rw [List.map_append, hzip, map_numbered, SessionRun.fragments]
    have hgrown := h₁.unsealed hstmarker hfiles₂ (n := count + appends.length) ?_
      (r.acked ++ seqs.zip appends) ?_ (hsmarker.trans hstmarker) hstail
    · obtain ⟨hinv, hsealed⟩ := hgrown
      refine ⟨_, { hinv with late := ?_ }⟩
      rw [hsealed, Bool.or_false]
      exact h.late
    · rw [View.all, List.append_nil, List.length_append]
      omega
    · rw [← hall₂, List.take_length, fragmentsFrom_append, Nat.zero_add]
      exact (h₁.acked.trans (fragmentsFrom_take 0 _ _)).append (List.Sublist.refl _)

/-! ## The other calls -/

theorem Inv.prepare (fault : SessionFault) : Inv (r.step (.prepare fault)) v count := by
  dsimp only [SessionRun.step]
  unfold Peer.prepare
  by_cases hmarker : r.state.marker.isSome = true
  · rw [if_pos hmarker]
    exact h
  rw [if_neg hmarker]
  have hlen : min r.state.flushed (encodeAll 0 v.frames).length ≤ r.state.bytes.length :=
    (min_le_right _ _).trans h.files.length_le
  cases fault with
  | directory | openFile => exact h
  | sync =>
    exact h.touched (h.files.touched rfl ⟨rfl, rfl, rfl, rfl⟩ (min_le_left _ _) id) rfl
      (.inl rfl) id
  | close | syncDir =>
    exact h.touched (h.files.touched rfl ⟨rfl, rfl, rfl, rfl⟩ hlen id) rfl (.inl rfl) id
  | _ =>
    exact h.touched (h.files.touched rfl ⟨rfl, rfl, rfl, rfl⟩ hlen fun _ => rfl) rfl (.inl rfl)
      fun _ => rfl

/-- A seal may count what a scan of the log finds only if that is on disk. -/
def SealReady (st : SessionState) : Prop :=
  st.marker = none → ∀ st', st.load = .ok st' → st'.size ≤ st.flushed

omit h in
theorem Matches.allDurable (hfiles : Matches v st)
    (hflushed : (encodeAll 0 v.frames).length ≤ st.flushed) (hentered : st.entered = true) :
    Matches { v with durable := v.frames.length } st := by
  refine { hfiles with durable := le_rfl, flushed := ?_, entered := fun _ => hentered }
  rw [List.take_length]
  exact hflushed

theorem Inv.marks (hnone : r.state.marker = none) (hloaded : r.state.loaded = true)
    (hsize : r.state.size ≤ r.state.flushed) (hfiles : ∀ u, Matches u r.state → Matches u st)
    (hmarker : st.marker = some r.state.last) (htail : st.tail = r.state.tail) (done : Bool)
    (hdone : done = true → st.markerEntered = true) :
    ∃ u, Inv ⟨st, r.acked, done, r.late⟩ u count := by
  obtain ⟨hlast, hlen⟩ := h.files.known hloaded
  have hopen : st.tail = none := by
    rw [htail]
    by_contra ht
    exact h.reading ht hnone
  have hcursor : ∀ c, st.tail ≠ some c := by
    rw [hopen]
    nofun
  have hsome : st.marker ≠ none := by
    rw [hmarker]
    exact Option.some_ne_none _
  by_cases hempty : r.acked = []
  · exact ⟨v, hfiles v h.files, h.count, h.acked, fun n _ hne => absurd hempty hne,
      fun ht => absurd hopen ht, fun c hc => absurd hc (hcursor c),
      fun hs => ⟨hsome, hdone hs⟩, h.late⟩
  · have hentered := h.files.entered (durable_pos h.acked hempty)
    have hall := h.files.allDurable (hlen ▸ hsize) hentered
    refine ⟨_, hfiles _ hall, h.count, ?_, ?_, fun ht => absurd hopen ht,
      fun c hc => absurd hc (hcursor c), fun hs => ⟨hsome, hdone hs⟩, h.late⟩
    · rw [List.take_length]
      exact h.acked.trans (fragmentsFrom_take 0 _ _)
    · intro n hn _
      rw [hmarker] at hn
      cases hn
      exact ⟨hlast, rfl⟩

theorem Inv.sealLog (fault : SessionFault) (hready : SealReady r.state) :
    ∃ v', Inv (r.step (.sealLog fault)) v' count := by
  dsimp only [SessionRun.step]
  unfold sealSession
  by_cases hdir : fault = .directory
  · rw [if_pos hdir]
    exact ⟨v, by simpa [Except.isOk, Except.toBool] using h⟩
  rw [if_neg hdir]
  cases hmarker : r.state.marker with
  | some final =>
    dsimp only
    by_cases hsync : fault = .syncDir
    · rw [if_pos hsync]
      exact ⟨v, by simpa [Except.isOk, Except.toBool] using h⟩
    rw [if_neg hsync]
    have hfiles : Matches v r.state.enter :=
      h.files.touched rfl ⟨rfl, rfl, rfl, rfl⟩ (min_le_left _ _) fun _ => rfl
    refine ⟨v, { h.touched hfiles rfl (.inl rfl) fun _ => rfl with sealed := ?_ }⟩
    intro _
    refine ⟨?_, rfl⟩
    show r.state.marker ≠ none
    rw [hmarker]
    exact Option.some_ne_none _
  | none =>
    obtain ⟨st, v₁, hload, hloaded, hstmarker, hflushed, h₁⟩ := h.load hmarker
    have hsize := hready hmarker st hload
    rw [hload]
    rw [← hflushed] at hsize
    cases fault with
    | none =>
      refine h₁.marks hstmarker hloaded hsize ?_ ?_ ?_ _ ?_
      · exact fun u hu => hu.touched rfl ⟨rfl, rfl, rfl, rfl⟩ (min_le_left _ _) fun _ => rfl
      all_goals intros; rfl
    | syncDir =>
      have hopen := (h.unsealed hmarker h.files h.count r.acked h.acked hmarker rfl).2
      refine h₁.marks hstmarker hloaded hsize ?_ ?_ ?_ _ ?_
      · exact fun u hu => hu.touched rfl ⟨rfl, rfl, rfl, rfl⟩ (min_le_left _ _) id
      · rfl
      · rfl
      · simp [Except.isOk, Except.toBool, hopen]
    | _ => exact ⟨v₁, by simpa [Except.isOk, Except.toBool] using h₁⟩

end Steps

/-! ## Reading -/

theorem wanted_before (rq : TailRequest) (k : Nat) (xs : List SessionAppend)
    (h : k + xs.length ≤ rq.after.toNat) : rq.wanted (fragmentsFrom k xs) = [] := by
  induction xs generalizing k with
  | nil => rfl
  | cons a xs ih =>
    rw [List.length_cons] at h
    have hbound := rq.after.toNat_lt
    have hnot : ¬ rq.after < UInt64.ofNat (k + 1) := by
      rw [UInt64.lt_iff_toNat_lt, UInt64.toNat_ofNat']
      omega
    unfold TailRequest.wanted at ih ⊢
    rw [fragmentsFrom, List.filter_cons_of_neg (by simpa [SessionAppend.fragment] using hnot)]
    exact ih (k + 1) (by omega)

theorem encodeAll_split (frames : List SessionAppend) {i : Nat} (hi : i ≤ frames.length) :
    encodeAll 0 frames = encodeAll 0 (frames.take i) ++ encodeAll i (frames.drop i) := by
  have happend := encodeAll_append 0 (frames.take i) (frames.drop i)
  rwa [List.take_append_drop, List.length_take, Nat.min_eq_left hi, Nat.zero_add] at happend

theorem wanted_from {rq : TailRequest} {frames : List SessionAppend} {i : Nat}
    (hbound : frames.length < 2 ^ 64) (hi : i ≤ frames.length)
    (hafter : i = 0 ∨ rq.after = UInt64.ofNat i) :
    rq.wanted (fragmentsFrom 0 frames) = rq.wanted (fragmentsFrom i (frames.drop i)) := by
  rcases hafter with rfl | hafter
  · rfl
  have hsplit := fragmentsFrom_append 0 (frames.take i) (frames.drop i)
  have hlen : (frames.take i).length = i := by rw [List.length_take, Nat.min_eq_left hi]
  have hbefore := wanted_before rq 0 (frames.take i) (by
    rw [hlen, hafter, UInt64.toNat_ofNat', Nat.mod_eq_of_lt (by omega), Nat.zero_add])
  rw [List.take_append_drop, hlen, Nat.zero_add] at hsplit
  rw [hsplit]
  unfold TailRequest.wanted at hbefore ⊢
  rw [List.filter_append, hbefore, List.nil_append]

theorem tailStart_between (rq : TailRequest) (final : UInt64)
    (hcursor : ∀ c, st.tail = some c → ∃ i, Between v.frames c.position i) :
    ∃ i, Between v.frames (tailStart rq final st) i ∧ (i = 0 ∨ rq.after = UInt64.ofNat i) := by
  have hzero : Between v.frames {} 0 := ⟨Nat.zero_le _, rfl⟩
  unfold tailStart
  rcases htail : st.tail with _ | c
  · exact ⟨0, hzero, .inl rfl⟩
  dsimp only
  split
  next hsame =>
    obtain ⟨i, hi⟩ := hcursor c htail
    refine ⟨i, hi, .inr ?_⟩
    rw [← hsame.1, hi.2]
  · exact ⟨0, hzero, .inl rfl⟩

theorem tailPage_spec (rq : TailRequest) (h : Matches v st) (hbound : v.frames.length < 2 ^ 64)
    (hsome : v.frames ≠ []) (hmarker : st.marker = some (UInt64.ofNat v.frames.length))
    (hcursor : ∀ c, st.tail = some c → ∃ i, Between v.frames c.position i) :
    ∃ page cursor i, tailPage rq st = (.ok page, { st with tail := some cursor }) ∧
      page <+: rq.wanted (fragmentsFrom 0 v.frames) ∧
      (rq.Unlimited → page = rq.wanted (fragmentsFrom 0 v.frames)) ∧
      Between v.frames cursor.position i := by
  obtain ⟨i, ⟨hi, hstart⟩, hafter⟩ :=
    tailStart_between rq (UInt64.ofNat v.frames.length) hcursor
  obtain ⟨junk, hbytes⟩ : ∃ junk, st.bytes = encodeAll 0 v.frames ++ junk := by
    refine ⟨st.bytes.drop (encodeAll 0 v.frames).length, ?_⟩
    have hsplit := List.take_append_drop (encodeAll 0 v.frames).length st.bytes
    rw [h.take_bytes] at hsplit
    exact hsplit.symm
  have hlog : st.log = some st.bytes := by
    cases hlog : st.log with
    | some data => rw [SessionState.bytes, hlog, Option.getD_some]
    | none =>
      obtain ⟨a, rest, hcons⟩ := List.exists_cons_of_ne_nil hsome
      have hlen := h.length_le
      rw [SessionState.bytes, hlog, Option.getD_none, hcons, encodeAll, List.length_append,
        length_encodeSessionRecord, List.length_nil] at hlen
      omega
  have hdrop : st.bytes.drop (encodeAll 0 (v.frames.take i)).length =
      encodeAll i (v.frames.drop i) ++ junk := by
    rw [hbytes, encodeAll_split v.frames hi, List.append_assoc, List.drop_left]
  have hlen : i + (v.frames.drop i).length = v.frames.length := by
    rw [List.length_drop]
    omega
  have hfits : ∀ a ∈ v.frames.drop i, Fits a := fun a ha =>
    h.fits a (List.mem_append_left _ (List.mem_of_mem_drop ha))
  obtain ⟨page, after, hpage, hread⟩ := tailFrom_spec rq hfits junk (k := i)
    (by omega) (encodeAll 0 (v.frames.take i)).length
    ⟨UInt64.ofNat i, (encodeAll 0 (v.frames.take i)).length⟩ [] 0
  rw [hlen, List.nil_append] at hread
  have hwanted := wanted_from hbound hi hafter
  have hposition : ∃ j, Between v.frames after j := by
    rcases hpage.position with rfl | ⟨j, hj, rfl⟩
    · exact ⟨i, hi, rfl⟩
    refine ⟨i + j, by omega, ?_⟩
    have hsplit := encodeAll_split (v.frames.take (i + j)) (i := i) (by
      rw [List.length_take]
      omega)
    rw [List.take_take, Nat.min_eq_left (Nat.le_add_right i j), List.drop_take,
      Nat.add_sub_cancel_left] at hsplit
    rw [hsplit, List.length_append]
  obtain ⟨j, hj⟩ := hposition
  refine ⟨page, ⟨after, UInt64.ofNat v.frames.length, st.bytes.length, st.version⟩, j, ?_,
    hwanted ▸ hpage.start, fun hu => hwanted ▸ hpage.all hu, hj⟩
  unfold tailPage
  rw [hmarker, hlog]
  dsimp only
  rw [hstart]
  rw [hdrop, hread]

theorem tailPage_state (rq : TailRequest) (st : SessionState) :
    ∃ tail, (tailPage rq st).2 = { st with tail } ∧ (tail = st.tail ∨ st.marker ≠ none) := by
  unfold tailPage
  split
  next final data hmarker hlog =>
    have hsome : st.marker ≠ none := by
      rw [hmarker]
      exact Option.some_ne_none _
    dsimp only
    split
    · exact ⟨st.tail, rfl, .inl rfl⟩
    · exact ⟨_, rfl, .inr hsome⟩
  · exact ⟨st.tail, rfl, .inl rfl⟩

/-- The view after a crash that leaves `reach` bytes. -/
def View.crashed (v : View) (reach : Nat) : View :=
  ⟨v.frames.take v.durable, v.frames.drop v.durable ++ v.extra, reach, v.durable⟩

theorem View.crashed_all (v : View) (reach : Nat) : (v.crashed reach).all = v.all := by
  rw [View.all, View.crashed, ← List.append_assoc, List.take_append_drop, View.all]

section Crash

variable (h : Matches v st) (left : Leftover)
include h

theorem Matches.crashed_frames (reach : Nat) :
    (v.crashed reach).frames.take v.durable = v.frames.take v.durable ∧
      (v.crashed reach).frames.length = v.durable := by
  constructor
  · rw [View.crashed, List.take_take, Nat.min_self]
  · rw [View.crashed, List.length_take, Nat.min_eq_left h.durable]

theorem Matches.crash_of_bytes {reach : Nat}
    (hbytes : (Peer.crash left st).bytes = (encodeAll 0 v.all).take reach)
    (hreach : (encodeAll 0 (v.frames.take v.durable)).length ≤ reach) :
    Matches (v.crashed reach) (Peer.crash left st) := by
  obtain ⟨htake, hlen⟩ := h.crashed_frames reach
  refine ⟨?_, ?_, hreach, ?_, hlen.ge, ?_, ?_, ?_⟩
  · rw [View.crashed_all]
    exact h.fits
  · rw [View.crashed_all]
    exact hbytes
  · intro hload
    cases hload
  · have hle := encodeAll_take_le 0 v.durable v.all
    rw [take_all_of_le h.durable] at hle
    have hsize : (Peer.crash left st).flushed = (Peer.crash left st).bytes.length := rfl
    change (encodeAll 0 ((v.crashed reach).frames.take v.durable)).length ≤ _
    rw [htake, hsize, hbytes, List.length_take]
    exact le_min hreach hle
  · intro hpos
    change (st.entered || left.log) = true
    rw [h.entered hpos, Bool.true_or]
  · intro hdirs
    cases hdirs

theorem Matches.crash : ∃ reach, Matches (v.crashed reach) (Peer.crash left st) := by
  have hle := encodeAll_take_le 0 v.durable v.frames
  have hreach := h.reach
  have hflushed := h.flushed
  by_cases hkeep : (st.entered || left.log) = true
  · refine ⟨min (max st.flushed left.bytes) v.reach, h.crash_of_bytes left ?_ (by omega)⟩
    have hmap : (Peer.crash left st).bytes = st.bytes.take (max st.flushed left.bytes) := by
      unfold Peer.crash SessionState.bytes
      dsimp only
      rw [if_pos hkeep]
      cases st.log with
      | none => exact List.take_nil.symm
      | some data => rfl
    rw [hmap, h.bytes, List.take_take]
  · have hzero : v.durable = 0 := by
      by_contra hpos
      rw [h.entered (Nat.pos_of_ne_zero hpos)] at hkeep
      exact hkeep rfl
    refine ⟨0, h.crash_of_bytes left ?_ ?_⟩
    · unfold Peer.crash SessionState.bytes
      dsimp only
      rw [if_neg hkeep]
      rfl
    · rw [hzero]
      exact le_rfl

end Crash

section LaterSteps

variable (h : Inv r v count)
include h

theorem Inv.frames_ne_nil (hacked : r.acked ≠ []) : v.frames ≠ [] := by
  intro hnil
  have hpos := durable_pos h.acked hacked
  have hle := h.files.durable
  rw [hnil, List.length_nil] at hle
  omega

theorem Inv.length_lt (hbound : count < 2 ^ 64) : v.frames.length < 2 ^ 64 := by
  have hcount := h.count
  rw [View.all, List.length_append] at hcount
  omega

theorem Inv.tailPage (rq : TailRequest) (hbound : count < 2 ^ 64) :
    Inv (r.step (.tailPage rq)) v count := by
  dsimp only [SessionRun.step]
  have hlength := h.length_lt hbound
  obtain ⟨tail, htail, hmoved⟩ := tailPage_state rq r.state
  have hmatch : Matches v { r.state with tail } :=
    h.files.touched rfl ⟨rfl, rfl, rfl, rfl⟩ (min_le_left _ _) id
  have hcursor : ∀ c, tail = some c → r.acked ≠ [] → ∃ i, Between v.frames c.position i := by
    intro c hc hacked
    rcases hmoved with hsame | hsome
    · exact h.cursor c (hsame.symm.trans hc) hacked
    obtain ⟨n, hn⟩ := Option.ne_none_iff_exists'.1 hsome
    obtain ⟨rfl, -⟩ := h.marked n hn hacked
    obtain ⟨page, cursor, i, hread, -, -, hi⟩ := tailPage_spec rq h.files hlength
      (h.frames_ne_nil hacked) hn (fun c hc => h.cursor c hc hacked)
    rw [hread] at htail
    have heq : some cursor = tail := congrArg SessionState.tail htail
    rw [hc] at heq
    cases heq
    exact ⟨i, hi⟩
  rw [htail]
  refine ⟨hmatch, h.count, h.acked, h.marked, ?_, hcursor, h.sealed, h.late⟩
  intro ht
  rcases hmoved with hsame | hsome
  · exact h.reading (hsame ▸ ht)
  · exact hsome

theorem Inv.restart : Inv (r.step .restart) v count := by
  have hfiles : Matches v (restartProcess r.state) := by
    refine { h.files with known := ?_, dirs := ?_ }
    · intro hload
      cases hload
    · intro hdirs
      cases hdirs
  exact h.touched hfiles rfl (.inr rfl) id

theorem Inv.crash (left : Leftover) : ∃ v', Inv (r.step (.crash left)) v' count := by
  obtain ⟨reach, hfiles⟩ := h.files.crash left
  obtain ⟨htake, hlen⟩ := h.files.crashed_frames reach
  refine ⟨v.crashed reach, hfiles, ?_, ?_, ?_, ?_, ?_, ?_, h.late⟩
  · rw [View.crashed_all]
    exact h.count
  · have hacked := h.acked
    rw [← htake] at hacked
    exact hacked
  · intro n hn hacked
    have hmarker : r.state.marker = some n := by
      change (if _ then r.state.marker else none) = some n at hn
      split at hn
      · exact hn
      · cases hn
    obtain ⟨rfl, hdurable⟩ := h.marked n hmarker hacked
    rw [hlen, ← hdurable]
    exact ⟨rfl, rfl⟩
  · exact fun ht => absurd rfl ht
  · intro c hc
    cases hc
  · intro hs
    obtain ⟨hsome, hentered⟩ := h.sealed hs
    have hkeep : (r.state.markerEntered || left.marker) = true := by rw [hentered, Bool.true_or]
    refine ⟨?_, hkeep⟩
    change (if (r.state.markerEntered || left.marker) = true then r.state.marker else none) ≠ none
    rw [if_pos hkeep]
    exact hsome

end LaterSteps

/-! ## Whole runs -/

/-- What a step needs: records that fit their fields, and seals of what is on disk. -/
def StepReady (st : SessionState) : SessionStep → Prop
  | .append _ appends => ∀ a ∈ appends, Short a
  | .sealLog _ => SealReady st
  | _ => True

def RunReady : SessionRun → List SessionStep → Prop
  | _, [] => True
  | r, s :: steps => StepReady r.state s ∧ RunReady (r.step s) steps

def SessionStep.frames : SessionStep → Nat
  | .append _ appends => appends.length
  | _ => 0

/-- The frames of all append calls of a run. -/
def frameCount (steps : List SessionStep) : Nat := (steps.map SessionStep.frames).sum

theorem Inv.step (h : Inv r v count) (s : SessionStep)
    (hready : StepReady r.state s) (hbound : count < 2 ^ 64) :
    ∃ v', Inv (r.step s) v' (count + s.frames) := by
  cases s with
  | append fault appends => exact h.append hready
  | prepare fault => exact ⟨v, h.prepare fault⟩
  | sealLog fault => exact h.sealLog fault hready
  | head => exact ⟨v, h⟩
  | tailPage rq => exact ⟨v, h.tailPage rq hbound⟩
  | restart => exact ⟨v, h.restart⟩
  | crash left => exact h.crash left

theorem Inv.run {steps : List SessionStep} (h : Inv r v count) (hready : RunReady r steps)
    (hbound : count + frameCount steps < 2 ^ 64) :
    ∃ v', Inv (r.run steps) v' (count + frameCount steps) := by
  induction steps generalizing r v count with
  | nil => exact ⟨v, h⟩
  | cons s steps ih =>
    have hsum : count + frameCount (s :: steps) = count + s.frames + frameCount steps := by
      rw [frameCount, List.map_cons, List.sum_cons, frameCount, Nat.add_assoc]
    rw [hsum] at hbound ⊢
    obtain ⟨v', h'⟩ := h.step s hready.1 (by omega)
    exact ih h' hready.2 hbound

/-- The log read after a seal: one sequence of frames, numbered from 1 on, which has every
acknowledged frame in order under the number its call returned. Every page is a start of
what was asked for, and all of it without limits. -/
def SealedLogComplete (r : SessionRun) : Prop :=
  r.sealed = true → r.acked ≠ [] → ∃ frames : List SessionAppend, frames.length < 2 ^ 64 ∧
    r.fragments.Sublist (fragmentsFrom 0 frames) ∧
    ∀ rq : TailRequest, ∃ page, (tailPage rq r.state).1 = .ok page ∧
      page <+: rq.wanted (fragmentsFrom 0 frames) ∧
      (rq.Unlimited → page = rq.wanted (fragmentsFrom 0 frames))

/-- In a run whose seals count only records on disk, the sealed log has every acknowledged
frame, and no append succeeds after a seal. -/
theorem sealed_log_complete {steps : List SessionStep} (hready : RunReady {} steps)
    (hcount : frameCount steps < 2 ^ 64) :
    SealedLogComplete (SessionRun.run {} steps) ∧ (SessionRun.run {} steps).late = false := by
  obtain ⟨v, h⟩ := Inv.start.run hready (by rwa [Nat.zero_add])
  refine ⟨?_, h.late⟩
  intro hsealed hacked
  have hlength : v.frames.length < 2 ^ 64 := by
    have hall := h.count
    rw [View.all, List.length_append] at hall
    omega
  obtain ⟨n, hn⟩ := Option.ne_none_iff_exists'.1 (h.sealed hsealed).1
  obtain ⟨rfl, hdurable⟩ := h.marked n hn hacked
  refine ⟨v.frames, hlength, h.acked.trans (fragmentsFrom_take 0 _ _), ?_⟩
  intro rq
  obtain ⟨page, cursor, i, hread, hstart, hall, -⟩ := tailPage_spec rq h.files hlength
    (h.frames_ne_nil hacked) hn (fun c hc => h.cursor c hc hacked)
  exact ⟨page, by rw [hread], hstart, hall⟩

/-! ## A seal of records that are not on disk -/

def sessionDelta (n : UInt64) : SessionAppend where
  scope := [110]
  epoch := 1
  segments :=
    [encode { version := 0, kind := kindDelta, flags := 0, epoch := 1, startTxID := n,
              endTxID := n, length := 0, crc := 0 } []]

/-- The sync of the second append fails, a new process counts its record and seals the log,
and a crash loses the record. -/
def unsyncedSeal : List SessionStep :=
  [.append .none [sessionDelta 1], .append .sync [sessionDelta 2], .restart, .sealLog .none,
    .crash ⟨false, false, 0⟩]

/-- The marker then counts a record that is gone, and no read of the log succeeds. -/
theorem seal_counts_unsynced :
    (SessionRun.run {} unsyncedSeal).acked = [(1, sessionDelta 1)] ∧
      (tailPage ⟨0, 0, 0⟩ (SessionRun.run {} unsyncedSeal).state).1.isOk = false ∧
      ¬ SealedLogComplete (SessionRun.run {} unsyncedSeal) := by
  have hacked : (SessionRun.run {} unsyncedSeal).acked = [(1, sessionDelta 1)] := by
    decide +kernel
  have hfails : (tailPage ⟨0, 0, 0⟩ (SessionRun.run {} unsyncedSeal).state).1.isOk = false := by
    decide +kernel
  refine ⟨hacked, hfails, ?_⟩
  intro h
  have hne : (SessionRun.run {} unsyncedSeal).acked ≠ [] := by
    rw [hacked]
    exact List.cons_ne_nil _ _
  obtain ⟨frames, -, -, hread⟩ := h (by decide +kernel) hne
  obtain ⟨page, hpage, -, -⟩ := hread ⟨0, 0, 0⟩
  rw [hpage] at hfails
  cases hfails

/-- The same calls, with a second try of the append before the seal. -/
def syncedSeal : List SessionStep :=
  [.append .none [sessionDelta 1], .append .sync [sessionDelta 2], .append .none [sessionDelta 2],
    .sealLog .none, .crash ⟨false, false, 0⟩]

theorem sealed_log_complete_retry : SealedLogComplete (SessionRun.run {} syncedSeal) := by
  have hshort : ∀ n : UInt64, n = 1 ∨ n = 2 → ∀ a ∈ [sessionDelta n], Short a := by
    rintro n (rfl | rfl) a ha <;> rw [List.mem_singleton.1 ha]
    all_goals exact ⟨by decide +kernel, by decide +kernel, by decide +kernel⟩
  refine (sealed_log_complete ?_ (by decide +kernel)).1
  refine ⟨hshort 1 (.inl rfl), hshort 2 (.inr rfl), hshort 2 (.inr rfl), ?_, trivial, trivial⟩
  have hloaded : (SessionRun.run {} (syncedSeal.take 3)).state.loaded = true := by decide +kernel
  have hsize : (SessionRun.run {} (syncedSeal.take 3)).state.size ≤
      (SessionRun.run {} (syncedSeal.take 3)).state.flushed := by decide +kernel
  intro _ st hst
  change (SessionRun.run {} (syncedSeal.take 3)).state.load = .ok st at hst
  rw [SessionState.load, if_pos hloaded] at hst
  cases hst
  exact hsize

end CellHive.Peer
