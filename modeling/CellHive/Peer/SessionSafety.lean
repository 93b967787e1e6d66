import CellHive.Peer.Session

/-!
# Acknowledged frames of a session

The invariant behind the session log: the file always holds the records of the frames the
process counts, followed by a start of the records of one more group, and the frames that
were acknowledged are among the first ones, which survive a crash. Sealing keeps all of it
readable when what it counts is on disk.
-/

namespace CellHive.Peer

open Go Ltx

/-! ## Numbered groups -/

/-- The appends of a group with the numbers after `k`. -/
def numbered : Nat → List SessionAppend → List (UInt64 × SessionAppend)
  | _, [] => []
  | k, a :: rest => (UInt64.ofNat (k + 1), a) :: numbered (k + 1) rest

theorem groupSequences_succ (k n : Nat) : groupSequences (UInt64.ofNat k) (n + 1) =
    UInt64.ofNat (k + 1) :: groupSequences (UInt64.ofNat (k + 1)) n := by
  unfold groupSequences
  rw [List.range_succ_eq_map, List.map_cons, List.map_map]
  congr 1
  · simp
  · apply List.map_congr_left
    intro i _
    rw [Function.comp_apply, ofNat_succ, ofNat_succ]
    ac_rfl

theorem zip_groupSequences (k : Nat) (appends : List SessionAppend) :
    (groupSequences (UInt64.ofNat k) appends.length).zip appends = numbered k appends := by
  induction appends generalizing k with
  | nil => simp [numbered]
  | cons a appends ih =>
    rw [List.length_cons, groupSequences_succ, List.zip_cons_cons, ih, numbered]

theorem groupRecords_eq (k : Nat) (appends : List SessionAppend) :
    groupRecords (groupSequences (UInt64.ofNat k) appends.length) appends = encodeAll k appends := by
  rw [groupRecords, zip_groupSequences]
  induction appends generalizing k with
  | nil => rfl
  | cons a appends ih => rw [numbered, List.flatMap_cons, ih, encodeAll]

theorem map_numbered (k : Nat) (appends : List SessionAppend) :
    (numbered k appends).map (fun p => p.2.fragment p.1) = fragmentsFrom k appends := by
  induction appends generalizing k with
  | nil => rfl
  | cons a appends ih => rw [numbered, List.map_cons, ih, fragmentsFrom]

theorem getLastD_groupSequences (k n : Nat) :
    (groupSequences (UInt64.ofNat k) n).getLastD (UInt64.ofNat k) = UInt64.ofNat (k + n) := by
  induction n generalizing k with
  | zero => rfl
  | succ n ih =>
    rw [groupSequences_succ, List.getLastD_cons, ih]
    congr 1
    omega

theorem fragmentsFrom_append (k : Nat) (xs ys : List SessionAppend) :
    fragmentsFrom k (xs ++ ys) = fragmentsFrom k xs ++ fragmentsFrom (k + xs.length) ys := by
  induction xs generalizing k with
  | nil => rfl
  | cons a xs ih =>
    rw [List.cons_append, fragmentsFrom, fragmentsFrom, ih, List.cons_append, List.length_cons,
      Nat.add_assoc, Nat.add_comm 1]

theorem fragmentsFrom_take (k n : Nat) (xs : List SessionAppend) :
    (fragmentsFrom k (xs.take n)).Sublist (fragmentsFrom k xs) := by
  have happend := fragmentsFrom_append k (xs.take n) (xs.drop n)
  rw [List.take_append_drop] at happend
  rw [happend]
  exact List.sublist_append_left _ _

theorem encodeAll_take_le (k n : Nat) (xs : List SessionAppend) :
    (encodeAll k (xs.take n)).length ≤ (encodeAll k xs).length := by
  have happend := encodeAll_append k (xs.take n) (xs.drop n)
  rw [List.take_append_drop] at happend
  rw [happend, List.length_append]
  exact Nat.le_add_right _ _

/-! ## What the files hold -/

/-- The log as frames: those the process counts, those of an unfinished group behind them,
how many bytes of all of them are in the file, and how many frames survive a crash. -/
structure View where
  frames : List SessionAppend
  extra : List SessionAppend
  reach : Nat
  durable : Nat

def View.all (v : View) : List SessionAppend := v.frames ++ v.extra

/-- The files hold what the view says. -/
structure Matches (v : View) (st : SessionState) : Prop where
  fits : ∀ a ∈ v.all, Fits a
  bytes : st.bytes = (encodeAll 0 v.all).take v.reach
  reach : (encodeAll 0 v.frames).length ≤ v.reach
  known : st.loaded = true →
    st.last = UInt64.ofNat v.frames.length ∧ st.size = (encodeAll 0 v.frames).length
  durable : v.durable ≤ v.frames.length
  flushed : (encodeAll 0 (v.frames.take v.durable)).length ≤ st.flushed
  entered : 0 < v.durable → st.entered = true
  dirs : st.dirs = true → st.entered = true

theorem take_all_of_le {v : View} {n : Nat} (h : n ≤ v.frames.length) :
    v.all.take n = v.frames.take n := List.take_append_of_le_length h

section Matches

variable {v : View} {st : SessionState} (h : Matches v st)
include h

theorem Matches.take_bytes : st.bytes.take (encodeAll 0 v.frames).length = encodeAll 0 v.frames := by
  rw [h.bytes, List.take_take, Nat.min_eq_left h.reach, View.all, encodeAll_append,
    List.take_left]

theorem Matches.length_le : (encodeAll 0 v.frames).length ≤ st.bytes.length := by
  have htake := congrArg List.length h.take_bytes
  rw [List.length_take] at htake
  omega

theorem Matches.truncateTo_bytes (hload : st.loaded = true) :
    truncateTo st.size st.bytes = encodeAll 0 v.frames := by
  rw [truncateTo, (h.known hload).2, h.take_bytes, Nat.sub_eq_zero_of_le h.length_le,
    List.replicate_zero, List.append_nil]

/-- The counted frames that survive a crash are among the flushed bytes of every later
state that keeps as much of the counted part. -/
theorem Matches.flushed_of_min {n : Nat}
    (hmin : min st.flushed (encodeAll 0 v.frames).length ≤ n) :
    (encodeAll 0 (v.frames.take v.durable)).length ≤ n := by
  apply le_trans _ hmin
  exact le_min h.flushed (encodeAll_take_le 0 v.durable v.frames)

theorem Matches.load : ∃ st' v', st.load = .ok st' ∧ Matches v' st' ∧ st'.loaded = true ∧
    v'.all = v.all ∧ v'.durable = v.durable ∧
    v'.frames.take v.durable = v.frames.take v.durable ∧
    st' = { st with loaded := st'.loaded, last := st'.last, size := st'.size } := by
  unfold SessionState.load
  by_cases hload : st.loaded = true
  · rw [if_pos hload]
    exact ⟨st, v, rfl, h, hload, rfl, rfl, rfl, rfl⟩
  rw [if_neg hload]
  obtain ⟨j, hwhole, hscan⟩ := scanRecords_take (le_refl 18) h.fits 0 0 v.reach
  have hj : v.frames.length ≤ j := by
    refine hwhole.most _ ?_ ?_
    · rw [View.all, List.length_append]
      exact Nat.le_add_right _ _
    · rw [take_all_of_le le_rfl, List.take_length]
      exact h.reach
  have hscan' : scanSessionState st.bytes =
      .ok (UInt64.ofNat j, (encodeAll 0 (v.all.take j)).length) := by
    have hzero : (0 : UInt64) = UInt64.ofNat 0 := rfl
    rw [scanSessionState, h.bytes, hzero, hscan, Nat.zero_add, Nat.zero_add]
  have hframes : (v.all.take j).take v.durable = v.frames.take v.durable := by
    rw [List.take_take, Nat.min_eq_left (h.durable.trans hj), take_all_of_le h.durable]
  have hall : (View.mk (v.all.take j) (v.all.drop j) v.reach v.durable).all = v.all :=
    List.take_append_drop _ _
  rw [hscan']
  refine ⟨_, ⟨v.all.take j, v.all.drop j, v.reach, v.durable⟩, rfl, ?_, rfl, hall, rfl, hframes, rfl⟩
  refine ⟨?_, ?_, hwhole.inside, ?_, ?_, ?_, h.entered, h.dirs⟩
  · rw [hall]
    exact h.fits
  · rw [hall]
    exact h.bytes
  · intro _
    refine ⟨?_, rfl⟩
    rw [List.length_take, Nat.min_eq_left hwhole.le]
  · rw [List.length_take, Nat.min_eq_left hwhole.le]
    exact h.durable.trans hj
  · rw [hframes]
    exact h.flushed

theorem Matches.written {appends : List SessionAppend} (hfits : ∀ a ∈ appends, Fits a) {n : Nat}
    {st' : SessionState}
    (hbytes : st'.bytes = encodeAll 0 v.frames ++ (encodeAll v.frames.length appends).take n)
    (hflushed : min st.flushed (encodeAll 0 v.frames).length ≤ st'.flushed)
    (hknown : st'.loaded = true →
      st'.last = UInt64.ofNat v.frames.length ∧ st'.size = (encodeAll 0 v.frames).length)
    (hentered : st.entered = true → st'.entered = true)
    (hdirs : st'.dirs = true → st'.entered = true) :
    Matches ⟨v.frames, appends, (encodeAll 0 v.frames).length + n, v.durable⟩ st' := by
  refine ⟨?_, ?_, Nat.le_add_right _ _, hknown, h.durable, ?_, fun hd => hentered (h.entered hd),
    hdirs⟩
  · intro a ha
    rcases List.mem_append.1 ha with ha | ha
    · exact h.fits a (List.mem_append_left _ ha)
    · exact hfits a ha
  · rw [hbytes, View.all, encodeAll_append, List.take_length_add_append, Nat.zero_add]
  · exact h.flushed_of_min hflushed

theorem Matches.grown {appends : List SessionAppend} (hfits : ∀ a ∈ appends, Fits a)
    {st' : SessionState} (hbytes : st'.bytes = encodeAll 0 (v.frames ++ appends))
    (hflushed : st'.flushed = st'.bytes.length)
    (hknown : st'.last = UInt64.ofNat (v.frames ++ appends).length ∧
      st'.size = (encodeAll 0 (v.frames ++ appends)).length)
    (hentered : st'.entered = true) :
    Matches ⟨v.frames ++ appends, [], (encodeAll 0 (v.frames ++ appends)).length,
      (v.frames ++ appends).length⟩ st' := by
  refine ⟨?_, ?_, le_rfl, fun _ => hknown, le_rfl, ?_, fun _ => hentered, fun _ => hentered⟩
  · intro a ha
    rw [View.all, List.append_nil] at ha
    rcases List.mem_append.1 ha with ha | ha
    · exact h.fits a (List.mem_append_left _ ha)
    · exact hfits a ha
  · rw [hbytes, View.all, List.append_nil, List.take_length]
  · rw [List.take_length, hflushed, hbytes]

theorem Matches.touched {st' : SessionState} (hbytes : st'.bytes = st.bytes)
    (hmem : st'.loaded = st.loaded ∧ st'.last = st.last ∧ st'.size = st.size ∧ st'.dirs = st.dirs)
    (hflushed : min st.flushed (encodeAll 0 v.frames).length ≤ st'.flushed)
    (hentered : st.entered = true → st'.entered = true) : Matches v st' := by
  obtain ⟨hloaded, hlast, hsize, hdirs⟩ := hmem
  refine ⟨h.fits, hbytes.trans h.bytes, h.reach, ?_, h.durable, h.flushed_of_min hflushed,
    fun hd => hentered (h.entered hd), ?_⟩
  · rw [hloaded, hlast, hsize]
    exact h.known
  · rw [hdirs]
    exact fun hd => hentered (h.dirs hd)

end Matches

/-! ## Appending -/

section WriteGroup

variable {v : View} {st : SessionState} {appends : List SessionAppend}

/-- What a group write leaves of the seal and the reader's cursor. -/
def SameSeal (st st' : SessionState) : Prop :=
  st'.marker = st.marker ∧ st'.tail = st.tail ∧
    (st.markerEntered = true → st'.markerEntered = true)

theorem writeGroup_sameSeal (fault : SessionFault) (appends : List SessionAppend)
    (st : SessionState) : SameSeal st (writeGroup fault appends st).2 := by
  unfold writeGroup
  cases fault with
  | syncDir =>
    dsimp only
    split <;> exact ⟨rfl, rfl, id⟩
  | openFile | truncate | write | sync | close => exact ⟨rfl, rfl, id⟩
  | _ =>
    dsimp only
    split
    · exact ⟨rfl, rfl, id⟩
    · exact ⟨rfl, rfl, fun _ => rfl⟩

variable (h : Matches v st) (hload : st.loaded = true) (hfits : ∀ a ∈ appends, Fits a)
include h hload hfits

theorem writeGroup_error {fault : SessionFault} {e : Err}
    (herr : (writeGroup fault appends st).1 = .error e) :
    ∃ v', Matches v' (writeGroup fault appends st).2 ∧ v'.frames = v.frames ∧
      v'.durable = v.durable ∧ (v'.extra = v.extra ∨ v'.extra = appends) := by
  obtain ⟨hlast, hsize⟩ := h.known hload
  have hrecords := groupRecords_eq v.frames.length appends
  have hmin : min st.flushed (encodeAll 0 v.frames).length ≤ min st.flushed st.size := by
    rw [hsize]
  unfold writeGroup at herr ⊢
  dsimp only at herr ⊢
  rw [hlast, hrecords, h.truncateTo_bytes hload] at herr ⊢
  have hwritten : ∀ (n : Nat) (st' : SessionState),
      st'.bytes = encodeAll 0 v.frames ++ (encodeAll v.frames.length appends).take n →
      min st.flushed (encodeAll 0 v.frames).length ≤ st'.flushed →
      (st'.last = UInt64.ofNat v.frames.length ∧ st'.size = (encodeAll 0 v.frames).length) →
      st'.entered = st.entered → st'.dirs = st.dirs →
      ∃ v', Matches v' st' ∧ v'.frames = v.frames ∧ v'.durable = v.durable ∧
        (v'.extra = v.extra ∨ v'.extra = appends) := by
    intro n st' hb hf hk he hd
    exact ⟨_, h.written hfits hb hf (fun _ => hk) (fun hent => he.trans hent)
      (fun hdirs => he.trans (h.dirs (hd.symm.trans hdirs))), rfl, rfl, .inr rfl⟩
  have hsynced : min st.flushed (encodeAll 0 v.frames).length ≤
      (encodeAll 0 v.frames ++ encodeAll v.frames.length appends).length := by
    rw [List.length_append]
    omega
  have hall : encodeAll 0 v.frames ++ encodeAll v.frames.length appends =
      encodeAll 0 v.frames ++
        (encodeAll v.frames.length appends).take (encodeAll v.frames.length appends).length := by
    rw [List.take_length]
  cases fault with
  | openFile => exact ⟨v, h, rfl, rfl, .inl rfl⟩
  | truncate => exact ⟨v, h.touched rfl ⟨rfl, hlast.symm, rfl, rfl⟩ (min_le_left _ _) id, rfl, rfl,
      .inl rfl⟩
  | write n => exact hwritten n _ rfl hmin ⟨rfl, hsize⟩ rfl rfl
  | sync => exact hwritten _ _ hall hmin ⟨rfl, hsize⟩ rfl rfl
  | close => exact hwritten _ _ hall hsynced ⟨rfl, hsize⟩ rfl rfl
  | syncDir =>
    dsimp only at herr ⊢
    split at herr
    · cases herr
    next hd =>
    rw [if_neg hd]
    exact hwritten _ _ hall hsynced ⟨rfl, hsize⟩ rfl rfl
  | _ => cases herr

theorem writeGroup_ok {fault : SessionFault} {seqs : List UInt64}
    (hok : (writeGroup fault appends st).1 = .ok seqs) :
    seqs.zip appends = numbered v.frames.length appends ∧
      Matches ⟨v.frames ++ appends, [], (encodeAll 0 (v.frames ++ appends)).length,
        (v.frames ++ appends).length⟩ (writeGroup fault appends st).2 := by
  obtain ⟨hlast, hsize⟩ := h.known hload
  have hrecords := groupRecords_eq v.frames.length appends
  have hwhole : encodeAll 0 v.frames ++ encodeAll v.frames.length appends =
      encodeAll 0 (v.frames ++ appends) := by
    rw [encodeAll_append, Nat.zero_add]
  have hlen : st.size + (encodeAll v.frames.length appends).length =
      (encodeAll 0 (v.frames ++ appends)).length := by
    rw [← hwhole, List.length_append, hsize]
  have hcount : (groupSequences (UInt64.ofNat v.frames.length) appends.length).getLastD
      (UInt64.ofNat v.frames.length) = UInt64.ofNat (v.frames ++ appends).length := by
    rw [getLastD_groupSequences, List.length_append]
  unfold writeGroup at hok ⊢
  dsimp only at hok ⊢
  rw [hlast, hrecords, h.truncateTo_bytes hload, hwhole, hlen, hcount] at hok ⊢
  have hknown : ∀ st' : SessionState, st'.bytes = encodeAll 0 (v.frames ++ appends) →
      st'.flushed = st'.bytes.length →
      st'.last = UInt64.ofNat (v.frames ++ appends).length →
      st'.size = (encodeAll 0 (v.frames ++ appends)).length → st'.entered = true →
      Matches ⟨v.frames ++ appends, [], (encodeAll 0 (v.frames ++ appends)).length,
        (v.frames ++ appends).length⟩ st' :=
    fun st' hb hf hl hs he => h.grown hfits hb hf ⟨hl, hs⟩ he
  have hzip := zip_groupSequences v.frames.length appends
  cases fault with
  | openFile | truncate | write | sync | close => cases hok
  | syncDir =>
    dsimp only at hok ⊢
    split at hok
    next hd =>
      cases hok
      rw [if_pos hd]
      exact ⟨hzip, hknown _ rfl rfl rfl rfl (h.dirs hd)⟩
    · cases hok
  | _ =>
    cases hok
    refine ⟨hzip, ?_⟩
    dsimp only
    split
    next hd => exact hknown _ rfl rfl rfl rfl (h.dirs hd)
    · exact hknown _ rfl rfl rfl rfl rfl

end WriteGroup

end CellHive.Peer
