import CellHive.SqlCapture.Chunks
import CellHive.SqlCapture.Generation
import CellHive.SqlCapture.StreamSpec

/-!
# A write is released only when it is covered

Every program around a capture keeps the fleet sound: the loop moves the barrier only to
transactions that the proven segments cover, in whatever order the fleet answers and
whatever fails. A writer whose `Wait` returns nil is therefore covered.
-/

namespace CellHive.SqlCapture

open Go Concurrent Prog Ltx

/-! ## Chunks -/

theorem deltaSegment_eq_ok {c : Capture} {pageSize : UInt32} {chunk : List WALTransaction}
    {segment : Bytes} {endTxID : UInt64}
    (h : deltaSegment c pageSize chunk = .ok (segment, endTxID)) :
    endTxID = c.nextTxID + UInt64.ofNat chunk.length ∧
      IsDelta c.epoch (c.nextTxID + 1) (c.nextTxID + UInt64.ofNat chunk.length) segment := by
  unfold deltaSegment at h
  split at h
  · cases h
  split at h
  · cases h
  next payload _ =>
    cases h
    exact ⟨rfl, payload, rfl⟩

theorem length_cutChunks (pageSize : UInt32) (start : UInt64) (cuts : List UInt64)
    (txs : List WALTransaction) :
    ∀ chunk ∈ cutChunks pageSize start cuts txs, chunk.length ≤ maxCaptureTransactions := by
  induction cuts generalizing start txs with
  | nil => exact fun chunk hchunk => (fits_chunkTransactions pageSize txs chunk hchunk).2.length_le
  | cons cut cuts ih =>
    unfold cutChunks
    split
    · exact ih start txs
    · intro chunk hchunk
      rcases List.mem_append.1 hchunk with hchunk | hchunk
      · exact (fits_chunkTransactions pageSize _ chunk hchunk).2.length_le
      · exact ih cut _ chunk hchunk

/-! ## The loop's variables -/

/-- What the loop knows: its commits in flight are a queue up to its position, and only a
pipelined loop has any. -/
structure InStep (cfg : Config) (epoch baseline : UInt64) (l : Loop) (w : Fleet) : Prop where
  epoch_eq : l.capture.epoch = epoch
  queue : Queue epoch baseline w [] l.inflight l.capture.nextTxID
  pipelined : l.inflight ≠ [] → cfg.async = true ∧ 1 < l.pipeline

section Loop

variable {cfg : Config} {epoch baseline : UInt64} {i : Nat} {l : Loop}

theorem inStep_stable : Stable epoch baseline (InStep cfg epoch baseline l) := by
  intro w w' hw h
  refine ⟨h.epoch_eq, h.queue.mono hw fun d hd => absurd hd List.not_mem_nil, h.pipelined⟩

theorem covered_stable (txid : UInt64) :
    Stable epoch baseline (fun w => Covered epoch baseline w.proven txid) :=
  fun _ _ hw h => h.mono hw.proven

variable {P : Fleet → Prop}

theorem keeps_advance (endTxID : UInt64) (hP : Stable epoch baseline P) :
    Keeps epoch baseline i (ask (.advance endTxID))
      (fun w => Covered epoch baseline w.proven endTxID ∧ P w) (fun _ => P) := by
  refine Keeps.ask (fun w w' hw h => ⟨covered_stable endTxID w w' hw h.1, hP w w' hw h.2⟩) ?_
  intro w c r w' _ h hexec
  cases c with
  | proceed =>
    cases hexec
    have hgrows := Grows.advance h.1
    exact ⟨hgrows, hP _ _ hgrows h.2⟩
  | _ => cases hexec

theorem adaptPipeline_spec (hP : Stable epoch baseline P) :
    Keeps epoch baseline i (adaptPipeline l) P
      (fun l' w => (∃ n, l' = { l with pipeline := n } ∧ (1 < l.pipeline → 1 < n)) ∧ P w) := by
  unfold adaptPipeline
  split
  next hwide => exact Keeps.ret fun w hw => ⟨⟨l.pipeline, rfl, id⟩, hw⟩
  next hnarrow =>
    apply Keeps.bind (Keeps.quiet rfl hP)
    intro slow
    apply Keeps.ret
    intro w hw
    cases slow with
    | true => exact ⟨⟨capturePipeline, rfl, fun h => absurd h hnarrow⟩, hw⟩
    | false => exact ⟨⟨l.pipeline, rfl, id⟩, hw⟩

theorem exec_receive {call : Nat} {block : Bool} {c : Choice} {w w' : Fleet} {r : Res Unit}
    (h : exec (.receive call block) c w = some (Received.result r, w')) :
    w' = w ∧ ∃ segment, w.calls[call]? = some (segment, some r) := by
  have hsame := exec_quiet rfl h
  refine ⟨hsame, ?_⟩
  cases c with
  | proceed =>
    obtain ⟨x, hx, heq⟩ := Option.map_eq_some_iff.1 h
    have hxr : x = Received.result r := congrArg Prod.fst heq
    rw [hxr] at hx
    unfold Fleet.receive at hx
    split at hx
    next segment r' hcall =>
      cases hx
      exact ⟨segment, hcall⟩
    · split at hx <;> cases hx
  | refuse e =>
    cases block <;> cases h
  | _ => cases h

/-- What a call that returns the loop's variables leaves. -/
def Returns (cfg : Config) (epoch baseline : UInt64) (r : Res Loop) (w : Fleet) : Prop :=
  ∀ l', r = .ok l' → InStep cfg epoch baseline l' w

def Drained (cfg : Config) (epoch baseline : UInt64) (c : Capture) (r : Res Loop) (w : Fleet) : Prop :=
  ∀ l', r = .ok l' → l'.capture = c ∧ InStep cfg epoch baseline l' w

theorem drainFrom_spec (block : Bool) (futures : List ChunkFuture) (l : Loop) :
    Keeps epoch baseline i (drainFrom block futures l)
      (InStep cfg epoch baseline { l with inflight := futures })
      (Drained cfg epoch baseline l.capture) := by
  induction futures generalizing block l with
  | nil =>
    apply Keeps.ret
    intro w hw l' heq
    cases heq
    exact ⟨rfl, hw⟩
  | cons head rest ih =>
    have hreceived : Keeps epoch baseline i (ask (.receive head.call block))
        (InStep cfg epoch baseline { l with inflight := head :: rest })
        (fun r w => InStep cfg epoch baseline { l with inflight := head :: rest } w ∧
          (r = .result (.ok ()) → Covered epoch baseline w.proven head.endTxID ∧
            InStep cfg epoch baseline { l with inflight := rest } w)) := by
      apply Keeps.ask inStep_stable
      intro w c r w' hs hw hexec
      have hsame := exec_quiet rfl hexec
      subst hsame
      refine ⟨.refl _, hw, ?_⟩
      intro hr
      subst hr
      obtain ⟨-, hcall⟩ := exec_receive hexec
      obtain ⟨hcovered, hqueue⟩ := hw.queue.tail hs hcall
      exact ⟨hcovered, hw.epoch_eq, hqueue, fun _ => hw.pipelined (List.cons_ne_nil _ _)⟩
    apply Keeps.bind hreceived
    intro r
    cases r with
    | notYet =>
      apply Keeps.ret
      rintro w ⟨hw, -⟩ l' heq
      cases heq
      exact ⟨rfl, hw⟩
    | cancelled e => exact Keeps.ret fun _ _ => nofun
    | result r =>
      rcases r with e | u
      · exact Keeps.ret fun _ _ => nofun
      have hstable : Stable epoch baseline fun w => Covered epoch baseline w.proven head.endTxID ∧
          InStep cfg epoch baseline { l with inflight := rest } w :=
        fun w w' hw h => ⟨covered_stable _ w w' hw h.1, inStep_stable w w' hw h.2⟩
      refine Keeps.pre (Keeps.bind (adaptPipeline_spec hstable) ?_) (fun w h => h.2 rfl)
      intro l'
      apply Keeps.of_pure
      rintro ⟨n, rfl, hn⟩
      refine Keeps.bind (keeps_advance head.endTxID inStep_stable) fun _ => ?_
      apply (ih false { l with pipeline := n }).pre _
      exact fun w h => ⟨h.epoch_eq, h.queue, fun hne => (h.pipelined hne).imp_right hn⟩

theorem drain_spec (block : Bool) :
    Keeps epoch baseline i (drain block l) (InStep cfg epoch baseline l)
      (Drained cfg epoch baseline l.capture) :=
  drainFrom_spec block l.inflight l

/-! ## Sending chunks -/

/-- The loop's variables with the capture's next position. -/
def Loop.at (l : Loop) (txid : UInt64) : Loop :=
  { l with capture := { l.capture with nextTxID := txid } }

/-- So many more transactions are durable, and nothing is in flight. -/
def Sent (epoch baseline : UInt64) (l : Loop) (n : Nat) (w : Fleet) : Prop :=
  Claimed epoch baseline w.proven [] (l.capture.nextTxID + UInt64.ofNat n) ∧
    l.capture.epoch = epoch ∧ l.inflight = []

section Chunk

variable {segment : Bytes} {n : Nat} (hn : n ≤ maxCaptureTransactions)
  (hdelta : IsDelta epoch (l.capture.nextTxID + 1) (l.capture.nextTxID + UInt64.ofNat n) segment)
include hn hdelta

theorem commitAsync_spec (base : UInt64) :
    Keeps epoch baseline i (ask (.commitAsync segment base)) (InStep cfg epoch baseline l)
      (fun call w => Queue epoch baseline w []
        (l.inflight ++ [⟨l.capture.nextTxID + UInt64.ofNat n, call⟩])
        (l.capture.nextTxID + UInt64.ofNat n)) := by
  apply Keeps.ask inStep_stable
  intro w c r w' _ hw hexec
  cases c with
  | proceed =>
    cases hexec
    have hgrows : Grows epoch baseline w { w with calls := w.calls ++ [(segment, none)] } :=
      Grows.commitAsync w segment
    refine ⟨hgrows, (inStep_stable _ _ hgrows hw).queue.snoc (r := none) ?_ hn hdelta⟩
    exact List.getElem?_concat_length
  | _ => cases hexec

theorem sendChunk_spec (startTxID : UInt64) :
    Keeps epoch baseline i
      (sendChunk cfg segment startTxID (l.capture.nextTxID + UInt64.ofNat n) l)
      (InStep cfg epoch baseline l)
      (fun r w => ∀ l', r = .ok l' → l'.capture = l.capture ∧
        InStep cfg epoch baseline (l'.at (l.capture.nextTxID + UInt64.ofNat n)) w) := by
  unfold sendChunk
  split
  next hpipelined =>
    refine Keeps.pre (Keeps.bind ((commitAsync_spec hn hdelta _).frame inStep_stable) ?_)
      (fun w hw => ⟨hw, hw⟩)
    intro call
    apply Keeps.ret
    rintro w ⟨hw, hqueue⟩ l' heq
    cases heq
    refine ⟨rfl, hw.epoch_eq, hqueue, fun _ => ?_⟩
    exact ⟨by simpa using hpipelined.1, hpipelined.2⟩
  next hserial =>
    refine Keeps.bind (M := fun r w => r = .ok () → Sent epoch baseline l n w) ?_ ?_
    · apply (Snapshotter.keeps_commit [segment] inStep_stable).mono (fun _ h => h)
      rintro r w ⟨hw, hproven⟩ hr
      -- without a pipeline nothing is in flight
      have hempty : l.inflight = [] := by
        by_contra hne
        exact hserial (by simpa using hw.pipelined hne)
      have hqueue := hw.queue
      rw [hempty] at hqueue
      refine ⟨?_, hw.epoch_eq, hempty⟩
      apply (Claimed.snoc hqueue hn hdelta).mono (fun _ hx => hx)
      exact fun d hd => .inl (hproven hr d hd)
    intro r
    rcases r with e | u
    · exact Keeps.ret fun _ _ => nofun
    have hstable : Stable epoch baseline (Sent epoch baseline l n) :=
      fun w w' hw h => ⟨h.1.mono hw.proven fun d hd => absurd hd List.not_mem_nil, h.2⟩
    refine Keeps.pre (Keeps.bind (adaptPipeline_spec hstable) ?_) (fun w h => h rfl)
    intro l'
    apply Keeps.of_pure
    rintro ⟨m, rfl, -⟩
    refine Keeps.bind (M := fun _ => Sent epoch baseline l n) ?_ ?_
    · exact (keeps_advance _ hstable).pre (fun w h => ⟨h.1.covered, h⟩)
    intro _
    apply Keeps.ret
    rintro w ⟨hclaimed, hepoch, hempty⟩ l' heq
    cases heq
    refine ⟨rfl, hepoch, ?_, fun hne => absurd hempty hne⟩
    rw [hempty]
    exact hclaimed

end Chunk

theorem awaitRoom_spec :
    Keeps epoch baseline i (awaitRoom l) (InStep cfg epoch baseline l)
      (Drained cfg epoch baseline l.capture) := by
  unfold awaitRoom
  split
  · exact drain_spec true
  · apply Keeps.ret
    intro w hw l' heq
    cases heq
    exact ⟨rfl, hw⟩

/-- A program of the loop keeps it in step. -/
abbrev Steps (cfg : Config) (epoch baseline : UInt64) (i : Nat) (p : Prog ops (Res Loop))
    (l : Loop) : Prop :=
  Keeps epoch baseline i p (InStep cfg epoch baseline l) (Returns cfg epoch baseline)

theorem Keeps.ok : Steps cfg epoch baseline i (pure (.ok l)) l := by
  apply Keeps.ret
  intro w hw l' heq
  cases heq
  exact hw

theorem Keeps.error {e : Err} :
    Keeps epoch baseline i (pure (.error e)) P (Returns cfg epoch baseline) :=
  Keeps.ret fun _ _ => nofun

theorem sendChunks_spec (pageSize : UInt32) (chunks : List (List WALTransaction))
    (hchunks : ∀ chunk ∈ chunks, chunk.length ≤ maxCaptureTransactions) (l : Loop) :
    Steps cfg epoch baseline i (sendChunks cfg pageSize chunks l) l := by
  induction chunks generalizing l with
  | nil => exact Keeps.ok
  | cons chunk rest ih =>
    unfold sendChunks
    cases hsegment : deltaSegment l.capture pageSize chunk with
    | error e => exact Keeps.ret fun _ _ => nofun
    | ok made =>
    obtain ⟨segment, endTxID⟩ := made
    obtain ⟨rfl, hdelta⟩ := deltaSegment_eq_ok hsegment
    have hn := hchunks chunk List.mem_cons_self
    refine Keeps.seqOk awaitRoom_spec (fun _ => Keeps.error) fun l₁ => ?_
    apply Keeps.of_pure
    intro hcapture
    have hepoch : ∀ w, InStep cfg epoch baseline l₁ w →
        l₁.capture.epoch = epoch ∧ InStep cfg epoch baseline l₁ w := fun w hw => ⟨hw.epoch_eq, hw⟩
    refine Keeps.pre (Keeps.of_pure fun hepoch => ?_) hepoch
    rw [← hcapture] at hdelta ⊢
    rw [hepoch] at hdelta
    refine Keeps.seqOk (sendChunk_spec hn hdelta _) (fun _ => Keeps.error) fun l₂ => ?_
    apply Keeps.of_pure
    intro hcapture₂
    refine Keeps.seqOk (drain_spec false) (fun _ => Keeps.error) fun l₃ => ?_
    exact (ih (fun chunk h => hchunks chunk (List.mem_cons_of_mem _ h)) l₃).pre fun w hw => hw.2

/-! ## Snapshots and polls -/

theorem emitSnapshotStream_spec (mode : SnapshotMode)
    (onStart : Option (UInt64 → Prog ops (Res Unit))) (watermark : UInt64) (l : Loop)
    (hhook : Snapshotter.HookKeeps epoch baseline i ⟨cfg, l.capture, mode, onStart⟩) :
    Steps cfg epoch baseline i (emitSnapshotStream cfg mode onStart watermark l) l := by
  refine Keeps.pre (Keeps.bind ((Snapshotter.run_spec hhook watermark).frame inStep_stable) ?_)
    (fun w hw => ⟨hw, trivial⟩)
  rintro ⟨err, st⟩
  cases err with
  | some e => exact Keeps.ret fun _ _ => nofun
  | none =>
    -- the snapshot is complete, so its label is covered and anchors what follows
    refine Keeps.bind (M := fun _ w => InStep cfg epoch baseline
      { l with capture := { l.capture with cursor := .empty, nextTxID := st.label } } w) ?_ ?_
    · apply (keeps_advance st.label inStep_stable).pre _
      rintro w ⟨hw, hcomplete⟩
      have hsnapshot : CompleteSnapshot epoch st.label w.proven := hw.epoch_eq ▸ hcomplete rfl
      exact ⟨(Claimed.snapshot hsnapshot).covered, hw.epoch_eq, hw.queue.jump hsnapshot,
        hw.pipelined⟩
    · intro _
      apply Keeps.ret
      intro w hw l' heq
      cases heq
      exact hw

theorem emitDrained_spec (watermark : UInt64) :
    Steps cfg epoch baseline i (emitDrained cfg watermark l) l := by
  refine Keeps.seqOk (drain_spec true) (fun _ => Keeps.error) fun l' => ?_
  exact (emitSnapshotStream_spec .pages none watermark l' nofun).pre fun w hw => hw.2

theorem rebaseline_spec : Steps cfg epoch baseline i (rebaseline cfg l) l := by
  unfold rebaseline
  split
  · refine Keeps.bind (M := fun _ => InStep cfg epoch baseline l) ?_ fun w => emitDrained_spec w
    unfold maxWatermark
    split
    · exact Keeps.bind (Keeps.quiet rfl inStep_stable) fun _ => Keeps.ret fun _ h => h
    · exact Keeps.ret fun _ h => h
  · refine Keeps.seqOk (drain_spec true) (fun _ => Keeps.error) fun l' => ?_
    refine Keeps.pre (Keeps.bind (Keeps.quiet rfl inStep_stable) ?_) fun w hw => hw.2
    intro ticket
    cases ticket with
    | error e => exact Keeps.error
    | ok ticket => exact emitDrained_spec _

theorem maybeAutoCheckpoint_spec : Steps cfg epoch baseline i (maybeAutoCheckpoint cfg l) l := by
  unfold maybeAutoCheckpoint
  split
  · exact Keeps.ok
  apply Keeps.bind (Keeps.quiet rfl inStep_stable)
  intro grown
  rcases grown with _ | _
  · exact Keeps.ok
  apply Keeps.bind (Keeps.quiet rfl inStep_stable)
  intro ticket
  cases ticket with
  | error e => exact Keeps.ok
  | ok ticket => exact emitDrained_spec _

theorem emitPolled_spec (polled : Wal.Polled) :
    Steps cfg epoch baseline i (emitPolled cfg polled l) l := by
  unfold emitPolled
  split
  · split
    · exact Keeps.ok
    split
    · exact Keeps.ok
    · exact Keeps.error
  split
  · exact rebaseline_spec
  split
  · exact Keeps.ok
  refine Keeps.seqOk (sendChunks_spec _ _ (length_cutChunks _ _ _ _) l) (fun _ => Keeps.error)
    fun l' => ?_
  apply maybeAutoCheckpoint_spec.pre
  exact fun w hw => ⟨hw.epoch_eq, hw.queue, hw.pipelined⟩

theorem pollLocked_spec : Steps cfg epoch baseline i (pollLocked cfg l) l := by
  refine Keeps.seqOk (drain_spec false) (fun _ => Keeps.error) fun l' => ?_
  refine Keeps.pre (Keeps.bind (Keeps.quiet rfl inStep_stable) ?_) fun w hw => hw.2
  intro o
  apply (emitPolled_spec _).pre
  exact fun w hw => ⟨hw.epoch_eq, hw.queue, hw.pipelined⟩

/-- `pollMu` and the labels it guards have no part in the invariant. -/
theorem keeps_lock {op : Op} (hop : op = .lockPoll ∨ ∃ cuts, op = .unlockPoll cuts)
    (hP : Stable epoch baseline P) : Keeps epoch baseline i (ask op) P (fun _ => P) := by
  apply Keeps.ask hP
  intro w c r w' _ hw hexec
  have hgrows : Grows epoch baseline w w' := by
    rcases hop with rfl | ⟨cuts, rfl⟩
    · cases c with
      | proceed =>
        simp only [exec] at hexec
        split at hexec
        · cases hexec
        · cases hexec
          exact .of_same rfl rfl rfl fun a ha => .inl ha
      | _ => cases hexec
    · cases c with
      | proceed =>
        cases hexec
        exact .of_same rfl rfl rfl fun a ha => .inl ha
      | _ => cases hexec
  exact ⟨hgrows, hP _ _ hgrows hw⟩

theorem pollOnce_spec : Steps cfg epoch baseline i (pollOnce cfg l) l := by
  apply Keeps.bind (keeps_lock (.inl rfl) inStep_stable)
  intro cuts
  refine Keeps.seqOk (pollLocked_spec.pre ?_) ?_ fun l' => ?_
  · exact fun w hw => ⟨hw.epoch_eq, hw.queue, hw.pipelined⟩
  · have htrue : Stable epoch baseline fun _ => True := fun _ _ _ _ => trivial
    exact fun _ => Keeps.bind (keeps_lock (.inr ⟨cuts, rfl⟩) htrue) fun _ => Keeps.error
  · refine Keeps.bind (keeps_lock (.inr ⟨_, rfl⟩) inStep_stable) fun _ => ?_
    exact Keeps.ok

/-! ## Threads -/

def Behind (r : Finished) (w : Fleet) : Prop :=
  ∀ txid, r = .waited txid none → txid ≤ w.barrier.durableTxID

theorem keeps_fail (e : Err) :
    Keeps epoch baseline i (ask (.fail e)) (fun _ => True) (fun _ _ => True) := by
  refine Keeps.ask (fun _ _ _ _ => trivial) ?_
  intro w c r w' _ _ hexec
  cases c with
  | proceed =>
    cases hexec
    exact ⟨Grows.fail w e, trivial⟩
  | _ => cases hexec

theorem fail_spec (e : Err) :
    Keeps epoch baseline i (ask (.fail e) >>= fun _ => pure (.captured (some e))) P Behind := by
  refine Keeps.pre (Keeps.bind (keeps_fail e) fun _ => ?_) (fun _ _ => trivial)
  exact Keeps.ret fun _ _ => nofun

theorem loop_spec (rounds : Nat) (l : Loop) :
    Keeps epoch baseline i (loop cfg rounds l) (InStep cfg epoch baseline l) Behind := by
  induction rounds generalizing l with
  | zero => exact Keeps.ret fun _ _ => nofun
  | succ rounds ih =>
    apply Keeps.bind (Keeps.quiet rfl inStep_stable)
    intro cancelled
    cases cancelled with
    | some e => exact fail_spec e
    | none =>
      exact Keeps.seqOk pollOnce_spec (fun e => fail_spec e) ih

theorem capture_spec (rounds : Nat) (calls : List Bool) (l : Loop) :
    Keeps epoch baseline i (capture cfg rounds calls l) (InStep cfg epoch baseline l) Behind := by
  induction calls generalizing l with
  | nil => exact loop_spec rounds l
  | cons hooked calls ih =>
    have hhook : Snapshotter.HookKeeps epoch baseline i ⟨cfg, l.capture, .checkpoint,
        if hooked then some fun label => ask (.startMarker label) else none⟩ := by
      intro hook hsome label P hP
      cases hooked with
      | false => cases hsome
      | true =>
        cases hsome
        exact Keeps.quiet rfl hP
    refine Keeps.pre (Keeps.bind
      ((emitSnapshotStream_spec .checkpoint _ 0 l hhook).frame inStep_stable) ?_)
      (fun w hw => ⟨hw, hw⟩)
    intro emitted
    cases emitted with
    | error e => exact (ih l).pre (fun w hw => hw.1)
    | ok l' => exact (ih l').pre (fun w hw => hw.2 l' rfl)

theorem wait_spec (txid : UInt64) :
    Keeps epoch baseline i (wait txid) (fun _ => True) Behind := by
  have hentered : Keeps epoch baseline i (ask (.wait txid)) (fun _ => True) (fun r w =>
      (r = .returned none → txid ≤ w.barrier.durableTxID) ∧
        ∀ waiter, r = .registered waiter → waiter.txid = txid) := by
    refine Keeps.ask (fun _ _ _ _ => trivial) ?_
    intro w c r w' _ _ hexec
    cases c with
    | proceed =>
      have heq : w.wait txid = (r, w') := Option.some.inj hexec
      have hgrows : Grows epoch baseline w (w.wait txid).2 := Grows.wait w txid
      rw [heq] at hgrows
      refine ⟨hgrows, ?_⟩
      unfold Fleet.wait at heq
      split at heq
      next hle =>
        cases heq
        exact ⟨fun _ => hle, fun _ => nofun⟩
      split at heq
      · cases heq
        exact ⟨nofun, fun _ => nofun⟩
      · cases heq
        refine ⟨nofun, fun waiter hr => ?_⟩
        cases hr
        rfl
    | _ => cases hexec
  apply Keeps.bind hentered
  intro r
  cases r with
  | returned err =>
    apply Keeps.ret
    rintro w ⟨hle, -⟩ txid' heq
    cases heq
    exact hle rfl
  | registered waiter =>
    refine Keeps.pre (Keeps.of_pure (P := fun _ => True) fun hwaiter => ?_)
      (fun w hw => ⟨hw.2 waiter rfl, trivial⟩)
    refine Keeps.bind (M := fun err w => err = none → txid ≤ w.barrier.durableTxID) ?_ ?_
    · refine Keeps.ask (fun _ _ _ _ => trivial) ?_
      intro w c r w' hs _ hexec
      have hsame := exec_quiet rfl hexec
      subst hsame
      refine ⟨.refl _, fun hnone => ?_⟩
      cases c with
      | proceed =>
        obtain ⟨x, hx, heq⟩ := Option.map_eq_some_iff.1 hexec
        have hxr : x = r := congrArg Prod.fst heq
        obtain ⟨a, ha, rfl⟩ := Option.map_eq_some_iff.1 hx
        have hmem := List.mem_of_find?_eq_some ha
        have hname : a.1 = waiter := by simpa using List.find?_some ha
        rw [← hwaiter, ← hname]
        exact hs.released a hmem (hxr.trans hnone)
      | refuse e =>
        cases hexec
        cases hnone
      | _ => cases hexec
    · intro err
      apply Keeps.ret
      intro w hle txid' heq
      cases heq
      exact hle rfl

theorem requestBaseline_spec (cfg : Config) (shadow : Capture) (hooked : Bool) :
    Keeps epoch baseline i (requestBaseline cfg shadow hooked) (fun _ => True) Behind := by
  have htrue : Stable epoch baseline fun _ => True := fun _ _ _ _ => trivial
  apply Keeps.bind (keeps_lock (.inl rfl) htrue)
  intro cuts
  refine Keeps.bind (M := fun _ _ => True) ?_ ?_
  · refine (Snapshotter.run_spec ?_ 0).mono (fun _ h => h) fun _ _ _ => trivial
    intro hook hsome label P hP
    cases hsome
    refine Keeps.bind (keeps_lock (.inr ⟨_, rfl⟩) hP) fun _ => ?_
    cases hooked with
    | true => exact Keeps.quiet rfl hP
    | false => exact Keeps.ret fun _ h => h
  rintro ⟨err, st⟩
  dsimp only
  split
  · refine Keeps.bind (keeps_lock (.inr ⟨_, rfl⟩) htrue) fun _ => ?_
    cases err <;> exact Keeps.ret fun _ _ => by rintro _ ⟨⟩
  · cases err <;> exact Keeps.ret fun _ _ => by rintro _ ⟨⟩

theorem deliver_spec (answers : Nat) :
    Keeps epoch baseline i (deliver answers) (fun _ => True) Behind := by
  induction answers with
  | zero => exact Keeps.ret fun _ _ => nofun
  | succ answers ih =>
    refine Keeps.bind (M := fun _ _ => True) ?_ fun _ => ih
    refine Keeps.ask (fun _ _ _ _ => trivial) ?_
    intro w c r w' _ _ hexec
    cases c with
    | result call r =>
      obtain ⟨x, hx, heq⟩ := Option.map_eq_some_iff.1 hexec
      cases heq
      exact ⟨Grows.deliver hx, trivial⟩
    | _ => cases hexec

theorem around_spec (a : Around) :
    Keeps epoch baseline i a.prog (fun _ => True) Behind := by
  cases a with
  | writer txid => exact wait_spec txid
  | baseline cfg shadow hooked => exact requestBaseline_spec cfg shadow hooked
  | fleet answers => exact deliver_spec answers

end Loop

/-! ## Runs -/

def startPool (cfg : Config) (capture₀ : Capture) (snapshots : List Bool) (rounds : Nat)
    (around : List Around) (proven : List Bytes) : Pool ops Fleet Finished :=
  ⟨⟨Fleet.start capture₀.nextTxID proven, []⟩,
    capture cfg rounds snapshots (Loop.start capture₀) :: around.map Around.prog⟩

theorem sound_start (epoch baseline : UInt64) (proven : List Bytes) :
    Sound epoch baseline (Fleet.start baseline proven) := by
  refine ⟨fun hlt => ?_, ?_, ?_⟩
  · exact absurd hlt (UInt64.lt_irrefl baseline)
  · intro n segment hcall
    cases hcall
  · exact fun a ha => absurd ha List.not_mem_nil

/-- In every run, a writer whose `Wait` returned nil is covered by the proven segments. -/
theorem waited_covered {cfg : Config} {capture₀ : Capture} {snapshots : List Bool} {rounds : Nat}
    {around : List Around} {proven : List Bytes} {schedule : List (Nat × Choice)}
    {pool : Pool ops Fleet Finished}
    (hrun : (startPool cfg capture₀ snapshots rounds around proven).run exec schedule = some pool)
    {i : Nat} {txid : UInt64} (hreturned : pool.progs[i]? = some (.ret (.waited txid none)))
    (habove : capture₀.nextTxID < txid) :
    Covered capture₀.epoch capture₀.nextTxID pool.state.shared.proven txid := by
  have hsound := sound_start capture₀.epoch capture₀.nextTxID proven
  have hstart : InStep cfg capture₀.epoch capture₀.nextTxID (Loop.start capture₀)
      (Fleet.start capture₀.nextTxID proven) :=
    ⟨rfl, ⟨capture₀.nextTxID, [], .inl rfl, .nil, nofun⟩, fun hne => absurd rfl hne⟩
  have hall : ∀ j p, (startPool cfg capture₀ snapshots rounds around proven).progs[j]? = some p →
      Spec exec (fun s s' => Grows capture₀.epoch capture₀.nextTxID s.shared s'.shared) j p
        (fun a s => Sound capture₀.epoch capture₀.nextTxID s.shared ∧ Behind a s.shared)
        (startPool cfg capture₀ snapshots rounds around proven).state := by
    intro j p hp
    rcases List.mem_cons.1 (List.mem_of_getElem? hp) with rfl | hp
    · exact capture_spec rounds snapshots _ _ hsound hstart
    · obtain ⟨a, -, rfl⟩ := List.mem_map.1 hp
      exact around_spec a _ hsound trivial
  have hresult := (Pool.run_specs (Q := fun _ a s =>
      Sound capture₀.epoch capture₀.nextTxID s.shared ∧ Behind a s.shared)
    (fun _ _ _ h h' => h.trans h') (fun s => .refl s.shared)
    (fun _ a _ _ h hgrows _ => ⟨hgrows.sound h.1,
      fun txid hr => UInt64.le_trans (h.2 txid hr) hgrows.durable⟩) hall hrun).2 _ _ hreturned
  have hle := hresult.2 txid rfl
  exact (hresult.1.covered (UInt64.lt_of_lt_of_le habove hle)).of_le hle

/-! ### One write -/

def plainConfig : Config := ⟨false, false, false, false, 0, 0, 0, 0⟩

/-- One round over a log with one transaction, whose writer waits at the end. -/
def oneWrite : Option (Pool ops Fleet Finished) :=
  (startPool plainConfig sampleCapture [] 1 [.writer 1] []).run exec
    [(0, .proceed), (0, .proceed),
      (0, .observed (.file 64 (sampleWal 1 (some samplePage)) (sampleWal 1 (some samplePage)))),
      (0, .proceed), (0, .answer false), (0, .proceed), (0, .proceed), (1, .proceed)]

/-- The writer has returned nil for this transaction. -/
def releasedAt (txid : UInt64) (pool : Pool ops Fleet Finished) : Bool :=
  match (pool.progs[1]? : Option (Prog ops Finished)) with
  | some (.ret (.waited t none)) => t = txid
  | _ => false

theorem releasedAt_eq_true {txid : UInt64} {pool : Pool ops Fleet Finished}
    (h : releasedAt txid pool = true) : pool.progs[1]? = some (.ret (.waited txid none)) := by
  unfold releasedAt at h
  split at h
  next t hret =>
    have heq : t = txid := of_decide_eq_true h
    rw [hret, heq]
  · cases h

theorem waited_covered_oneWrite :
    ∃ pool, oneWrite = some pool ∧ Covered 1 0 pool.state.shared.proven 1 := by
  have hcheck : oneWrite.any (releasedAt 1) = true := by decide +kernel
  obtain ⟨pool, hpool, hreleased⟩ := (Option.any_eq_true _ _).1 hcheck
  exact ⟨pool, hpool, waited_covered hpool (releasedAt_eq_true hreleased) (by decide)⟩

end CellHive.SqlCapture
