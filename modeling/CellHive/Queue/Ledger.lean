import CellHive.Go.Error
import CellHive.Queue.Store

/-!
# The idempotency ledger

A message with a key leaves a receipt beside its row. As long as the receipt has not expired, a
message with the same key and the same payload gets the id of the first one and a message with
another payload fails the whole batch, so that at most one row is inserted for the key.
-/

namespace CellHive.Queue

open Go Sql

variable {μ : Type} [DecidableEq μ]

/-! ## Calls -/

inductive Op
  | send (name generation : Bytes) (items : List (SendMessage × Bytes))
  | transfer (name generation : Bytes) (m : Message) (id : Bytes) (current : Bool)
  | claim (limit leaseMs : Int)
  | ack (ids : List Bytes)
  | retry (id : Bytes) (delayMs : Int)
  | purge
  | removeSource (name source : Bytes) (generation : Option Bytes)

structure Call where
  now : Int
  op : Op

def Op.keyed : Op → List (Bytes × SendMessage)
  | .send _ _ items => items.map fun item => (ledgerKey [] item.1, item.1)
  | .transfer _ _ m _ _ => [(ledgerKey m.id (transferred m), transferred m)]
  | _ => []

variable (env : Env μ)

def Db.exec (db : Db μ) (c : Call) : Except Err (Batch μ) :=
  match c.op with
  | .send name generation items => db.sendBatch env ⟨name, generation, c.now, []⟩ items (.ok ())
  | .transfer name generation m id current => db.transfer env name generation c.now m id current
  | .claim limit leaseMs => .ok ⟨(db.claim c.now limit leaseMs).2, [], []⟩
  | .ack ids => (db.ackMany ids).map fun db => ⟨db, [], []⟩
  | .retry id delayMs => .ok ⟨db.retry c.now id delayMs, [], []⟩
  | .purge => .ok ⟨db.purge, [], []⟩
  | .removeSource name source generation =>
    (db.removeSource name source generation).map fun db => ⟨db, [], []⟩

def Db.commit (db : Db μ) (c : Call) : Db μ :=
  match db.exec env c with
  | .ok b => b.db
  | .error _ => db

def Db.run (db : Db μ) (calls : List Call) : Db μ := calls.foldl (Db.commit env) db

/-! ## One batch -/

section Batch

variable {env} {d : Delivery} {b b' : Batch μ} {m : SendMessage} {id key : Bytes}
  {receipt : Receipt μ}

section Sent

variable (h : sendOne env d b m id = .ok b')
include h

/-- The two ways a message goes through: it has a receipt, or its row and receipt are new. -/
theorem sendOne_eq_ok : ∃ fingerprint, messageFingerprint env m = .ok fingerprint ∧
      ((∃ old, ledgerKey d.transferID m ≠ [] ∧
          b.db.idempotency.get (ledgerKey d.transferID m) = some old ∧
          old.fingerprint = fingerprint ∧ b' = { b with ids := b.ids ++ [old.messageID] }) ∨
        ((ledgerKey d.transferID m ≠ [] →
            b.db.idempotency.get (ledgerKey d.transferID m) = none ∧
              b'.db.idempotency.get (ledgerKey d.transferID m) =
                some ⟨ledgerKey d.transferID m, id, fingerprint, d.now + idempotencyTTL⟩) ∧
          b' = ⟨⟨b.db.messages.insertIgnore (newMessage env d m id),
            if ledgerKey d.transferID m = [] then b.db.idempotency
            else b.db.idempotency.insertIgnore
              ⟨ledgerKey d.transferID m, id, fingerprint, d.now + idempotencyTTL⟩⟩,
            b.ids ++ [id],
            b.inserted ++ [⟨ledgerKey d.transferID m, m, newMessage env d m id⟩]⟩)) := by
  unfold sendOne at h
  rcases hfp : messageFingerprint env m with e | fingerprint
  · simp [hfp] at h
  refine ⟨fingerprint, rfl, ?_⟩
  simp only [hfp] at h
  split at h
  · next old hold =>
    split at h
    · cases h
    next hsame =>
    cases h
    have hkey : ledgerKey d.transferID m ≠ [] := by
      intro hkey
      simp [hkey] at hold
    rw [if_neg hkey] at hold
    exact .inl ⟨old, hkey, hold, not_not.mp hsame, rfl⟩
  · next hnone =>
    split at h
    · cases h
    cases h
    refine .inr ⟨fun hkey => ?_, rfl⟩
    rw [if_neg hkey] at hnone
    refine ⟨hnone, ?_⟩
    rw [if_neg hkey, Table.get_insertIgnore, if_pos rfl, hnone]
    rfl

theorem sendOne_keeps (hget : b.db.idempotency.get key = some receipt) :
    b'.db.idempotency.get key = some receipt := by
  obtain ⟨fingerprint, -, ⟨old, -, -, -, rfl⟩ | ⟨hnone, rfl⟩⟩ := sendOne_eq_ok h
  · exact hget
  split
  · exact hget
  · rw [Table.get_insertIgnore, hget]
    split
    · rfl
    · rfl

theorem sendOne_receipt (hkey : ledgerKey d.transferID m ≠ []) :
    ∃ r, b'.db.idempotency.get (ledgerKey d.transferID m) = some r ∧
      messageFingerprint env m = .ok r.fingerprint ∧ b'.ids = b.ids ++ [r.messageID] := by
  obtain ⟨fingerprint, hfp, ⟨old, -, hold, rfl, rfl⟩ | ⟨hnew, rfl⟩⟩ := sendOne_eq_ok h
  · exact ⟨old, hold, hfp, rfl⟩
  · exact ⟨_, (hnew hkey).2, hfp, rfl⟩

theorem sendOne_ids : ∃ x, b'.ids = b.ids ++ [x] := by
  obtain ⟨fingerprint, -, ⟨old, -, -, -, rfl⟩ | ⟨-, rfl⟩⟩ := sendOne_eq_ok h
  all_goals exact ⟨_, rfl⟩

theorem sendOne_inserted : b'.inserted = b.inserted ∨ ∃ x, b'.inserted = b.inserted ++ [x] ∧
      (x.key ≠ [] → b.db.idempotency.get x.key = none ∧
        ∃ r, b'.db.idempotency.get x.key = some r ∧ r.messageID = x.row.id ∧
          messageFingerprint env x.sent = .ok r.fingerprint ∧
          r.expiresMs = d.now + idempotencyTTL) := by
  obtain ⟨fingerprint, hfp, ⟨old, -, -, -, rfl⟩ | ⟨hnew, rfl⟩⟩ := sendOne_eq_ok h
  · exact .inl rfl
  · exact .inr ⟨_, rfl, fun hkey => ⟨(hnew hkey).1, _, (hnew hkey).2, rfl, hfp, rfl⟩⟩

end Sent

def insertedFor (key : Bytes) (l : List Inserted) : Nat := l.countP fun x => x.key = key

variable {items : List (SendMessage × Bytes)}

theorem sendAll_cons {rest : List (SendMessage × Bytes)}
    (h : sendAll env d b ((m, id) :: rest) = .ok b') :
    ∃ b₁, sendOne env d b m id = .ok b₁ ∧ sendAll env d b₁ rest = .ok b' := by
  rw [sendAll] at h
  cases hone : sendOne env d b m id with
  | error e => simp [hone] at h
  | ok b₁ =>
    rw [hone] at h
    exact ⟨b₁, rfl, h⟩

section SentAll

variable (h : sendAll env d b items = .ok b')
include h

theorem sendAll_keeps (hget : b.db.idempotency.get key = some receipt) :
    b'.db.idempotency.get key = some receipt := by
  induction items generalizing b with
  | nil =>
    cases h
    exact hget
  | cons item rest ih =>
    obtain ⟨b₁, hone, hrest⟩ := sendAll_cons h
    exact ih hrest (sendOne_keeps hone hget)

theorem sendAll_ids : b.ids <+: b'.ids := by
  induction items generalizing b with
  | nil =>
    cases h
    exact List.prefix_rfl
  | cons item rest ih =>
    obtain ⟨b₁, hone, hrest⟩ := sendAll_cons h
    obtain ⟨x, hx⟩ := sendOne_ids hone
    have hprefix := ih hrest
    rw [hx] at hprefix
    exact (List.prefix_append b.ids [x]).trans hprefix

theorem sendAll_receipt {j : Nat} (hj : items[j]? = some (m, id)) (hkey : ledgerKey d.transferID m ≠ []) :
    ∃ r, b'.db.idempotency.get (ledgerKey d.transferID m) = some r ∧
      messageFingerprint env m = .ok r.fingerprint ∧
      b'.ids[b.ids.length + j]? = some r.messageID := by
  induction items generalizing b j with
  | nil => simp at hj
  | cons item rest ih =>
    obtain ⟨b₁, hone, hrest⟩ := sendAll_cons h
    cases j with
    | zero =>
      rw [List.getElem?_cons_zero, Option.some.injEq] at hj
      subst hj
      obtain ⟨r, hr, hfp, hids⟩ := sendOne_receipt hone hkey
      refine ⟨r, sendAll_keeps hrest hr, hfp, ?_⟩
      obtain ⟨more, hmore⟩ := sendAll_ids hrest
      rw [← hmore, hids]
      simp
    | succ j =>
      obtain ⟨r, hr, hfp, hids⟩ := ih hrest hj
      obtain ⟨x, hx⟩ := sendOne_ids hone
      refine ⟨r, hr, hfp, ?_⟩
      rw [← hids, hx, List.length_append, List.length_singleton]
      congr 1
      omega

theorem sendAll_inserted {x : Inserted} (hx : x ∈ b'.inserted) (hnew : x ∉ b.inserted) (hkey : x.key ≠ []) :
    b.db.idempotency.get x.key = none ∧
      ∃ r, b'.db.idempotency.get x.key = some r ∧ r.messageID = x.row.id ∧
        messageFingerprint env x.sent = .ok r.fingerprint ∧
        r.expiresMs = d.now + idempotencyTTL := by
  induction items generalizing b with
  | nil =>
    cases h
    exact absurd hx hnew
  | cons item rest ih =>
    obtain ⟨b₁, hone, hrest⟩ := sendAll_cons h
    have hbefore {k : Bytes} (hk : b₁.db.idempotency.get k = none) :
        b.db.idempotency.get k = none := by
      cases hget : b.db.idempotency.get k with
      | none => rfl
      | some r =>
        rw [sendOne_keeps hone hget] at hk
        cases hk
    by_cases hmem : x ∈ b₁.inserted
    · rcases sendOne_inserted hone with hsame | ⟨y, hy, hreceipt⟩
      · exact absurd (hsame ▸ hmem) hnew
      · rw [hy, List.mem_append, List.mem_singleton] at hmem
        rcases hmem with hmem | rfl
        · exact absurd hmem hnew
        · obtain ⟨hnone, r, hr, hrest'⟩ := hreceipt hkey
          exact ⟨hnone, r, sendAll_keeps hrest hr, hrest'⟩
    · obtain ⟨hnone, hr⟩ := ih hrest hmem
      exact ⟨hbefore hnone, hr⟩

theorem insertedFor_sendAll (hkey : key ≠ []) :
    insertedFor key b'.inserted ≤
      insertedFor key b.inserted + if (b.db.idempotency.get key).isSome then 0 else 1 := by
  induction items generalizing b with
  | nil =>
    cases h
    exact Nat.le_add_right _ _
  | cons item rest ih =>
    obtain ⟨b₁, hone, hrest⟩ := sendAll_cons h
    have hle := ih hrest
    have hmono : (if (b₁.db.idempotency.get key).isSome then 0 else 1) ≤
        if (b.db.idempotency.get key).isSome then 0 else 1 := by
      cases hget : b.db.idempotency.get key with
      | none => split <;> simp
      | some r => simp [sendOne_keeps hone hget]
    rcases sendOne_inserted hone with hsame | ⟨x, hx, hreceipt⟩
    · rw [hsame] at hle
      omega
    rw [hx] at hle
    unfold insertedFor at hle ⊢
    rw [List.countP_append, List.countP_singleton] at hle
    by_cases hk : x.key = key
    · subst hk
      obtain ⟨hnone, r, hr, -⟩ := hreceipt hkey
      rw [hr] at hle
      rw [hnone]
      simpa using hle
    · simp only [hk, decide_false, Bool.false_eq_true, if_false] at hle
      omega

end SentAll

end Batch

/-! ## One call -/

variable {env} {db : Db μ} {c : Call} {b : Batch μ} {key : Bytes} {receipt : Receipt μ}

omit [DecidableEq μ] in
theorem Db.get_expire {now : Int} (hget : db.idempotency.get key = some receipt)
    (hnow : now < receipt.expiresMs) : (db.expire now).idempotency.get key = some receipt := by
  change (db.idempotency.delete _).get key = _
  rw [Table.get_delete, hget]
  simpa using hnow

omit [DecidableEq μ] in
theorem Db.expires_of_get_expire {now : Int} (h : (db.expire now).idempotency.get key = none) :
    ∀ r, db.idempotency.get key = some r → r.expiresMs ≤ now := by
  intro r hr
  by_contra hlt
  rw [Db.get_expire hr (not_le.mp hlt)] at h
  cases h

/-- What a batch leaves, over the ledger `db` it found. -/
structure Posted (env : Env μ) (db : Db μ) (now : Int) (keyed : List (Bytes × SendMessage))
    (b : Batch μ) : Prop where
  keeps : ∀ key r, db.idempotency.get key = some r → now < r.expiresMs →
    b.db.idempotency.get key = some r
  receipts : ∀ (j : Nat) (key : Bytes) (m : SendMessage), keyed[j]? = some (key, m) → key ≠ [] →
    ∃ r, b.db.idempotency.get key = some r ∧ messageFingerprint env m = .ok r.fingerprint ∧
      b.ids[j]? = some r.messageID
  inserted : ∀ x ∈ b.inserted, x.key ≠ [] →
    (∀ r, db.idempotency.get x.key = some r → r.expiresMs ≤ now) ∧
      ∃ r, b.db.idempotency.get x.key = some r ∧ r.messageID = x.row.id ∧
        messageFingerprint env x.sent = .ok r.fingerprint ∧ r.expiresMs = now + idempotencyTTL
  once : ∀ key, key ≠ [] → insertedFor key b.inserted ≤ 1

theorem Posted.of_sendBatch {d : Delivery} {items : List (SendMessage × Bytes)}
    {validate : Except Err Unit} (h : db.sendBatch env d items validate = .ok b) :
    Posted env db d.now (items.map fun item => (ledgerKey d.transferID item.1, item.1)) b := by
  unfold Db.sendBatch at h
  split at h
  · next hempty =>
    cases h
    subst hempty
    exact ⟨fun _ _ hr _ => hr, nofun, nofun, fun _ _ => Nat.zero_le 1⟩
  · split at h
    · cases h
    split at h
    · cases h
    refine ⟨?_, ?_, ?_, ?_⟩
    · exact fun key r hr hnow => sendAll_keeps h (Db.get_expire hr hnow)
    · intro j key m hj hkey
      rw [List.getElem?_map, Option.map_eq_some_iff] at hj
      obtain ⟨⟨m', id⟩, hitem, heq⟩ := hj
      cases heq
      have hreceipt := sendAll_receipt h hitem hkey
      rwa [List.length_nil, Nat.zero_add] at hreceipt
    · intro x hx hkey
      obtain ⟨hnone, hr⟩ := sendAll_inserted h hx nofun hkey
      exact ⟨Db.expires_of_get_expire hnone, hr⟩
    · intro key hkey
      have hle := insertedFor_sendAll h hkey
      rw [insertedFor, insertedFor, List.countP_nil] at hle
      unfold insertedFor
      split at hle <;> omega

omit [DecidableEq μ] in
theorem Posted.of_same (db' : Db μ) (hsame : db'.idempotency = db.idempotency) (now : Int) :
    Posted env db now [] ⟨db', [], []⟩ where
  keeps key r hr _ := by rw [hsame, hr]
  receipts := nofun
  inserted := nofun
  once _ _ := Nat.zero_le 1

theorem Posted.of_exec (h : db.exec env c = .ok b) : Posted env db c.now c.op.keyed b := by
  obtain ⟨now, op⟩ := c
  cases op with
  | send name generation items =>
    have hsend : db.sendBatch env ⟨name, generation, now, []⟩ items (.ok ()) = .ok b := h
    exact Posted.of_sendBatch hsend
  | transfer name generation m id current =>
    have htransfer : db.transfer env name generation now m id current = .ok b := h
    unfold Db.transfer at htransfer
    split at htransfer
    · cases htransfer
    · exact Posted.of_sendBatch htransfer
  | claim | retry | purge =>
    cases h
    refine Posted.of_same _ ?_ now
    rfl
  | ack ids =>
    obtain ⟨db', hack, rfl⟩ := map_eq_ok.mp h
    refine Posted.of_same db' ?_ now
    unfold Db.ackMany at hack
    split at hack
    · cases hack
    split at hack
    · cases hack
    · cases hack
      rfl
  | removeSource name source generation =>
    obtain ⟨db', hremove, rfl⟩ := map_eq_ok.mp h
    refine Posted.of_same db' ?_ now
    unfold Db.removeSource at hremove
    split at hremove
    · cases hremove
    dsimp only at hremove
    split at hremove
    · cases hremove
    · cases hremove
      rfl

/-- The call is not refused for what it carries: its messages pass their checks, and the source
of a transfer is current. -/
def Op.Admitted (env : Env μ) : Op → Prop
  | .send _ _ items => ∀ item ∈ items, checkMessage env item.1 = .ok ()
  | .transfer _ _ m _ current =>
    m.id ≠ [] ∧ checkMessage env (transferred m) = .ok () ∧ current = true
  | _ => True

theorem sendBatch_repeat {d : Delivery} {m : SendMessage} {id : Bytes}
    (hcheck : checkMessage env m = .ok ()) (hkey : ledgerKey d.transferID m ≠ [])
    (hget : db.idempotency.get (ledgerKey d.transferID m) = some receipt)
    (hnow : d.now < receipt.expiresMs)
    (hfp : messageFingerprint env m = .ok receipt.fingerprint) :
    ∃ b, db.sendBatch env d [(m, id)] (.ok ()) = .ok b ∧ b.ids = [receipt.messageID] := by
  have hone : sendOne env d ⟨db.expire d.now, [], []⟩ m id =
      .ok ⟨db.expire d.now, [receipt.messageID], []⟩ := by
    unfold sendOne
    simp [hfp, hkey, Db.get_expire hget hnow]
  refine ⟨⟨db.expire d.now, [receipt.messageID], []⟩, ?_, rfl⟩
  simp [Db.sendBatch, List.mapM_cons, hcheck, sendAll, hone, bind, Except.bind, pure, Except.pure]

theorem exec_repeat {m : SendMessage} (hadmitted : c.op.Admitted env)
    (hkeyed : c.op.keyed = [(key, m)]) (hkey : key ≠ [])
    (hget : db.idempotency.get key = some receipt) (hnow : c.now < receipt.expiresMs)
    (hfp : messageFingerprint env m = .ok receipt.fingerprint) :
    ∃ b, db.exec env c = .ok b ∧ b.ids = [receipt.messageID] := by
  obtain ⟨now, op⟩ := c
  cases op with
  | send name generation items =>
    obtain ⟨⟨m', id⟩, rfl, heq⟩ := List.map_eq_singleton_iff.mp hkeyed
    cases heq
    have hcheck := hadmitted _ (List.mem_singleton.mpr rfl)
    exact sendBatch_repeat hcheck hkey hget hnow hfp
  | transfer name generation m' id current =>
    obtain ⟨hid, hcheck, rfl⟩ := hadmitted
    cases hkeyed
    have hsend : db.exec env ⟨now, .transfer name generation m' id true⟩ =
        db.sendBatch env ⟨name, generation, now, m'.id⟩ [(transferred m', id)] (.ok ()) := by
      change db.transfer env name generation now m' id true = _
      rw [Db.transfer, if_neg hid, if_pos rfl]
    rw [hsend]
    exact sendBatch_repeat hcheck hkey hget hnow hfp
  | _ => cases hkeyed

/-- A keyed message of the call differs in its payload from a receipt that has not expired, or
from another message of the call with the same key. -/
def Conflicts (env : Env μ) (db : Db μ) (c : Call) : Prop :=
  ∃ key m fingerprint, (key, m) ∈ c.op.keyed ∧ key ≠ [] ∧
    messageFingerprint env m = .ok fingerprint ∧
    ((∃ r, db.idempotency.get key = some r ∧ c.now < r.expiresMs ∧ r.fingerprint ≠ fingerprint) ∨
      ∃ m', (key, m') ∈ c.op.keyed ∧ messageFingerprint env m' ≠ .ok fingerprint)

theorem exec_of_conflicts (h : Conflicts env db c) : ∃ e, db.exec env c = .error e := by
  obtain ⟨key, m, fingerprint, hmem, hkey, hfp, hother⟩ := h
  rcases hexec : db.exec env c with e | b
  · exact ⟨e, rfl⟩
  have hposted := Posted.of_exec hexec
  obtain ⟨j, hj⟩ := List.mem_iff_getElem?.mp hmem
  obtain ⟨r, hr, hrfp, -⟩ := hposted.receipts j key m hj hkey
  rw [hfp, Except.ok.injEq] at hrfp
  rcases hother with ⟨old, hold, hnow, hne⟩ | ⟨m', hmem', hne⟩
  · rw [hposted.keeps key old hold hnow, Option.some.injEq] at hr
    exact absurd (hr ▸ hrfp.symm) hne
  · obtain ⟨j', hj'⟩ := List.mem_iff_getElem?.mp hmem'
    obtain ⟨r', hr', hrfp', -⟩ := hposted.receipts j' key m' hj' hkey
    rw [hr, Option.some.injEq] at hr'
    rw [hrfp', ← hr', ← hrfp] at hne
    exact absurd rfl hne

/-! ## Runs -/

theorem sendKey_ne_transferKey (key generation id : Bytes) :
    sendKey key ≠ transferKey generation id := by
  intro h
  have hhead := congrArg List.head? h
  unfold transferKey sendKey at hhead
  split at hhead <;> simp [ascii] at hhead

/-- Calls in the retention of what `c` recorded. -/
def Retained (c : Call) (later : List Call) : Prop := ∀ x ∈ later, x.now < c.now + idempotencyTTL

theorem Db.run_append (env : Env μ) (db : Db μ) (calls more : List Call) :
    db.run env (calls ++ more) = (db.run env calls).run env more :=
  List.foldl_append

theorem get_commit
    (hget : db.idempotency.get key = some receipt) (hnow : c.now < receipt.expiresMs) :
    (db.commit env c).idempotency.get key = some receipt := by
  unfold Db.commit
  cases hexec : db.exec env c with
  | error e => exact hget
  | ok b => exact (Posted.of_exec hexec).keeps key receipt hget hnow

theorem get_run {calls : List Call}
    (hget : db.idempotency.get key = some receipt) (hnow : ∀ c ∈ calls, c.now < receipt.expiresMs) :
    (db.run env calls).idempotency.get key = some receipt := by
  induction calls generalizing db with
  | nil => exact hget
  | cons c calls ih =>
    exact ih (get_commit hget (hnow c List.mem_cons_self))
      fun x hx => hnow x (List.mem_cons_of_mem c hx)

/-- What is promised of an inserted row to a call `c'` within the retention of its key. -/
structure Deduplicated (env : Env μ) (db : Db μ) (x : Inserted) (c' : Call) : Prop where
  /-- No second row. -/
  once : ∀ b, db.exec env c' = .ok b → insertedFor x.key b.inserted = 0
  /-- Every message with the key that goes through gets the id of the row. -/
  sameID : ∀ b, db.exec env c' = .ok b → ∀ (j : Nat) (m : SendMessage),
    c'.op.keyed[j]? = some (x.key, m) → b.ids[j]? = some x.row.id
  /-- A repeat with the same payload goes through. -/
  repeated : ∀ m, c'.op.keyed = [(x.key, m)] →
    messageFingerprint env m = messageFingerprint env x.sent → c'.op.Admitted env →
    ∃ b, db.exec env c' = .ok b ∧ b.ids = [x.row.id]

theorem Deduplicated.of_receipt {x : Inserted} {c' : Call} {r : Receipt μ}
    (hkey : x.key ≠ []) (hget : db.idempotency.get x.key = some r) (hid : r.messageID = x.row.id)
    (hfp : messageFingerprint env x.sent = .ok r.fingerprint) (hnow : c'.now < r.expiresMs) :
    Deduplicated env db x c' where
  once b hb := by
    have hposted := Posted.of_exec hb
    rw [insertedFor, List.countP_eq_zero]
    intro y hy hsame
    have hyx : y.key = x.key := by simpa using hsame
    have hexpired := (hposted.inserted y hy (by rwa [hyx])).1 r (by rwa [hyx])
    omega
  sameID b hb j m hj := by
    have hposted := Posted.of_exec hb
    obtain ⟨r', hr', -, hids⟩ := hposted.receipts j x.key m hj hkey
    rw [hposted.keeps x.key r hget hnow, Option.some.injEq] at hr'
    rw [hids, ← hr', hid]
  repeated m hkeyed hsame hadmitted := by
    obtain ⟨b, hb, hids⟩ := exec_repeat hadmitted hkeyed hkey hget hnow (hsame.trans hfp)
    exact ⟨b, hb, by rw [hids, hid]⟩

-- The second send of a key gets the id of the first, and one row is there.
example :
    let env : Env Unit := ⟨id, fun _ => some (), ()⟩
    let m : SendMessage := { body := [1], idempotencyKey := [7] }
    let first := (Db.new Unit).run env [⟨0, .send [9] [] [(m, [1])]⟩]
    let second := first.exec env ⟨5, .send [9] [] [(m, [2])]⟩
    second.toOption.map (fun b => (b.ids, b.db.messages.rows.length)) = some ([[1]], 1) := by
  decide +kernel

end CellHive.Queue
