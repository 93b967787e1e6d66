import CellHive.Concurrent.Serial
import CellHive.Timer.IndexSync

/-!
# The index is not behind the timers

If calls on a scope do not overlap, every pending timer has an entry that is due no later, also
where a call is cut off: `Upsert` publishes the entry before the row, and the entry is corrected
from the rows after every other transaction. What the tables need for this is that due times are
positive (0 stands for no timer) and lie in the years whose minutes can be parsed, and that a
retry does not bring the next attempt forward.
-/

namespace CellHive.Timer

open Go Sql Concurrent Prog

variable {τ ω : Type} {scope : Bytes} {w : World τ ω}

/-! ## Entries -/

def World.Covers (scope : Bytes) (w : World τ ω) (d : Int) : Prop :=
  ∃ e, w.index.due.lookup (Wake.dueKey e.dueMs scope) = some e ∧ e.scope = scope ∧
    0 < e.dueMs ∧ e.dueMs ≤ d

theorem World.Covers.mono {d d' : Int} (h : w.Covers scope d) (hd : d ≤ d') :
    w.Covers scope d' := by
  obtain ⟨e, he, hscope, hpos, hle⟩ := h
  exact ⟨e, he, hscope, hpos, hle.trans hd⟩

theorem World.Covers.visible {d nowMs : Int} (h : w.Covers scope d) (hscope : scope ≠ [])
    (hd : d < Wake.endOfMinutes) (hnow : d ≤ nowMs) :
    ∃ e ∈ w.index.dueAt nowMs, e.scope = scope := by
  obtain ⟨e, he, rfl, hpos, hle⟩ := h
  refine Wake.Index.mem_dueAt.mpr ⟨⟨_, e⟩, AList.mem_lookup_iff.mp he, ?_, rfl⟩
  have hstart : Wake.minuteStart (Wake.minuteOf e.dueMs) = some (e.dueMs / 60000 * 60000) := by
    unfold Wake.endOfMinutes at hd
    unfold Wake.minuteStart Wake.minuteOf
    rw [if_pos (by omega)]
  have hbegun : e.dueMs / 60000 * 60000 ≤ nowMs := by omega
  have hdue : ¬ nowMs < e.dueMs := by omega
  simp [Wake.Index.visible, Wake.dueKey, hstart, hbegun, hscope, hdue]

variable {dueMs : Int} {α : Type}

theorem World.covers_insert (due : AList fun _ : Int × Bytes => Wake.Entry) {index : Wake.Index}
    (hpos : 0 < dueMs) (hindex : index.due = due.insert (Wake.dueKey dueMs scope) ⟨scope, dueMs⟩) :
    (w.withIndex index).Covers scope dueMs := by
  refine ⟨⟨scope, dueMs⟩, ?_, rfl, hpos, le_rfl⟩
  change index.due.lookup _ = _
  rw [hindex]
  exact AList.lookup_insert _

def World.dropEntry (scope : Bytes) (w : World τ ω) (ms : Int) : World τ ω :=
  w.withIndex { w.index with due := w.index.due.erase (Wake.dueKey ms scope) }

theorem World.Covers.erase {ms : Int}
    (h : w.index.due.lookup (Wake.dueKey dueMs scope) = some ⟨scope, dueMs⟩) (hpos : 0 < dueMs)
    (hne : Wake.dueKey ms scope ≠ Wake.dueKey dueMs scope) :
    (w.dropEntry scope ms).Covers scope dueMs := by
  refine ⟨⟨scope, dueMs⟩, ?_, rfl, hpos, le_rfl⟩
  change (w.index.due.erase _).lookup _ = _
  rw [AList.lookup_erase_ne hne.symm]
  exact h

theorem write_eq_some {fate : Fate} {f : World τ ω → World τ ω} {r : Bool} {x : World τ ω}
    (h : write w fate f = some (r, x)) : x = f w ∨ (r = false ∧ x = w) := by
  cases fate with
  | done | unreported =>
    cases h
    exact .inl rfl
  | failed =>
    cases h
    exact .inr ⟨rfl, rfl⟩

/-! ## The property and its invariant -/

variable [DecidableEq τ]

/-- `Due` returns the scope from the effective due time of each pending timer on. -/
def World.NotBehind (scope : Bytes) (w : World τ ω) : Prop :=
  ∀ t ∈ w.tables.timers.rows, ∀ nowMs, w.tables.effectiveDue t ≤ nowMs →
    ∃ e ∈ w.index.dueAt nowMs, e.scope = scope

structure World.Inv (scope : Bytes) (w : World τ ω) : Prop where
  positive : ∀ t ∈ w.tables.timers.rows, 0 < t.dueAtMs
  parsed : ∀ t ∈ w.tables.timers.rows, w.tables.effectiveDue t < Wake.endOfMinutes
  retries : ∀ r ∈ w.tables.retry.rows, r.retryAfterMs < Wake.endOfMinutes
  covered : ∀ t ∈ w.tables.timers.rows, w.Covers scope (w.tables.effectiveDue t)

theorem World.Inv.withIndex (h : w.Inv scope) {index : Wake.Index}
    (hcovers : ∀ t ∈ w.tables.timers.rows,
      (w.withIndex index).Covers scope (w.tables.effectiveDue t)) :
    (w.withIndex index).Inv scope :=
  ⟨h.positive, h.parsed, h.retries, hcovers⟩

theorem World.Inv.withPointer (h : w.Inv scope) (ptr : AList fun _ : Bytes => Wake.Entry) :
    (w.withIndex { w.index with ptr }).Inv scope :=
  h.withIndex h.covered

/-! ## The tables -/

namespace Tables

variable {tables : Tables τ ω} {t : Timer τ ω}

theorem dueAtMs_le_effectiveDue (tables : Tables τ ω) (t : Timer τ ω) :
    t.dueAtMs ≤ tables.effectiveDue t := by
  unfold effectiveDue
  split
  · split <;> omega
  · exact le_rfl

theorem effectiveDue_congr {tables' : Tables τ ω}
    (h : tables'.retry.get t.token = tables.retry.get t.token) :
    tables'.effectiveDue t = tables.effectiveDue t := by
  unfold effectiveDue
  rw [h]

theorem effectiveDue_lt (hdue : t.dueAtMs < Wake.endOfMinutes)
    (hretry : ∀ r ∈ tables.retry.rows, r.retryAfterMs < Wake.endOfMinutes) :
    tables.effectiveDue t < Wake.endOfMinutes := by
  unfold effectiveDue
  split
  · next r hr =>
    have hlt := hretry r (Table.get_eq_some.mp hr).1
    split <;> omega
  · exact hdue

theorem nextDue_le (ht : t ∈ tables.timers.rows) : tables.nextDue ≤ tables.effectiveDue t := by
  have hmem : tables.effectiveDue t ∈ tables.timers.rows.map tables.effectiveDue :=
    List.mem_map_of_mem ht
  unfold nextDue
  cases hmin : (tables.timers.rows.map tables.effectiveDue).min? with
  | none =>
    rw [List.min?_eq_none_iff.mp hmin] at hmem
    cases hmem
  | some m =>
    exact (List.min?_eq_some_iff.mp hmin).2 _ hmem

theorem nextDue_pos (hpos : ∀ t ∈ tables.timers.rows, 0 < t.dueAtMs)
    (ht : t ∈ tables.timers.rows) : 0 < tables.nextDue := by
  unfold nextDue
  cases hmin : (tables.timers.rows.map tables.effectiveDue).min? with
  | none =>
    rw [List.min?_eq_none_iff, List.map_eq_nil_iff] at hmin
    rw [hmin] at ht
    cases ht
  | some m =>
    obtain ⟨x, hx, rfl⟩ := List.mem_map.mp (List.min?_eq_some_iff.mp hmin).1
    exact lt_of_lt_of_le (hpos x hx) (tables.dueAtMs_le_effectiveDue x)

end Tables

/-! ## Transactions -/

theorem World.Inv.withTables {tables : Tables τ ω} (h : w.Inv scope)
    (hrows : ∀ t ∈ tables.timers.rows, t ∈ w.tables.timers.rows ∧
      w.tables.effectiveDue t ≤ tables.effectiveDue t)
    (hretries : ∀ r ∈ tables.retry.rows, r.retryAfterMs < Wake.endOfMinutes)
    (hparsed : ∀ t ∈ tables.timers.rows, tables.effectiveDue t < Wake.endOfMinutes) :
    (w.withTables tables).Inv scope where
  positive t ht := h.positive t (hrows t ht).1
  parsed := hparsed
  retries := hretries
  covered t ht := by
    obtain ⟨hold, hle⟩ := hrows t ht
    obtain ⟨e, he, hscope, hpos, hdue⟩ := h.covered t hold
    exact ⟨e, he, hscope, hpos, hdue.trans hle⟩

theorem World.Inv.insert {t : Timer τ ω} (h : w.Inv scope) (hpos : 0 < t.dueAtMs)
    (hend : t.dueAtMs < Wake.endOfMinutes) (hcovers : w.Covers scope t.dueAtMs) :
    (w.withTables (w.tables.insert t)).Inv scope := by
  have hretry : (w.tables.insert t).retry = w.tables.retry := by
    unfold Tables.insert
    split <;> rfl
  have heq (x : Timer τ ω) : (w.tables.insert t).effectiveDue x = w.tables.effectiveDue x :=
    Tables.effectiveDue_congr (by rw [hretry])
  constructor
  · intro x hx
    rcases Tables.mem_insert hx with hx | rfl
    · exact h.positive x hx
    · exact hpos
  · intro x hx
    change (w.tables.insert t).effectiveDue x < _
    rw [heq]
    rcases Tables.mem_insert hx with hx | rfl
    · exact h.parsed x hx
    · exact Tables.effectiveDue_lt hend h.retries
  · change ∀ r ∈ (w.tables.insert t).retry.rows, _
    rw [hretry]
    exact h.retries
  · intro x hx
    change World.Covers scope w ((w.tables.insert t).effectiveDue x)
    rw [heq]
    rcases Tables.mem_insert hx with hx | rfl
    · exact h.covered x hx
    · exact hcovers.mono (w.tables.dueAtMs_le_effectiveDue x)

theorem World.Inv.delete (h : w.Inv scope) {tables : Tables τ ω} {gone : Timer τ ω → Bool}
    {spent : Retry τ → Bool} (htimers : tables.timers = w.tables.timers.delete gone)
    (hretry : tables.retry = w.tables.retry.delete spent)
    (hspent : ∀ t ∈ w.tables.timers.rows, gone t = false → ∀ r, r.token = t.token →
      spent r = false) : (w.withTables tables).Inv scope := by
  have hrows (t : Timer τ ω) (ht : t ∈ tables.timers.rows) :
      t ∈ w.tables.timers.rows ∧ tables.effectiveDue t = w.tables.effectiveDue t := by
    rw [htimers] at ht
    obtain ⟨hmem, hstays⟩ := Table.mem_delete.mp ht
    refine ⟨hmem, Tables.effectiveDue_congr ?_⟩
    rw [hretry, Table.get_delete]
    cases hr : w.tables.retry.get t.token with
    | none => rfl
    | some r => simp [hspent t hmem (by simpa using hstays) r (Table.get_key hr)]
  refine h.withTables (fun t ht => ⟨(hrows t ht).1, (hrows t ht).2.ge⟩) (fun r hr => ?_) ?_
  · rw [hretry] at hr
    exact h.retries r (Table.mem_delete.mp hr).1
  · intro t ht
    rw [(hrows t ht).2]
    exact h.parsed t (hrows t ht).1

theorem World.Inv.markFired (h : w.Inv scope) (token : τ) (expiresMs : Int) :
    (w.withTables (w.tables.markFired token expiresMs)).Inv scope := by
  refine h.delete rfl rfl fun t _ hne r hkey => ?_
  rw [hkey]
  exact hne

variable [DecidableEq ω] in
theorem World.Inv.removeByOccurrence (h : w.Inv scope) (occurrence : ω) :
    (w.withTables (w.tables.removeByOccurrence occurrence)).Inv scope := by
  refine h.delete rfl rfl fun t hmem hocc r hkey => ?_
  have hne : t.occurrence ≠ occurrence := by simpa using hocc
  -- a timer of the occurrence with this token would be `t` itself
  have hother : ¬ ∃ x ∈ w.tables.timers.rows, x.occurrence = occurrence ∧ x.token = r.token := by
    rintro ⟨x, hx, hxocc, hxtoken⟩
    have hsame : x = t := Table.key_injOn hx hmem (hxtoken.trans hkey)
    exact hne (hsame ▸ hxocc)
  simpa using hother

theorem retryDelayMs_le (attempt : Nat) :
    0 ≤ Tables.retryDelayMs attempt ∧ Tables.retryDelayMs attempt ≤ 300000 := by
  have hfold (l : List Nat) (d : Int) (hd : 0 ≤ d) :
      0 ≤ l.foldl (fun d _ => if d < 300000 then d * 2 else d) d := by
    induction l generalizing d with
    | nil => exact hd
    | cons x l ih =>
      refine ih _ ?_
      dsimp only
      split <;> omega
  have hnonneg := hfold (List.range (attempt - 1)) 5000 (by omega)
  unfold Tables.retryDelayMs
  dsimp only
  split <;> omega

variable [DecidableEq ω] in
theorem World.Inv.scheduleRetry {token : τ} {nowMs maxAttempts firedUntilMs : Int}
    {tables : Tables τ ω} (h : w.Inv scope) (hend : nowMs + 300000 < Wake.endOfMinutes)
    (hretry : ∀ r ∈ w.tables.retry.get token, r.retryAfterMs ≤ nowMs)
    (happly : (Tx.scheduleRetry (ω := ω) token nowMs maxAttempts firedUntilMs).apply w.tables =
      some tables) : (w.withTables tables).Inv scope := by
  obtain ⟨r, hr, rfl⟩ := Option.map_eq_some_iff.mp happly
  unfold Tables.scheduleRetryBounded at hr
  split at hr
  · cases hr
  dsimp only at hr
  split at hr
  · cases hr
    exact h.markFired token firedUntilMs
  cases hr
  -- the timer of the token waits until the new time, which is not before the old one
  set attempt := ((w.tables.retry.get token).elim 0 Retry.attempt) + 1
  obtain ⟨hdelay, hdelay'⟩ := retryDelayMs_le attempt
  have hretries : ∀ r ∈ (w.tables.retry.upsert
      ⟨token, attempt, nowMs + Tables.retryDelayMs attempt⟩).rows,
      r.retryAfterMs < Wake.endOfMinutes := by
    intro r hr
    rcases Table.mem_upsert.mp hr with rfl | ⟨hr, -⟩
    · dsimp only
      omega
    · exact h.retries r hr
  refine h.withTables (fun t ht => ⟨ht, ?_⟩) hretries fun t ht => ?_
  · by_cases htoken : token = t.token
    · subst htoken
      unfold Tables.effectiveDue
      rw [Table.get_upsert, if_pos rfl]
      cases hold : w.tables.retry.get t.token with
      | none =>
        dsimp only
        split <;> omega
      | some r =>
        have hle := hretry r hold
        dsimp only
        split <;> split <;> omega
    · refine (Tables.effectiveDue_congr ?_).ge
      rw [Table.get_upsert, if_neg htoken]
  · have hdue := lt_of_le_of_lt (w.tables.dueAtMs_le_effectiveDue t) (h.parsed t ht)
    exact Tables.effectiveDue_lt hdue hretries

/-! ## Programs -/

variable [DecidableEq ω]

/-- A retry is not scheduled before the time the timer already waits for. -/
def Pre : Op τ ω → World τ ω → Prop
  | .tx (.scheduleRetry token nowMs _ _), w =>
    ∀ r ∈ w.tables.retry.get token, r.retryAfterMs ≤ nowMs
  | _, _ => True

instance (op : Op τ ω) (w : World τ ω) : Decidable (Pre op w) := by
  unfold Pre
  split <;> infer_instance

/-- The program, alone on the scope, keeps the invariant and ends with `Q`. -/
abbrev Keeps (scope : Bytes) {α : Type} (p : Prog (ops τ ω) α) (Q : α → World τ ω → Prop)
    (w : World τ ω) : Prop :=
  Alone (exec scope) Pre (World.Inv scope) p Q w

section Programs

variable {Q : α → World τ ω → Prop} (hinv : w.Inv scope)
include hinv

theorem keeps_nextDue {f : Option Int → Prog (ops τ ω) α} (hnone : Keeps scope (f none) Q w)
    (hsome : Keeps scope (f (some w.tables.nextDue)) Q w) :
    Keeps scope (ask .nextDue >>= f) Q w := by
  refine Alone.perform_bind fun _ fate r x hexec => ?_
  cases hexec
  refine ⟨hinv, ?_⟩
  split
  · exact hsome
  · exact hnone

theorem keeps_pointer {f : Option (Option Wake.Entry) → Prog (ops τ ω) α}
    (h : ∀ r, Keeps scope (f r) Q w) : Keeps scope (ask .pointer >>= f) Q w := by
  refine Alone.perform_bind fun _ fate r x hexec => ?_
  cases hexec
  exact ⟨hinv, h _⟩

variable {f : Bool → Prog (ops τ ω) α}

theorem keeps_putPointer {e : Wake.Entry}
    (h : ∀ ok w', w'.tables = w.tables → w'.Inv scope → Keeps scope (f ok) Q w') :
    Keeps scope (ask (.putPointer e) >>= f) Q w := by
  refine Alone.perform_bind fun _ fate ok w' hexec => ?_
  rw [exec] at hexec
  rcases write_eq_some hexec with rfl | ⟨-, rfl⟩
  · exact ⟨hinv.withPointer _, h ok _ rfl (hinv.withPointer _)⟩
  · exact ⟨hinv, h ok _ rfl hinv⟩

theorem keeps_putDue (hpos : 0 < dueMs)
    (hle : ∀ t ∈ w.tables.timers.rows, dueMs ≤ w.tables.effectiveDue t)
    (h : ∀ ok w', w'.tables = w.tables → w'.Inv scope →
      (ok = true → w'.index.due.lookup (Wake.dueKey dueMs scope) = some ⟨scope, dueMs⟩) →
      Keeps scope (f ok) Q w') : Keeps scope (ask (.putDue ⟨scope, dueMs⟩) >>= f) Q w := by
  refine Alone.perform_bind fun _ fate ok w' hexec => ?_
  rw [exec] at hexec
  rcases write_eq_some hexec with rfl | ⟨rfl, rfl⟩
  · have hnew : (w.withIndex { w.index with
        due := w.index.due.insert (Wake.dueKey dueMs scope) ⟨scope, dueMs⟩ }).Inv scope :=
      hinv.withIndex fun t ht => (World.covers_insert _ hpos rfl).mono (hle t ht)
    exact ⟨hnew, h ok _ rfl hnew fun _ => AList.lookup_insert _⟩
  · exact ⟨hinv, h false _ rfl hinv nofun⟩

theorem keeps_deleteDue {ms : Int} (hcovers : ∀ t ∈ w.tables.timers.rows,
      (w.dropEntry scope ms).Covers scope (w.tables.effectiveDue t))
    (hdone : ∀ ok, Keeps scope (f ok) Q (w.dropEntry scope ms))
    (hfailed : Keeps scope (f false) Q w) : Keeps scope (ask (.deleteDue ms) >>= f) Q w := by
  refine Alone.perform_bind fun _ fate ok w' hexec => ?_
  rw [exec] at hexec
  rcases write_eq_some hexec with rfl | ⟨rfl, rfl⟩
  · exact ⟨hinv.withIndex hcovers, hdone ok⟩
  · exact ⟨hinv, hfailed⟩

theorem keeps_deletePointer {Q : Bool → World τ ω → Prop}
    (h : ∀ ok w', w'.tables = w.tables → w'.Inv scope → Q ok w') :
    Keeps scope (ask .deletePointer) Q w := by
  intro _ fate ok w' hexec
  rw [exec] at hexec
  rcases write_eq_some hexec with rfl | ⟨-, rfl⟩
  · exact ⟨hinv.withPointer _, h ok _ rfl (hinv.withPointer _)⟩
  · exact ⟨hinv, h ok _ rfl hinv⟩

theorem keeps_putIndex (hpos : 0 < dueMs)
    (hle : ∀ t ∈ w.tables.timers.rows, dueMs ≤ w.tables.effectiveDue t) :
    Keeps scope (putIndex scope dueMs) (fun ok w' => w'.tables = w.tables ∧ w'.Inv scope ∧
      (ok = true → w'.Covers scope dueMs)) w := by
  refine keeps_pointer hinv fun old => ?_
  refine keeps_putPointer hinv fun ok w₁ htables₁ hinv₁ => ?_
  rcases ok with _ | _
  · exact ⟨htables₁, hinv₁, nofun⟩
  refine keeps_putDue hinv₁ hpos (by rwa [htables₁]) fun ok w₂ htables₂ hinv₂ hlookup => ?_
  rw [htables₁] at htables₂
  rcases ok with _ | _
  · exact ⟨htables₂, hinv₂, nofun⟩
  have hcovers : w₂.Covers scope dueMs :=
    ⟨⟨scope, dueMs⟩, hlookup rfl, rfl, hpos, le_rfl⟩
  rcases old with _ | _ | e
  · exact ⟨htables₂, hinv₂, fun _ => hcovers⟩
  · exact ⟨htables₂, hinv₂, fun _ => hcovers⟩
  · dsimp only
    rw [if_pos rfl]
    split
    · next hne =>
      have hleft := World.Covers.erase (hlookup rfl) hpos hne
      have hall : ∀ t ∈ w₂.tables.timers.rows,
          (w₂.dropEntry scope e.dueMs).Covers scope (w₂.tables.effectiveDue t) := by
        rw [htables₂]
        exact fun t ht => hleft.mono (hle t ht)
      exact keeps_deleteDue hinv₂ hall
        (fun _ => ⟨htables₂, hinv₂.withIndex hall, fun _ => hleft⟩)
        ⟨htables₂, hinv₂, fun _ => hcovers⟩
    · exact ⟨htables₂, hinv₂, fun _ => hcovers⟩

theorem keeps_deleteIndex (hempty : w.tables.timers.rows = []) :
    Keeps scope deleteIndex (fun _ _ => True) w := by
  refine keeps_pointer hinv fun cur => ?_
  rcases cur with _ | _ | e
  · trivial
  · exact keeps_deletePointer hinv fun _ _ _ _ => trivial
  · have hcovers : ∀ t ∈ w.tables.timers.rows,
        (w.dropEntry scope e.dueMs).Covers scope (w.tables.effectiveDue t) := by
      rw [hempty]
      exact nofun
    refine keeps_deleteDue hinv hcovers (fun ok => ?_) trivial
    cases ok with
    | false => trivial
    | true => exact keeps_deletePointer (hinv.withIndex hcovers) fun _ _ _ _ => trivial

theorem keeps_syncIndex : Keeps scope (syncIndex scope) (fun _ _ => True) w := by
  refine keeps_nextDue hinv trivial ?_
  dsimp only
  split
  · next hnext =>
    refine keeps_deleteIndex hinv ?_
    rw [List.eq_nil_iff_forall_not_mem]
    intro t ht
    have hpos := Tables.nextDue_pos hinv.positive ht
    omega
  · next hnext =>
    have hpos : 0 < w.tables.nextDue := by
      cases hrows : w.tables.timers.rows with
      | nil => exact absurd (by simp [Tables.nextDue, hrows]) hnext
      | cons t rest => exact Tables.nextDue_pos hinv.positive (by rw [hrows]; exact List.mem_cons_self)
    exact (keeps_putIndex hinv hpos fun t ht => Tables.nextDue_le ht).mono fun _ _ _ => trivial

variable {tx : Tx τ ω} (hcommit : Pre (.tx tx) w → ∀ tables, tx.apply w.tables = some tables →
  (w.withTables tables).Inv scope)

include hcommit in
theorem keeps_tx (h : ∀ ok w', w'.Inv scope → Keeps scope (f ok) Q w') :
    Keeps scope (ask (.tx tx) >>= f) Q w := by
  refine Alone.perform_bind fun hpre fate ok w' hexec => ?_
  rw [exec] at hexec
  split at hexec
  · next tables happly =>
    rcases write_eq_some hexec with rfl | ⟨-, rfl⟩
    · have hnew := hcommit hpre tables happly
      exact ⟨hnew, h ok _ hnew⟩
    · exact ⟨hinv, h ok _ hinv⟩
  · cases hexec
    exact ⟨hinv, h _ _ hinv⟩

theorem keeps_upsert {t : Timer τ ω} (hpos : 0 < t.dueAtMs)
    (hend : t.dueAtMs < Wake.endOfMinutes) :
    Keeps scope (upsert scope t) (fun _ _ => True) w := by
  refine keeps_nextDue hinv trivial ?_
  -- the entry is put for the earlier of the new timer and the pending ones
  set dueMs := if 0 < w.tables.nextDue ∧ w.tables.nextDue < t.dueAtMs then w.tables.nextDue
    else t.dueAtMs with hdef
  have hduePos : 0 < dueMs := by
    rw [hdef]
    split <;> omega
  have hdueLe : dueMs ≤ t.dueAtMs := by
    rw [hdef]
    split <;> omega
  have hrows : ∀ x ∈ w.tables.timers.rows, dueMs ≤ w.tables.effectiveDue x := by
    intro x hx
    have hnext := Tables.nextDue_pos hinv.positive hx
    have hle := Tables.nextDue_le hx
    rw [hdef]
    split <;> omega
  refine (keeps_putIndex hinv hduePos hrows).seq fun ok w₁ ⟨_, hinv₁, hcovers⟩ => ?_
  rcases ok with _ | _
  · trivial
  refine keeps_tx hinv₁ (fun _ tables happly => ?_) fun ok w₂ hinv₂ => ?_
  · cases happly
    exact hinv₁.insert hpos hend ((hcovers rfl).mono hdueLe)
  · exact (keeps_syncIndex hinv₂).seq fun _ _ _ => trivial

include hcommit in
theorem keeps_commitThenSync :
    Keeps scope (commitThenSync scope tx) (fun _ _ => True) w := by
  refine keeps_tx hinv hcommit fun ok w₁ hinv₁ => ?_
  cases ok with
  | false => trivial
  | true => exact (keeps_syncIndex hinv₁).seq fun _ _ _ => trivial

end Programs

/-! ## Runs -/

/-- The times of a call lie in the years whose minutes can be parsed, and a due time is
positive. -/
def Call.Valid : Call τ ω → Prop
  | .upsert t => 0 < t.dueAtMs ∧ t.dueAtMs < Wake.endOfMinutes
  | .scheduleRetry _ nowMs _ _ => nowMs + 300000 < Wake.endOfMinutes
  | _ => True

theorem keeps_prog {c : Call τ ω} (hc : c.Valid) (hinv : w.Inv scope) :
    Keeps scope (c.prog scope) (fun _ _ => True) w := by
  cases c with
  | upsert t => exact keeps_upsert hinv hc.1 hc.2
  | markFired token expiresMs =>
    refine keeps_commitThenSync hinv fun _ tables happly => ?_
    cases happly
    exact hinv.markFired token expiresMs
  | removeByOccurrence occurrence =>
    refine keeps_commitThenSync hinv fun _ tables happly => ?_
    cases happly
    exact hinv.removeByOccurrence occurrence
  | scheduleRetry token nowMs maxAttempts firedUntilMs =>
    exact keeps_commitThenSync hinv fun hpre tables happly => hinv.scheduleRetry hc hpre happly
  | syncIndex => exact keeps_syncIndex hinv

/-- The calls on a scope with no timers and no entry, before any of them has begun. -/
def pool (scope : Bytes) (calls : List (Call τ ω)) : Pool (ops τ ω) (World τ ω) Bool :=
  ⟨⟨⟨Tables.empty, Wake.Index.empty⟩, []⟩, calls.map (Call.prog scope)⟩

/-- In every run of valid calls in which no call takes a step between two steps of another and no
retry is brought forward, the index is not behind the timers, wherever the calls are cut off. -/
theorem index_not_behind (scope : Cell.Scope) (calls : List (Call τ ω))
    (hcalls : ∀ c ∈ calls, c.Valid) (schedule : List (Nat × Fate))
    (hserial : Serial (schedule.map Prod.fst))
    (hmeets : (pool scope.string calls).RunMeets (exec scope.string) Pre schedule)
    (last : Pool (ops τ ω) (World τ ω) Bool)
    (hrun : (pool scope.string calls).run (exec scope.string) schedule = some last) :
    last.state.shared.NotBehind scope.string := by
  have hstart : (pool scope.string calls).state.shared.Inv scope.string :=
    ⟨nofun, nofun, nofun, nofun⟩
  have hprogs : ∀ p ∈ (pool scope.string calls).progs, ∀ w : World τ ω, w.Inv scope.string →
      Keeps scope.string p (fun _ _ => True) w := by
    intro p hp w hinv
    obtain ⟨c, hc, rfl⟩ := List.mem_map.mp hp
    exact keeps_prog (hcalls c hc) hinv
  have hinv := Pool.run_serial hstart hserial hmeets
    (fun _ _ p hp => .inl (hprogs p (List.mem_of_getElem? hp))) hrun
  intro t ht _ hnow
  exact (hinv.covered t ht).visible (by simp [Cell.Scope.string]) (hinv.parsed t ht) hnow

def alarm (n : Nat) (dueAtMs : Int) : Timer Nat Nat := ⟨n, dueAtMs, .doAlarm, [], n⟩

def aScope : Cell.Scope := ⟨[97], [98], [99]⟩

/-- A timer is inserted; the insert of a second one is cut off after its entry is put. -/
def insertTwo : Pool (ops Nat Nat) (World Nat Nat) Bool :=
  pool aScope.string [.upsert (alarm 0 90000), .upsert (alarm 1 30000)]

def insertTwoSteps : List (Nat × Fate) :=
  (List.replicate 9 0 ++ List.replicate 4 1).map fun i => (i, .done)

theorem index_not_behind_insertTwo :
    ∃ last, insertTwo.run (exec aScope.string) insertTwoSteps = some last ∧
      last.state.shared.NotBehind aScope.string := by
  have hsome : (insertTwo.run (exec aScope.string) insertTwoSteps).isSome := by decide +kernel
  obtain ⟨last, hlast⟩ := Option.isSome_iff_exists.mp hsome
  refine ⟨last, hlast, index_not_behind aScope _ ?_ insertTwoSteps (by decide +kernel)
    (by decide +kernel) last hlast⟩
  intro c hc
  simp only [List.mem_cons, List.not_mem_nil, or_false] at hc
  rcases hc with rfl | rfl
  · exact ⟨by decide, by decide⟩
  · exact ⟨by decide, by decide⟩

/-- The entry is synchronised while a timer is inserted: what the first call read before the
insert makes it delete the entry after it. -/
def syncInsert : Pool (ops Nat Nat) (World Nat Nat) Bool :=
  pool aScope.string [.syncIndex, .upsert (alarm 0 100)]

def syncInsertSteps : List (Nat × Fate) :=
  ([0] ++ List.replicate 5 1 ++ List.replicate 3 0).map fun i => (i, .done)

theorem overlapping_sync_deletes_entry :
    ∃ last, syncInsert.run (exec aScope.string) syncInsertSteps = some last ∧
      ¬ last.state.shared.NotBehind aScope.string := by
  have hsome : (syncInsert.run (exec aScope.string) syncInsertSteps).isSome := by decide +kernel
  obtain ⟨last, hlast⟩ := Option.isSome_iff_exists.mp hsome
  have hend : (syncInsert.run (exec aScope.string) syncInsertSteps).map (fun p =>
      (p.state.shared.tables.timers.rows, p.state.shared.tables.effectiveDue (alarm 0 100),
        p.state.shared.index.dueAt 100)) = some ([alarm 0 100], 100, []) := by
    decide +kernel
  rw [hlast, Option.map_some, Option.some.injEq, Prod.mk.injEq, Prod.mk.injEq] at hend
  obtain ⟨hrows, hdue, hindex⟩ := hend
  refine ⟨last, hlast, fun h => ?_⟩
  obtain ⟨e, he, -⟩ := h (alarm 0 100) (by simp [hrows]) 100 (by omega)
  rw [hindex] at he
  cases he

end CellHive.Timer
