import CellHive.Go.Bytes

/-!
# The SQL screen

`ValidatePreparedSQL` and `ValidateExecSQL` of `internal/d1/d1.go` read a text byte by byte and
refuse it for the words and the number of statements they see. SQLite reads the same text by rules
of its own: it also has identifiers in brackets, and `END` is a statement that commits.

Both readings are one scanner, with brackets or without, that gives the bytes outside of quotes and
comments.
-/

namespace CellHive.D1

open Go

inductive Mode
  | code
  | line
  | block
  | quote (q : UInt8)
  | bracket
deriving DecidableEq, Repr

/-- What the scanner gives: a byte of code, the start of a comment, or of a quoted token. -/
inductive Event
  | code (c : UInt8)
  | comment
  | quoted
deriving DecidableEq, Repr

/-- One byte, with the byte after it: the next mode, whether the byte after is skipped, and what
is given. -/
def next (brackets : Bool) (mode : Mode) (c : UInt8) (d : Option UInt8) :
    Mode × Bool × Option Event :=
  match mode with
  | .line => (if c = 10 then .code else .line, false, none)
  | .block => if c = 42 ∧ d = some 47 then (.code, true, none) else (.block, false, none)
  | .quote q =>
    if c = q then if d = some q then (.quote q, true, none) else (.code, false, none)
    else (.quote q, false, none)
  | .bracket => (if c = 93 then .code else .bracket, false, none)
  | .code =>
    if c = 45 ∧ d = some 45 then (.line, true, some .comment)
    else if c = 47 ∧ d = some 42 then (.block, true, some .comment)
    else if c = 39 ∨ c = 34 ∨ c = 96 then (.quote c, false, some .quoted)
    else if brackets ∧ c = 91 then (.bracket, false, some .quoted)
    else (.code, false, some (.code c))

def scan (brackets : Bool) : Mode → Bool → Bytes → List Event
  | _, _, [] => []
  | mode, true, _ :: text => scan brackets mode false text
  | mode, false, c :: text =>
    (next brackets mode c text.head?).2.2.toList ++
      scan brackets (next brackets mode c text.head?).1 (next brackets mode c text.head?).2.1 text

/-! ## The screen -/

/-- The text as the screen reads it. -/
def events (text : Bytes) : List Event := scan false .code false text

def countFrom (start : Bool) (count : Nat) : List Event → Nat
  | [] => if start then count + 1 else count
  | .comment :: es => countFrom start count es
  | .quoted :: es => countFrom true count es
  | .code c :: es =>
    if c = 59 then if start then countFrom false (count + 1) es else countFrom start count es
    else countFrom (start || 32 < c) count es

def sqlStatementCount (text : Bytes) : Nat := countFrom false 0 (events text)

def isLetter (c : UInt8) : Bool := (65 ≤ c && c ≤ 90) || (97 ≤ c && c ≤ 122) || c = 95

def toUpper (c : UInt8) : UInt8 := if 97 ≤ c ∧ c ≤ 122 then c - 32 else c

def flush (b : Bytes) : List Bytes := if b = [] then [] else [b.map toUpper]

def wordsFrom (b : Bytes) : List Event → List Bytes
  | [] => flush b
  | .comment :: es => flush b ++ wordsFrom [] es
  | .quoted :: es => flush b ++ wordsFrom [] es
  | .code c :: es => if isLetter c then wordsFrom (b ++ [c]) es else flush b ++ wordsFrom [] es

def sqlWords (text : Bytes) : List Bytes := wordsFrom [] (events text)

def ascii (s : String) : Bytes := s.toList.map fun c => UInt8.ofNat c.toNat

/-- The statements the screen refuses by their word. -/
def refused : List Bytes :=
  ["BEGIN", "COMMIT", "ROLLBACK", "SAVEPOINT", "RELEASE", "ATTACH", "DETACH", "VACUUM"].map ascii

def maxSQLBytes : Nat := 100 * 1024

def maxParams : Nat := 100

def maxValueBytes : Nat := 2 * 1024 * 1024

inductive Param
  | scalar
  | text (size : Nat)
  | blob (size : Nat)
  /-- A list, and whether all its elements are bytes. -/
  | list (size : Nat) (bytes : Bool)
  | other
deriving DecidableEq, Repr

inductive ScreenError
  | tooLong
  | tooManyParams (n : Nat)
  | unsupportedParam
  | valueTooLong
  | notOneStatement
  | notSupported (word : Bytes)
  | loadExtension
  | temporary
deriving DecidableEq, Repr

def Param.check : Param → Except ScreenError Unit
  | .scalar => .ok ()
  | .text size | .blob size | .list size true => if maxValueBytes < size then .error .valueTooLong
      else .ok ()
  | .list _ false | .other => .error .unsupportedParam

def validateInput (text : Bytes) (params : List Param) : Except ScreenError Unit :=
  if maxSQLBytes < text.length then .error .tooLong
  else if maxParams < params.length then .error (.tooManyParams params.length)
  else params.forM Param.check

def validateWords (words : List Bytes) : Except ScreenError Unit :=
  match words.find? fun w => w ∈ refused ∨ w = ascii "LOAD_EXTENSION" with
  | some w => if w ∈ refused then .error (.notSupported w) else .error .loadExtension
  | none =>
    if (words.zip words.tail).any fun p =>
        p.1 = ascii "CREATE" && (p.2 = ascii "TEMP" || p.2 = ascii "TEMPORARY") then
      .error .temporary
    else .ok ()

def validateExecSQL (text : Bytes) (params : List Param) : Except ScreenError Unit :=
  match validateInput text params with
  | .error e => .error e
  | .ok _ => validateWords (sqlWords text)

def validatePreparedSQL (text : Bytes) (params : List Param) : Except ScreenError Unit :=
  match validateInput text params with
  | .error e => .error e
  | .ok _ => if sqlStatementCount text ≠ 1 then .error .notOneStatement
      else validateWords (sqlWords text)

/-! ## SQLite's reading -/

inductive Tok
  | word (w : Bytes)
  | quoted
  | op (c : UInt8)
deriving DecidableEq, Repr

def isIdChar (c : UInt8) : Bool := isLetter c || (48 ≤ c && c ≤ 57) || c = 36 || 128 ≤ c

def isSpace (c : UInt8) : Bool := c = 9 || c = 10 || c = 12 || c = 13 || c = 32

def close (cur : List Tok) : List (List Tok) := if cur = [] then [] else [cur]

/-- The statements of a text: the tokens between semicolons, where there are any. `cur` are the
tokens of the statement so far and `b` the bytes of the word so far. -/
def statementsFrom (cur : List Tok) (b : Bytes) : List Event → List (List Tok)
  | [] => close (cur ++ (flush b).map .word)
  | .comment :: es => statementsFrom (cur ++ (flush b).map .word) [] es
  | .quoted :: es => statementsFrom (cur ++ (flush b).map .word ++ [.quoted]) [] es
  | .code c :: es =>
    if isIdChar c then statementsFrom cur (b ++ [c]) es
    else if c = 59 then close (cur ++ (flush b).map .word) ++ statementsFrom [] [] es
    else if isSpace c then statementsFrom (cur ++ (flush b).map .word) [] es
    else statementsFrom (cur ++ (flush b).map .word ++ [.op c]) [] es

def statements (text : Bytes) : List (List Tok) := statementsFrom [] [] (scan true .code false text)

/-- A statement that controls the transaction, attaches or detaches a database, or vacuums. -/
def Forbidden (stmt : List Tok) : Prop :=
  ∃ w ∈ ascii "END" :: refused, stmt.head? = some (.word w)

instance (stmt : List Tok) : Decidable (Forbidden stmt) := inferInstanceAs (Decidable (∃ _ ∈ _, _))

/-- What the screen is for. -/
def Screened (text : Bytes) (params : List Param) : Prop :=
  (validatePreparedSQL text params = .ok () →
    (statements text).length = 1 ∧ ∀ stmt ∈ statements text, ¬ Forbidden stmt) ∧
  (validateExecSQL text params = .ok () → ∀ stmt ∈ statements text, ¬ Forbidden stmt)

def Event.ordinary : Event → Bool
  | .code c => c ≠ 91 && (32 < c || isSpace c)
  | _ => true

/-- No bracket, and no control byte other than blanks, outside of quotes and comments. -/
def Ordinary (text : Bytes) : Prop := ∀ e ∈ events text, e.ordinary = true

variable {text w : Bytes} {c : UInt8}

theorem Ordinary.code (h : Ordinary text) (hc : .code c ∈ events text) :
    c ≠ 91 ∧ (c ≤ 32 → isSpace c = true) := by
  have hc := h _ hc
  simp only [Event.ordinary, Bool.and_eq_true, Bool.or_eq_true, decide_eq_true_eq] at hc
  exact ⟨hc.1, fun hle => hc.2.resolve_left (UInt8.not_lt.mpr hle)⟩

/-! ## The two readings -/

/-- Without a bracket in the code both scanners read the same. -/
theorem scan_brackets {mode : Mode} {skip : Bool} (hmode : mode ≠ .bracket)
    (h : .code 91 ∉ scan false mode skip text) :
      scan true mode skip text = scan false mode skip text := by
  induction text generalizing mode skip with
  | nil => rfl
  | cons c text ih =>
    cases skip with
    | true => exact ih hmode h
    | false =>
      have hnext : next true mode c text.head? = next false mode c text.head? ∧
          (next false mode c text.head?).1 ≠ .bracket := by
        simp only [scan, List.mem_append, not_or] at h
        cases mode with
        | code =>
          simp only [next] at h ⊢
          split_ifs at h ⊢ <;> simp_all
        | bracket => exact absurd rfl hmode
        | line | block => simp only [next]; split <;> simp
        | quote q => simp only [next]; split_ifs <;> simp
      simp only [scan, List.mem_append, not_or] at h ⊢
      rw [hnext.1, ih hnext.2 h.2]

theorem lt_of_isIdChar (h : isIdChar c = true) : 32 < c ∧ c ≠ 59 := by
  simp only [isIdChar, isLetter] at h
  grind

theorem isLetter_of_toUpper (h : isLetter (toUpper c) = true) : isLetter c = true := by
  simp only [isLetter, toUpper] at h ⊢
  grind

theorem le_of_isSpace (h : isSpace c = true) : ¬ 32 < c := by
  simp only [isSpace, Bool.or_eq_true, decide_eq_true_eq] at h
  rcases h with (((rfl | rfl) | rfl) | rfl) | rfl <;> decide

theorem length_statementsFrom {es : List Event}
    (hes : ∀ c, .code c ∈ es → c ≤ 32 → isSpace c = true) (cur : List Tok) (b : Bytes) (n : Nat) :
    n + (statementsFrom cur b es).length = countFrom (cur ≠ [] || b ≠ []) n es := by
  induction es generalizing cur b n with
  | nil =>
    by_cases hcur : cur = [] <;> by_cases hb : b = [] <;>
      simp [statementsFrom, countFrom, close, flush, hcur, hb]
  | cons e es ih =>
    have ih := fun cur b n => ih (fun c hc => hes c (List.mem_cons_of_mem e hc)) cur b n
    have hflush : decide (cur ++ (flush b).map Tok.word ≠ []) =
      (decide (cur ≠ []) || decide (b ≠ [])) := by
      by_cases hcur : cur = [] <;> by_cases hb : b = [] <;> simp [flush, hcur, hb]
    cases e with
    | comment =>
      rw [statementsFrom, countFrom, ih, hflush]
      simp
    | quoted =>
      rw [statementsFrom, countFrom, ih]
      simp
    | code c =>
      rw [statementsFrom, countFrom]
      by_cases hid : isIdChar c = true
      · obtain ⟨hlt, hne⟩ := lt_of_isIdChar hid
        rw [if_pos hid, if_neg hne, ih]
        simp [hlt]
      · rw [if_neg hid]
        by_cases hsemi : c = 59
        · rw [if_pos hsemi, if_pos hsemi, List.length_append, ← Nat.add_assoc, ih]
          by_cases hcur : cur = [] <;> by_cases hb : b = [] <;> simp [close, flush, hcur, hb]
        rw [if_neg hsemi, if_neg hsemi]
        by_cases hspace : isSpace c = true
        · rw [if_pos hspace, ih, hflush]
          simp [le_of_isSpace hspace]
        · have hlt : 32 < c := by
            by_contra hle
            exact hspace (hes c List.mem_cons_self (UInt8.not_lt.mp hle))
          rw [if_neg hspace, ih]
          simp [hlt]

theorem word_mem_flush {b g : Bytes} (hg : b.all isLetter = true → g = b)
    (hletters : w.all isLetter = true) (hw : .word w ∈ (flush b).map Tok.word) : w ∈ flush g := by
  obtain ⟨x, hx, hword⟩ := List.mem_map.mp hw
  cases hword
  unfold flush at hx
  split at hx
  · cases hx
  next hb =>
  obtain rfl := List.mem_singleton.mp hx
  have hall : b.all isLetter = true := by
    rw [List.all_map] at hletters
    exact List.all_eq_true.mpr fun c hc => isLetter_of_toUpper (List.all_eq_true.mp hletters c hc)
  simp [flush, hg hall, hb]

/-- A word of letters that SQLite sees is a word the screen sees. `g` is the word of the screen so
far: it is SQLite's word where that has letters only. -/
theorem word_mem_wordsFrom {es : List Event} {cur : List Tok} {b g : Bytes}
    (hg : b.all isLetter = true → g = b) {stmt : List Tok} (hstmt : stmt ∈ statementsFrom cur b es)
    (hw : .word w ∈ stmt) (hletters : w.all isLetter = true) :
    .word w ∈ cur ∨ w ∈ wordsFrom g es := by
  induction es generalizing cur b g with
  | nil =>
    unfold statementsFrom close at hstmt
    split at hstmt
    · cases hstmt
    · obtain rfl := List.mem_singleton.mp hstmt
      exact (List.mem_append.mp hw).imp_right (word_mem_flush hg hletters)
  | cons e es ih =>
    -- after the word so far is flushed on both sides
    have hflushed : ∀ {more : List Tok}, (.word w ∉ more) →
        stmt ∈ statementsFrom (cur ++ (flush b).map .word ++ more) [] es →
        .word w ∈ cur ∨ w ∈ flush g ++ wordsFrom [] es := by
      intro more hmore hstmt
      rcases ih (fun _ => rfl) hstmt with hcur | hwords
      · simp only [List.mem_append, hmore, or_false] at hcur
        exact hcur.imp_right fun hb => List.mem_append_left _ (word_mem_flush hg hletters hb)
      · exact .inr (List.mem_append_right _ hwords)
    cases e with
    | comment =>
      exact hflushed List.not_mem_nil
        (by rwa [statementsFrom, ← List.append_nil (cur ++ _)] at hstmt)
    | quoted => exact hflushed (by simp) hstmt
    | code c =>
      rw [statementsFrom] at hstmt
      rw [wordsFrom]
      by_cases hid : isIdChar c = true
      · rw [if_pos hid] at hstmt
        by_cases hletter : isLetter c = true
        · rw [if_pos hletter]
          refine ih (fun hall => ?_) hstmt
          rw [List.all_append, Bool.and_eq_true] at hall
          rw [hg hall.1]
        · rw [if_neg hletter]
          have hall : (b ++ [c]).all isLetter = true → [] = b ++ [c] := by simp [hletter]
          exact (ih hall hstmt).imp_right (List.mem_append_right _)
      · have hletter : ¬ isLetter c = true := fun h => hid (by simp [isIdChar, h])
        rw [if_neg hid] at hstmt
        rw [if_neg hletter]
        split at hstmt
        · rcases List.mem_append.mp hstmt with hclose | hstmt
          · unfold close at hclose
            split at hclose
            · cases hclose
            obtain rfl := List.mem_singleton.mp hclose
            exact (List.mem_append.mp hw).imp_right fun hb =>
              List.mem_append_left _ (word_mem_flush hg hletters hb)
          · rcases ih (fun _ => rfl) hstmt with hcur | hwords
            · cases hcur
            · exact .inr (List.mem_append_right _ hwords)
        · split at hstmt
          · exact hflushed List.not_mem_nil (by rwa [← List.append_nil (cur ++ _)] at hstmt)
          · exact hflushed (by simp) hstmt

theorem validateWords_eq_ok {words : List Bytes} (h : validateWords words = .ok ())
    (hw : w ∈ refused) : w ∉ words := by
  unfold validateWords at h
  split at h
  · split at h <;> cases h
  · next hnone =>
    intro hmem
    have := List.find?_eq_none.mp hnone w hmem
    simp [hw] at this

theorem head_not_refused (hord : Ordinary text) (h : validateWords (sqlWords text) = .ok ())
    {stmt : List Tok} (hstmt : stmt ∈ statements text) (hw : w ∈ refused) :
    stmt.head? ≠ some (.word w) := by
  intro hhead
  have hletters : ∀ w ∈ refused, w.all isLetter = true := by decide
  have hscan : scan true .code false text = events text :=
    scan_brackets (by simp) fun hmem => (hord.code hmem).1 rfl
  rw [statements, hscan] at hstmt
  rcases word_mem_wordsFrom (fun _ => rfl) hstmt (List.mem_of_mem_head? hhead) (hletters w hw)
    with hnil | hmem
  · cases hnil
  · exact validateWords_eq_ok h hw hmem

end CellHive.D1
