import Mathlib

/-!
# Strings

The few functions of Go's `strings` and `strconv` that name handling uses, on lists
of characters. Object names are ASCII, so a character is a byte.
-/

namespace CellHive.Go

abbrev Str := List Char

instance instLawfulBEqStr : LawfulBEq Str := inferInstance

def hasSuffix (s suffix : Str) : Bool := suffix.isSuffixOf s

def cutSuffix (s suffix : Str) : Option Str :=
  if hasSuffix s suffix then some (s.take (s.length - suffix.length)) else none

def trimSuffix (s suffix : Str) : Str := (cutSuffix s suffix).getD s

def cutStart (s start : Str) : Option Str :=
  if start.isPrefixOf s then some (s.drop start.length) else none

/-- The text before and after the first `c`, as `strings.IndexByte` cuts it. -/
def cutAt (c : Char) : Str → Option (Str × Str)
  | [] => none
  | x :: s => if x = c then some ([], s) else (cutAt c s).map fun p => (x :: p.1, p.2)

/-- The text before and after the first `sub`, as `strings.Index` cuts it. -/
def cutSub (sub : Str) : Str → Option (Str × Str)
  | [] => if sub = [] then some ([], []) else none
  | x :: s =>
    match cutStart (x :: s) sub with
    | some rest => some ([], rest)
    | none => (cutSub sub s).map fun p => (x :: p.1, p.2)

def containsSub (s sub : Str) : Bool := (cutSub sub s).isSome

def afterLast (c : Char) (s : Str) : Str := (s.reverse.takeWhile (· ≠ c)).reverse

def digit (c : Char) : Option Nat :=
  if '0' ≤ c ∧ c ≤ '9' then some (c.toNat - '0'.toNat) else none

/-- The number a list of digits denotes, after the number `acc`. -/
def parseDigits : Nat → Str → Option Nat
  | acc, [] => some acc
  | acc, c :: s =>
    match digit c with
    | none => none
    | some d => parseDigits (acc * 10 + d) s

/-- `strconv.ParseUint(s, 10, bits)`: no sign, at least one digit, in range. -/
def parseUint (bits : Nat) (s : Str) : Option Nat :=
  if s = [] then none
  else
    match parseDigits 0 s with
    | none => none
    | some n => if n < 2 ^ bits then some n else none

def formatUint (n : Nat) : Str := Nat.toDigits 10 n

/-- The ASCII characters `strings.TrimSpace` drops. -/
def isSpace (c : Char) : Bool :=
  c = ' ' ∨ c = '\t' ∨ c = '\n' ∨ c = '\x0b' ∨ c = '\x0c' ∨ c = '\r'

def trimSpace (s : Str) : Str := ((s.dropWhile isSpace).reverse.dropWhile isSpace).reverse

/-- The words of `s`, after the part `word` of the first one. -/
def fieldsFrom : Str → Str → List Str
  | word, [] => if word = [] then [] else [word]
  | word, c :: s =>
    if isSpace c then
      if word = [] then fieldsFrom [] s else word :: fieldsFrom [] s
    else fieldsFrom (word ++ [c]) s

def fields (s : Str) : List Str := fieldsFrom [] s

def atoi (s : Str) : Option Int :=
  match s with
  | '-' :: digits => ((parseUint 64 digits).filter (· ≤ 2 ^ 63)).map fun n : Nat => -(n : Int)
  | '+' :: digits => (parseUint 63 digits).map Int.ofNat
  | digits => (parseUint 63 digits).map Int.ofNat

/-! ## Numbers in decimal form -/

variable {c : Char} {s suffix x sub : Str} {n : Nat}

theorem digit_of_isDigit (h : c.isDigit = true) : digit c = some (c.toNat - '0'.toNat) := by
  rw [Char.isDigit, Bool.and_eq_true, decide_eq_true_eq, decide_eq_true_eq] at h
  exact if_pos h

theorem parseDigits_of_isDigit (h : ∀ c ∈ s, c.isDigit = true) (acc : Nat) :
    parseDigits acc s = some (Nat.ofDigitChars 10 s acc) := by
  induction s generalizing acc with
  | nil => rfl
  | cons c s ih =>
    rw [parseDigits, digit_of_isDigit (h c List.mem_cons_self), Nat.ofDigitChars_cons]
    dsimp only
    rw [ih fun c hc => h c (List.mem_cons_of_mem _ hc), Nat.mul_comm]

theorem isDigit_of_mem_formatUint (h : c ∈ formatUint n) : c.isDigit = true :=
  Nat.isDigit_of_mem_toDigits (by decide) (by decide) h

theorem formatUint_lt (h : n < 10) : formatUint n = [n.digitChar] :=
  Nat.toDigits_of_lt_base h

theorem formatUint_ge (h : 10 ≤ n) :
    formatUint n = formatUint (n / 10) ++ [(n % 10).digitChar] :=
  Nat.toDigits_of_base_le (by decide) h

theorem formatUint_ne_nil (n : Nat) : formatUint n ≠ [] := by
  by_cases hn : n < 10
  · simp [formatUint_lt hn]
  · simp [formatUint_ge (not_lt.1 hn)]

theorem head_formatUint (hn : n ≠ 0) : (formatUint n).head? ≠ some '0' := by
  induction n using Nat.strong_induction_on with
  | _ n ih =>
    by_cases hlt : n < 10
    · rw [formatUint_lt hlt]
      interval_cases n <;> simp_all [Nat.digitChar]
    · rw [formatUint_ge (by omega), List.head?_append_of_ne_nil _ (formatUint_ne_nil _)]
      exact ih (n / 10) (by omega) (by omega)

theorem parseUint_formatUint {bits n : Nat} (h : n < 2 ^ bits) :
    parseUint bits (formatUint n) = some n := by
  rw [parseUint, if_neg (formatUint_ne_nil n),
    parseDigits_of_isDigit fun c hc => isDigit_of_mem_formatUint hc]
  dsimp only
  rw [formatUint, Nat.ofDigitChars_toDigits (by decide) (by decide), if_pos h]

theorem not_isSpace_of_isDigit (h : c.isDigit = true) : isSpace c = false := by
  rw [Bool.eq_false_iff]
  intro hs
  rcases of_decide_eq_true hs with rfl | rfl | rfl | rfl | rfl | rfl <;> exact absurd h (by decide)

theorem fieldsFrom_append {w : Str} (h : ∀ c ∈ w, isSpace c = false) (word s : Str) :
    fieldsFrom word (w ++ s) = fieldsFrom (word ++ w) s := by
  induction w generalizing word with
  | nil => simp
  | cons c w ih =>
    simp [fieldsFrom, h c List.mem_cons_self, ih fun c hc => h c (List.mem_cons_of_mem _ hc)]

theorem fields_word_space {w : Str} (hw : w ≠ []) (h : ∀ c ∈ w, isSpace c = false) (s : Str) :
    fields (w ++ ' ' :: s) = w :: fields s := by
  have hspace : isSpace ' ' = true := rfl
  rw [fields, fieldsFrom_append h]
  simp [fieldsFrom, hspace, hw, fields]

theorem length_fieldsFrom_le (word s : Str) :
    (fieldsFrom word s).length ≤ s.countP isSpace + 1 := by
  induction s generalizing word with
  | nil => simp only [fieldsFrom]; split <;> simp
  | cons c s ih =>
    simp only [fieldsFrom, List.countP_cons]
    grind

theorem not_isSpace_formatUint : ∀ c ∈ formatUint n, isSpace c = false :=
  fun _ hc => not_isSpace_of_isDigit (isDigit_of_mem_formatUint hc)

@[simp] theorem fields_formatUint_space (n : Nat) (s : Str) :
    fields (formatUint n ++ ' ' :: s) = formatUint n :: fields s :=
  fields_word_space (formatUint_ne_nil n) not_isSpace_formatUint s

@[simp] theorem fields_nil : fields [] = [] := rfl

theorem atoi_formatUint (h : n < 2 ^ 63) : atoi (formatUint n) = some (n : Int) := by
  have hparse := parseUint_formatUint h
  have hdigit : ∀ c ∈ formatUint n, c.isDigit = true := fun c hc => isDigit_of_mem_formatUint hc
  unfold atoi
  split
  · next heq => exact absurd (hdigit '-' (by rw [heq]; exact List.mem_cons_self)) (by decide)
  · next heq => exact absurd (hdigit '+' (by rw [heq]; exact List.mem_cons_self)) (by decide)
  · rw [hparse]
    rfl

theorem parseUint_eq_some {bits n : Nat} (h : parseUint bits s = some n) :
    parseDigits 0 s = some n ∧ n < 2 ^ bits := by
  unfold parseUint at h
  grind

theorem digit_eq_some {d : Nat} (h : digit c = some d) : d < 10 ∧ d.digitChar = c := by
  unfold digit at h
  split at h
  · next hc =>
    cases h
    have h1 : 48 ≤ c.toNat := hc.1
    have h2 : c.toNat ≤ 57 := hc.2
    refine ⟨by change c.toNat - 48 < 10; omega, ?_⟩
    rw [← Char.ofNat_toNat c]
    interval_cases c.toNat <;> rfl
  · cases h

theorem parseDigits_concat (acc : Nat) : parseDigits acc (s ++ [c]) =
    (parseDigits acc s).bind fun n => (digit c).map (n * 10 + ·) := by
  induction s generalizing acc with
  | nil => cases h : digit c <;> simp [parseDigits, h]
  | cons a s ih =>
    rw [List.cons_append, parseDigits, parseDigits]
    cases digit a with
    | none => rfl
    | some d => exact ih _

theorem formatUint_of_digits (hs : s ≠ [])
    (hlead : s.head? = some '0' → s.length = 1) (h : parseDigits 0 s = some n) :
    formatUint n = s := by
  induction s using List.reverseRecOn generalizing n with
  | nil => exact absurd rfl hs
  | append_singleton t c ih =>
    rw [parseDigits_concat] at h
    obtain ⟨m, hm, h⟩ := Option.bind_eq_some_iff.1 h
    obtain ⟨d, hd, rfl⟩ := Option.map_eq_some_iff.1 h
    obtain ⟨hlt, hc⟩ := digit_eq_some hd
    by_cases ht : t = []
    · subst ht
      cases hm
      rw [formatUint_lt (by omega), Nat.zero_add, hc]
      rfl
    · have hhead : t.head? ≠ some '0' := fun h0 => by
        have := hlead (by rw [List.head?_append_of_ne_nil _ ht, h0])
        simp [ht] at this
      have hfirst := ih ht (fun h0 => absurd h0 hhead) hm
      have hne : m ≠ 0 := by
        rintro rfl
        exact hhead (hfirst ▸ rfl)
      rw [formatUint_ge (by omega), show (m * 10 + d) / 10 = m by omega,
        show (m * 10 + d) % 10 = d by omega, hfirst, hc]

theorem atoi_lt {n : Int} (h : atoi s = some n) : n < 2 ^ 63 := by
  unfold atoi at h
  split at h
  · obtain ⟨m, -, rfl⟩ := Option.map_eq_some_iff.1 h
    exact (neg_nonpos.2 (Int.natCast_nonneg m)).trans_lt (by norm_num)
  all_goals
    obtain ⟨m, hm, rfl⟩ := Option.map_eq_some_iff.1 h
    exact Int.ofNat_lt.2 (parseUint_eq_some hm).2

theorem dropWhile_isSpace (h : ∀ c ∈ s, c.isDigit = true) : s.dropWhile isSpace = s := by
  cases s with
  | nil => rfl
  | cons c s =>
    rw [List.dropWhile_cons, not_isSpace_of_isDigit (h c List.mem_cons_self)]
    rfl

theorem trimSpace_formatUint (n : Nat) : trimSpace (formatUint n) = formatUint n := by
  have h : ∀ c ∈ formatUint n, c.isDigit = true := fun c hc => isDigit_of_mem_formatUint hc
  rw [trimSpace, dropWhile_isSpace h, dropWhile_isSpace, List.reverse_reverse]
  intro c hc
  exact h c (List.mem_reverse.1 hc)

/-! ## Suffixes -/

theorem hasSuffix_iff : hasSuffix s suffix = true ↔ suffix <:+ s :=
  List.isSuffixOf_iff_suffix

@[simp] theorem hasSuffix_append_self (s suffix : Str) : hasSuffix (s ++ suffix) suffix = true :=
  hasSuffix_iff.2 (List.suffix_append s suffix)

theorem hasSuffix_append_of_suffix {other : Str} (h : other <:+ suffix) :
    hasSuffix (s ++ suffix) other = true :=
  hasSuffix_iff.2 (h.trans (List.suffix_append s suffix))

/-- A text ends in at most one of two suffixes neither of which ends in the other. -/
theorem hasSuffix_append_of_apart {other : Str} (h : ¬ suffix <:+ other) (h' : ¬ other <:+ suffix)
    (s : Str) : hasSuffix (s ++ suffix) other = false := by
  rw [Bool.eq_false_iff]
  intro hs
  rcases List.suffix_or_suffix_of_suffix (List.suffix_append s suffix) (hasSuffix_iff.1 hs) with
    hl | hr
  · exact h hl
  · exact h' hr

theorem cutSuffix_append (s suffix : Str) : cutSuffix (s ++ suffix) suffix = some s := by
  unfold cutSuffix
  rw [if_pos (hasSuffix_append_self s suffix), List.length_append, Nat.add_sub_cancel,
    List.take_left' rfl]

theorem cutSuffix_of_not (h : hasSuffix s suffix = false) : cutSuffix s suffix = none := by
  unfold cutSuffix
  rw [if_neg (by simp [h])]

theorem cutSuffix_apart {other : Str} (h : ¬ suffix <:+ other) (h' : ¬ other <:+ suffix) :
    cutSuffix (s ++ suffix) other = none :=
  cutSuffix_of_not (hasSuffix_append_of_apart h h' s)

theorem eq_append_of_cutSuffix {base : Str} (h : cutSuffix s suffix = some base) :
    s = base ++ suffix := by
  by_cases hs : hasSuffix s suffix = true
  · obtain ⟨t, rfl⟩ := hasSuffix_iff.1 hs
    rw [cutSuffix_append, Option.some.injEq] at h
    rw [h]
  · rw [cutSuffix_of_not (by simpa using hs)] at h
    cases h

@[simp] theorem trimSuffix_append (s suffix : Str) : trimSuffix (s ++ suffix) suffix = s := by
  rw [trimSuffix, cutSuffix_append]
  rfl

theorem trimSuffix_of_not (h : hasSuffix s suffix = false) : trimSuffix s suffix = s := by
  rw [trimSuffix, cutSuffix_of_not h]
  rfl

/-- A text that ends in a number does not end in a letter. -/
theorem hasSuffix_formatUint (hc : c.isDigit = false) (s t : Str) (n : Nat) :
    hasSuffix (s ++ formatUint n) (t ++ [c]) = false := by
  rw [Bool.eq_false_iff]
  intro h
  obtain ⟨r, hr⟩ := hasSuffix_iff.1 h
  obtain ⟨digits, d, hd⟩ := List.eq_nil_or_concat (formatUint n) |>.resolve_left (formatUint_ne_nil n)
  have hdigit : d.isDigit = true := by
    apply isDigit_of_mem_formatUint (n := n)
    rw [hd]
    simp
  rw [hd, ← List.append_assoc, List.concat_eq_append, ← List.append_assoc] at hr
  have hcd := (List.append_inj' hr rfl).2
  rw [List.cons_eq_cons.1 hcd |>.1, hdigit] at hc
  cases hc

/-! ## Cutting at a separator -/

theorem cutAt_append (h : c ∉ x) (y : Str) : cutAt c (x ++ c :: y) = some (x, y) := by
  induction x with
  | nil => simp [cutAt]
  | cons a x ih =>
    have ha : a ≠ c := fun e => h (e ▸ List.mem_cons_self)
    rw [List.cons_append, cutAt, if_neg ha, ih fun hx => h (List.mem_cons_of_mem a hx)]
    rfl

theorem eq_append_of_cutAt {y : Str} (h : cutAt c s = some (x, y)) : s = x ++ c :: y := by
  induction s generalizing x with
  | nil => cases h
  | cons a s ih =>
    rw [cutAt] at h
    split at h
    · next ha =>
      cases h
      rw [ha]
      rfl
    · obtain ⟨p, hp, he⟩ := Option.map_eq_some_iff.1 h
      cases he
      rw [ih hp]
      rfl

theorem cutAt_eq_none (h : c ∉ x) : cutAt c x = none := by
  induction x with
  | nil => rfl
  | cons a x ih =>
    have ha : a ≠ c := fun e => h (e ▸ List.mem_cons_self)
    rw [cutAt, if_neg ha, ih fun hx => h (List.mem_cons_of_mem a hx)]
    rfl

theorem cutStart_append (start rest : Str) : cutStart (start ++ rest) start = some rest := by
  unfold cutStart
  rw [if_pos (List.isPrefixOf_iff_prefix.2 (List.prefix_append _ _)), List.drop_left]

theorem eq_append_of_cutStart {start rest : Str} (h : cutStart s start = some rest) :
    s = start ++ rest := by
  unfold cutStart at h
  split at h
  · next hp =>
    obtain ⟨t, rfl⟩ := List.isPrefixOf_iff_prefix.1 hp
    rw [List.drop_left, Option.some.injEq] at h
    rw [h]
  · cases h

theorem cutStart_cons_of_ne {a : Char} (h : a ≠ c) : cutStart (a :: x) (c :: sub) = none := by
  unfold cutStart
  simp [List.isPrefixOf, Ne.symm h]

theorem cutSub_append (h : c ∉ x) (y : Str) :
    cutSub (c :: sub) (x ++ c :: (sub ++ y)) = some (x, y) := by
  induction x with
  | nil =>
    have hcut : cutStart (c :: (sub ++ y)) (c :: sub) = some y := cutStart_append _ y
    rw [List.nil_append, cutSub, hcut]
  | cons a x ih =>
    have ha : a ≠ c := fun e => h (e ▸ List.mem_cons_self)
    rw [List.cons_append, cutSub, cutStart_cons_of_ne ha]
    rw [ih fun hx => h (List.mem_cons_of_mem a hx)]
    rfl

theorem cutSub_eq_none (h : c ∉ x) : cutSub (c :: sub) x = none := by
  induction x with
  | nil => rw [cutSub, if_neg (by simp)]
  | cons a x ih =>
    have ha : a ≠ c := fun e => h (e ▸ List.mem_cons_self)
    rw [cutSub, cutStart_cons_of_ne ha]
    rw [ih fun hx => h (List.mem_cons_of_mem a hx)]
    rfl

theorem afterLast_append {y : Str} (h : c ∉ y) : afterLast c (x ++ c :: y) = y := by
  unfold afterLast
  rw [List.reverse_append, List.reverse_cons, List.append_assoc, List.takeWhile_append_of_pos]
  · simp
  · intro a ha
    have : a ≠ c := fun e => h (e ▸ List.mem_reverse.1 ha)
    simpa using this

theorem not_mem_formatUint (hc : c.isDigit = false) (n : Nat) : c ∉ formatUint n := by
  intro h
  rw [isDigit_of_mem_formatUint h] at hc
  cases hc

theorem formatUint_injective {a b : Nat} (h : formatUint a = formatUint b) : a = b := by
  have hread : ∀ n, n ≤ a + b → parseUint (a + b) (formatUint n) = some n := by
    intro n hn
    exact parseUint_formatUint (Nat.lt_two_pow_self.trans_le (Nat.pow_le_pow_right (by decide) hn))
  have ha := hread a (Nat.le_add_right a b)
  rw [h, hread b (Nat.le_add_left b a), Option.some.injEq] at ha
  exact ha.symm

end CellHive.Go
