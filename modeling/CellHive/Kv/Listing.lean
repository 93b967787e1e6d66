import CellHive.Go.ByteOrder
import CellHive.Kv.Cell

/-!
# What a listing returns

A listing scans an interval of keys. Below the cursor and above the prefix's upper bound it
cuts exactly where it should; but a cursor replaces the lower bound of the prefix, so a cursor
below the prefix lets the keys between the two through.
-/

namespace CellHive.Kv

open Go Sql

/-! ## The bounds of a scan -/

theorem prefixUpperBound_nil : prefixUpperBound [] = none := rfl

theorem prefixUpperBound_cons (x : UInt8) (p : Key) :
    prefixUpperBound (x :: p) =
      match prefixUpperBound p with
      | some hi => some (x :: hi)
      | none => if x = 0xff then none else some [x + 1] := by
  unfold prefixUpperBound
  rw [List.reverse_cons, List.dropWhile_append]
  cases h : p.reverse.dropWhile (· = 0xff) with
  | nil =>
    by_cases hx : x = 0xff
    · simp [hx]
    · simp [hx]
  | cons b rest => simp

/-- The strings below `hi`, where there is one, as the scan tests it. -/
def Below (hi : Option Key) (k : Key) : Prop := ∀ h, hi = some h → k < h

theorem lt_succ_iff {x c : UInt8} (hx : x ≠ 0xff) : c < x + 1 ↔ c ≤ x := by
  have hlt : x.toNat < 255 := by
    have hbound := x.toNat_lt
    have hne : x.toNat ≠ 255 := fun h => hx (UInt8.toNat_inj.mp h)
    omega
  have hsucc : (x + 1).toNat = x.toNat + 1 := by
    rw [UInt8.toNat_add, UInt8.toNat_one]
    omega
  rw [UInt8.lt_iff_toNat_lt, UInt8.le_iff_toNat_le]
  omega

theorem not_ff_lt (c : UInt8) : ¬ 0xff < c := by
  intro h
  have hbound := c.toNat_lt
  have hlt : (0xff : UInt8).toNat < c.toNat := UInt8.lt_iff_toNat_lt.mp h
  have hff : (0xff : UInt8).toNat = 255 := rfl
  omega

variable {c : Cell} {pfx k after : Key} {now : Int} {r : Row} {n : Nat}

/-- The scan between a string and its upper bound finds the strings that start with it. -/
theorem le_and_below_iff : pfx ≤ k ∧ Below (prefixUpperBound pfx) k ↔ pfx <+: k := by
  induction pfx generalizing k with
  | nil => simp [prefixUpperBound_nil, Below]
  | cons x p ih =>
    cases k with
    | nil =>
      simp only [List.prefix_nil, reduceCtorEq, iff_false, not_and]
      intro h
      exact absurd h (not_cons_le_nil x p)
    | cons c rest =>
      rw [cons_le_cons_iff, List.cons_prefix_cons, ← ih, prefixUpperBound_cons]
      -- which byte the upper bound raises decides what the comparison says of the first one
      cases hb : prefixUpperBound p with
      | some hi =>
        simp only [Below, Option.some.injEq, forall_eq', List.cons_lt_cons_iff]
        constructor
        · rintro ⟨hlo | ⟨rfl, hlo⟩, hhi | ⟨heq, hhi⟩⟩
          · exact absurd (UInt8.lt_trans hlo hhi) (UInt8.lt_irrefl x)
          · exact absurd (heq ▸ hlo) (UInt8.lt_irrefl x)
          · exact absurd hhi (UInt8.lt_irrefl x)
          · exact ⟨rfl, hlo, hhi⟩
        · rintro ⟨rfl, hlo, hhi⟩
          exact ⟨.inr ⟨rfl, hlo⟩, .inr ⟨rfl, hhi⟩⟩
      | none =>
        by_cases hx : x = 0xff
        · subst hx
          simp [Below, not_ff_lt]
        simp only [Below, hx, if_false, Option.some.injEq, forall_eq', List.cons_lt_cons_iff,
          List.not_lt_nil, and_false, or_false, lt_succ_iff hx, reduceCtorEq,
          false_implies, implies_true, and_true]
        constructor
        · rintro ⟨hlo | ⟨rfl, hlo⟩, hle⟩
          · exact absurd (UInt8.lt_of_lt_of_le hlo hle) (UInt8.lt_irrefl x)
          · exact ⟨rfl, hlo⟩
        · rintro ⟨rfl, hlo⟩
          exact ⟨.inr ⟨rfl, hlo⟩, UInt8.le_refl x⟩

theorem below_of_lt (h : k < pfx) : Below (prefixUpperBound pfx) k := by
  intro hi hhi
  have hself : pfx < hi := (le_and_below_iff.mpr (List.prefix_refl pfx)).2 hi hhi
  exact List.lt_trans h hself

theorem scanned_iff : scanned now pfx after r = true ↔
      (if after ≠ [] then after < r.key else pfx ≤ r.key) ∧ live now r = true ∧
        Below (prefixUpperBound pfx) r.key := by
  have hbelow : ((prefixUpperBound pfx).all fun hi => decide (r.key < hi)) = true ↔
      Below (prefixUpperBound pfx) r.key := by
    cases prefixUpperBound pfx <;> simp [Below]
  have hlo : decide ((if after ≠ [] then after ++ [0] else pfx) ≤ r.key) = true ↔
      if after ≠ [] then after < r.key else pfx ≤ r.key := by
    split
    next => rw [decide_eq_true_eq, append_zero_le_iff]
    next => rw [decide_eq_true_eq]
  rw [scanned, Bool.and_eq_true, Bool.and_eq_true, hbelow, hlo, and_assoc]

/-! ## The keys asked for -/

/-- The rows a listing is for: unexpired, with the prefix, after the cursor. -/
def wanted (now : Int) (pfx after : Key) (r : Row) : Bool :=
  live now r && pfx.isPrefixOf r.key && decide (after < r.key)

def Cell.listing (c : Cell) (now : Int) (pfx after : Key) : List Key :=
  (c.kv.orderBy (wanted now pfx after)).map Row.key

theorem wanted_iff :
    wanted now pfx after r = true ↔ live now r = true ∧ pfx <+: r.key ∧ after < r.key := by
  rw [wanted, Bool.and_eq_true, Bool.and_eq_true, List.isPrefixOf_iff_prefix, decide_eq_true_eq,
    and_assoc]

theorem mem_listing : k ∈ c.listing now pfx after ↔
      ∃ r ∈ c.kv.rows, r.key = k ∧ live now r = true ∧ pfx <+: k ∧ after < k := by
  rw [Cell.listing, List.mem_map]
  constructor
  · rintro ⟨r, hr, rfl⟩
    obtain ⟨hmem, hw⟩ := Table.mem_orderBy.mp hr
    exact ⟨r, hmem, rfl, wanted_iff.mp hw⟩
  · rintro ⟨r, hmem, rfl, hw⟩
    exact ⟨r, Table.mem_orderBy.mpr ⟨hmem, wanted_iff.mpr hw⟩, rfl⟩

theorem pairwise_listing (c : Cell) (now : Int) (pfx after : Key) :
    (c.listing now pfx after).Pairwise (· < ·) := by
  have hle := Table.pairwise_orderBy c.kv (wanted now pfx after)
  have hne : (c.kv.orderBy (wanted now pfx after)).Pairwise fun a b => a.key ≠ b.key := by
    have hnodup : (c.kv.orderBy (wanted now pfx after)).Nodup :=
      (List.perm_insertionSort _ _).nodup_iff.mpr ((List.Nodup.of_map _ c.kv.unique).filter _)
    refine hnodup.imp_of_mem ?_
    intro a b ha hb hab hk
    exact hab (Table.key_injOn (Table.mem_orderBy.mp ha).1 (Table.mem_orderBy.mp hb).1 hk)
  rw [Cell.listing, List.pairwise_map]
  refine (hle.and hne).imp ?_
  rintro a b ⟨h, hk⟩
  exact (List.le_iff_lt_or_eq.mp h).resolve_right hk

/-- Nothing lies where the scan looks and the question does not: between a cursor and a prefix
above it, or at the empty key when there is no cursor. -/
def Clear (c : Cell) (now : Int) (pfx after : Key) : Prop :=
  ∀ r ∈ c.kv.rows, live now r = true →
    (after ≠ [] → ¬ (after < r.key ∧ r.key < pfx)) ∧ (after = [] → pfx = [] → r.key ≠ [])

theorem scanned_of_wanted (h : wanted now pfx after r = true) : scanned now pfx after r = true := by
  obtain ⟨hlive, hpfx, hafter⟩ := wanted_iff.mp h
  obtain ⟨hlo, hhi⟩ := le_and_below_iff.mpr hpfx
  rw [scanned_iff]
  refine ⟨?_, hlive, hhi⟩
  split
  next => exact hafter
  next => exact hlo

/-- What a scan returns beside the question is below the prefix, or the empty key. -/
theorem stray_of_scanned (hs : scanned now pfx after r = true)
    (hw : wanted now pfx after r = false) :
    live now r = true ∧
      ((after ≠ [] ∧ after < r.key ∧ r.key < pfx) ∨ (after = [] ∧ pfx = [] ∧ r.key = [])) := by
  obtain ⟨hlo, hlive, hhi⟩ := scanned_iff.mp hs
  have hnot : ¬ (pfx <+: r.key ∧ after < r.key) := by
    intro h
    rw [wanted_iff.mpr ⟨hlive, h⟩] at hw
    cases hw
  refine ⟨hlive, ?_⟩
  by_cases hafter : after = []
  · right
    subst hafter
    have hpfx : pfx <+: r.key := le_and_below_iff.mp ⟨hlo, hhi⟩
    have hempty : r.key = [] := by
      cases hk : r.key with
      | nil => rfl
      | cons x rest => exact absurd ⟨hpfx, hk ▸ List.nil_lt_cons x rest⟩ hnot
    rw [hempty, List.prefix_nil] at hpfx
    exact ⟨rfl, hpfx, hempty⟩
  · left
    rw [if_pos hafter] at hlo
    refine ⟨hafter, hlo, ?_⟩
    by_contra hge
    exact hnot ⟨le_and_below_iff.mp ⟨List.not_lt.mp hge, hhi⟩, hlo⟩

theorem orderBy_scanned (h : Clear c now pfx after) :
    c.kv.orderBy (scanned now pfx after) = c.kv.orderBy (wanted now pfx after) := by
  apply Table.orderBy_congr
  intro r
  constructor
  · rintro ⟨hr, hs⟩
    refine ⟨hr, ?_⟩
    cases hw : wanted now pfx after r with
    | true => rfl
    | false =>
      obtain ⟨hlive, ⟨ha, hstray⟩ | ⟨ha, hp, hk⟩⟩ := stray_of_scanned hs hw
      · exact absurd hstray ((h r hr hlive).1 ha)
      · exact absurd hk ((h r hr hlive).2 ha hp)
  · rintro ⟨hr, hw⟩
    exact ⟨hr, scanned_of_wanted hw⟩

theorem list_of_clear (h : Clear c now pfx after) (limit : Int) :
    c.list now pfx after limit = (c.listing now pfx after).take (clampLimit limit) := by
  rw [Cell.list, Cell.page, orderBy_scanned h, Cell.listing, List.map_take]

/-- A stray key comes out first, so it is on the first page whatever the limit. -/
theorem clear_of_list (hn : 0 < n)
    (h : ((c.kv.orderBy (scanned now pfx after)).map Row.key).take n =
      (c.listing now pfx after).take n) : Clear c now pfx after := by
  by_contra hclear
  obtain ⟨r, hr, hlive, hstray⟩ : ∃ r ∈ c.kv.rows, live now r = true ∧
      ((after ≠ [] ∧ after < r.key ∧ r.key < pfx) ∨ (after = [] ∧ pfx = [] ∧ r.key = [])) := by
    simp only [Clear] at hclear
    push Not at hclear
    obtain ⟨r, hr, hlive, hno⟩ := hclear
    refine ⟨r, hr, hlive, ?_⟩
    by_cases hfirst : after ≠ [] ∧ after < r.key ∧ r.key < pfx
    · exact .inl hfirst
    · exact .inr (hno fun ha hlt => List.not_lt.mpr (List.not_lt.mp fun hp => hfirst ⟨ha, hlt, hp⟩))
  have hscan : scanned now pfx after r = true := by
    rw [scanned_iff]
    rcases hstray with ⟨ha, hlt, hp⟩ | ⟨ha, hp, hk⟩
    · exact ⟨by rwa [if_pos ha], hlive, below_of_lt hp⟩
    · subst ha hp
      exact ⟨by simp [hk], hlive, by simp [Below, prefixUpperBound_nil]⟩
  cases hrows : c.kv.orderBy (scanned now pfx after) with
  | nil =>
    have hmem := Table.mem_orderBy.mpr ⟨hr, hscan⟩
    rw [hrows] at hmem
    cases hmem
  | cons first rest =>
    have hle : first.key ≤ r.key := by
      have hmem := Table.mem_orderBy.mpr ⟨hr, hscan⟩
      have hsorted := Table.pairwise_orderBy c.kv (scanned now pfx after)
      rw [hrows] at hmem hsorted
      rcases List.mem_cons.mp hmem with heq | hmem
      · rw [heq]
        exact List.le_refl _
      · exact (List.pairwise_cons.mp hsorted).1 r hmem
    have hfirst : first.key ∈ c.listing now pfx after := by
      apply List.mem_of_mem_take (i := n)
      rw [← h, hrows]
      obtain ⟨m, rfl⟩ := Nat.exists_eq_succ_of_ne_zero hn.ne'
      exact List.mem_cons_self
    obtain ⟨-, -, -, -, hpfx, hafter⟩ := mem_listing.mp hfirst
    rcases hstray with ⟨ha, hlt, hp⟩ | ⟨ha, hp, hk⟩
    · exact List.lt_irrefl _ (List.lt_of_le_of_lt (le_of_isPrefix hpfx)
        (List.lt_of_le_of_lt hle hp))
    · subst ha
      rw [hk] at hle
      exact hle hafter

/-! ## Paging -/

/-- The cursor the listing handler returns: the last key of a full page. -/
def nextCursor (keys : List Key) (limit : Nat) : Key :=
  if keys.length = limit then keys.getLastD [] else []

/-- A client that passes the cursor back until it is empty. -/
def Cell.listAll (c : Cell) (now : Int) (pfx : Key) (limit : Nat) : Nat → Key → Option (List Key)
  | 0, _ => none
  | fuel + 1, after =>
    let keys := c.list now pfx after limit
    let cursor := nextCursor keys limit
    if cursor = [] then some keys else (c.listAll now pfx limit fuel cursor).map (keys ++ ·)

theorem clampLimit_of_mem (h : 0 < n ∧ n ≤ 1000) : clampLimit n = n := by
  unfold clampLimit
  rw [if_neg (by omega), Int.toNat_natCast]

theorem clear_of_mem (h : k ∈ c.listing now pfx after) : Clear c now pfx k := by
  obtain ⟨-, -, -, -, hpfx, hafter⟩ := mem_listing.mp h
  intro r _ _
  refine ⟨?_, ?_⟩
  · rintro - ⟨hlt, hp⟩
    exact List.lt_irrefl _ (List.lt_of_le_of_lt (le_of_isPrefix hpfx) (List.lt_trans hlt hp))
  · rintro rfl
    exact absurd hafter (List.not_lt_nil after)

theorem listing_after (h : k ∈ c.listing now pfx after) :
    c.listing now pfx k = (c.listing now pfx after).filter (k < ·) := by
  obtain ⟨-, -, -, -, -, hafter⟩ := mem_listing.mp h
  have hrows : c.kv.orderBy (wanted now pfx k) =
      (c.kv.orderBy (wanted now pfx after)).filter (fun r => k < r.key) := by
    rw [Table.orderBy_filter]
    apply Table.orderBy_congr
    intro r
    rw [Bool.and_eq_true, wanted_iff, wanted_iff, decide_eq_true_eq]
    constructor
    · rintro ⟨hr, hlive, hpfx, hlt⟩
      exact ⟨hr, ⟨hlive, hpfx, List.lt_trans hafter hlt⟩, hlt⟩
    · rintro ⟨hr, ⟨hlive, hpfx, -⟩, hlt⟩
      exact ⟨hr, hlive, hpfx, hlt⟩
  rw [Cell.listing, hrows, Cell.listing, List.filter_map]
  rfl

/-- In a strictly increasing list, what is above an element is what comes after it. -/
theorem filter_lt_getLast_take {ks : List Key} (hs : ks.Pairwise (· < ·)) (hn : 0 < n)
    (hlen : n ≤ ks.length) : ks.filter ((ks.take n).getLastD [] < ·) = ks.drop n := by
  obtain ⟨init, last, htake⟩ : ∃ init last, ks.take n = init ++ [last] := by
    have hne : ks.take n ≠ [] := by
      rw [← List.length_pos_iff, List.length_take]
      omega
    exact ⟨_, _, (List.dropLast_append_getLast hne).symm⟩
  have hsplit : ks = init ++ [last] ++ ks.drop n := by rw [← htake, List.take_append_drop]
  rw [htake]
  simp only [List.getLastD_concat]
  rw [hsplit] at hs
  obtain ⟨hleft, hright, hcross⟩ := List.pairwise_append.mp hs
  have hnone : (init ++ [last]).filter (last < ·) = [] := by
    rw [List.filter_eq_nil_iff]
    intro x hx
    rw [decide_eq_true_eq]
    rcases List.mem_append.mp hx with hx | hx
    · exact List.lt_asymm ((List.pairwise_append.mp hleft).2.2 x hx last (by simp))
    · rw [List.mem_singleton.mp hx]
      exact List.lt_irrefl last
  have hall : (ks.drop n).filter (last < ·) = ks.drop n := by
    rw [List.filter_eq_self]
    intro x hx
    rw [decide_eq_true_eq]
    exact hcross last (by simp) x hx
  conv_lhs => rw [hsplit]
  rw [List.filter_append, hnone, hall, List.nil_append]

theorem listAll_of_clear (hn : 0 < n ∧ n ≤ 1000) :
    ∀ (fuel : Nat) (after : Key), (c.listing now pfx after).length < fuel →
      Clear c now pfx after →
      c.listAll now pfx n fuel after = some (c.listing now pfx after) := by
  intro fuel
  induction fuel with
  | zero => omega
  | succ fuel ih =>
    intro after hfuel hclear
    rw [Cell.listAll, list_of_clear hclear, clampLimit_of_mem hn]
    by_cases hlen : n ≤ (c.listing now pfx after).length
    · -- a full page: its last key is the cursor, and the rest of the listing is what follows it
      have hfull : ((c.listing now pfx after).take n).length = n := by
        rw [List.length_take]
        omega
      obtain ⟨init, last, htake⟩ : ∃ init last,
          (c.listing now pfx after).take n = init ++ [last] := by
        have hne : (c.listing now pfx after).take n ≠ [] := by
          rw [← List.length_pos_iff]
          omega
        exact ⟨_, _, (List.dropLast_append_getLast hne).symm⟩
      have hmem : last ∈ c.listing now pfx after := by
        apply List.mem_of_mem_take (i := n)
        rw [htake]
        simp
      have hcursor : nextCursor ((c.listing now pfx after).take n) n = last := by
        rw [nextCursor, if_pos hfull, htake, List.getLastD_concat]
      have hne : last ≠ [] := by
        rintro rfl
        obtain ⟨-, -, -, -, -, hafter⟩ := mem_listing.mp hmem
        exact List.not_lt_nil after hafter
      have hrest : c.listing now pfx last = (c.listing now pfx after).drop n := by
        have hdrop := filter_lt_getLast_take (pairwise_listing c now pfx after) hn.1 hlen
        rw [htake] at hdrop
        rw [listing_after hmem, ← hdrop, List.getLastD_concat]
      rw [hcursor, if_neg hne, ih last ?_ (clear_of_mem hmem), hrest, Option.map_some,
        List.take_append_drop]
      rw [hrest, List.length_drop]
      omega
    · have hshort : ((c.listing now pfx after).take n).length ≠ n := by
        rw [List.length_take]
        omega
      rw [nextCursor, if_neg hshort, if_pos rfl, List.take_of_length_le (by omega)]

/-- A page is the first keys asked for, and the pages from a cursor on are all of them, exactly
when the scan has nothing stray in its way. -/
theorem list_exact_iff (c : Cell) (now : Int) (pfx after : Key) (n : Nat)
    (hn : 0 < n ∧ n ≤ 1000) :
    (c.list now pfx after n = (c.listing now pfx after).take n ∧
      ∃ fuel, c.listAll now pfx n fuel after = some (c.listing now pfx after)) ↔
      Clear c now pfx after := by
  constructor
  · rintro ⟨hpage, -⟩
    apply clear_of_list hn.1
    rw [Cell.list, Cell.page, clampLimit_of_mem hn, List.map_take] at hpage
    exact hpage
  · intro hclear
    refine ⟨?_, _, listAll_of_clear hn _ after (Nat.lt_succ_self _) hclear⟩
    rw [list_of_clear hclear, clampLimit_of_mem hn]

def twoKeys : Cell where
  kv := ⟨[⟨[0x61, 0x62], [1], none, 0, 0⟩, ⟨[0x62], [2], none, 0, 0⟩], by decide⟩
  txid := 2

theorem list_exact_iff_twoKeys :
    (twoKeys.list 5 [0x62] [] 10 = (twoKeys.listing 5 [0x62] []).take 10 ∧
      ∃ fuel, twoKeys.listAll 5 [0x62] 10 fuel [] = some (twoKeys.listing 5 [0x62] [])) ↔
      Clear twoKeys 5 [0x62] [] :=
  list_exact_iff twoKeys 5 [0x62] [] 10 (by decide)

/-- With the prefix `b` and the cursor `a`, the key `ab` is returned. -/
theorem list_returns_stray_key :
    twoKeys.list 5 [0x62] [0x61] 10 = [[0x61, 0x62], [0x62]] ∧
      twoKeys.listing 5 [0x62] [0x61] = [[0x62]] := by
  decide

end CellHive.Kv
