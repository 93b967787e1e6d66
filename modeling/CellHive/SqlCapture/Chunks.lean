import CellHive.SqlCapture.Poll
import Mathlib.Data.Finset.Card
import Mathlib.Data.Fintype.Card

/-!
# The chunks of a poll

`chunkTransactions` cuts a poll without losing or reordering a transaction. Its running page count
is the number of distinct pages that the current chunk writes, so a chunk of several transactions
keeps to the byte bound, as long as that bound is computed without overflow.
-/

namespace CellHive.SqlCapture

open Go Ltx

/-! ## Concatenation -/

theorem flatten_flush (c : Chunker) : c.flush.chunks.flatten = c.chunks.flatten ++ c.current := by
  unfold Chunker.flush
  split
  next hempty => rw [hempty, List.append_nil]
  · simp

theorem flatten_add (pageSize : UInt32) (c : Chunker) (tx : WALTransaction) :
    (c.add pageSize tx).chunks.flatten ++ (c.add pageSize tx).current =
      c.chunks.flatten ++ c.current ++ [tx] := by
  have hflush : c.flush.chunks.flatten ++ c.flush.current = c.chunks.flatten ++ c.current := by
    rw [flatten_flush]
    unfold Chunker.flush
    split
    next hempty => rw [hempty, List.append_nil, List.append_nil]
    · simp
  unfold Chunker.add
  dsimp only
  split
  · rw [← hflush, List.append_assoc]
  · rw [List.append_assoc]

theorem flatten_chunkTransactions (pageSize : UInt32) (txs : List WALTransaction) :
    (chunkTransactions pageSize txs).flatten = txs := by
  have hfold : ∀ c : Chunker, (txs.foldl (Chunker.add pageSize) c).chunks.flatten ++
      (txs.foldl (Chunker.add pageSize) c).current = c.chunks.flatten ++ c.current ++ txs := by
    induction txs with
    | nil => simp
    | cons tx txs ih =>
      intro c
      rw [List.foldl_cons, ih, flatten_add, List.append_assoc, List.singleton_append]
  rw [chunkTransactions, flatten_flush, hfold]
  rfl

/-! ## Distinct pages -/

def writtenPages (chunk : List WALTransaction) : Finset UInt32 :=
  ((chunk.flatMap (·.frames)).map (·.pageNo)).toFinset

theorem writtenPages_concat (chunk : List WALTransaction) (tx : WALTransaction) :
    writtenPages (chunk ++ [tx]) = writtenPages chunk ∪ (tx.frames.map (·.pageNo)).toFinset := by
  simp [writtenPages]

theorem card_writtenPages_le (chunk : List WALTransaction) : (writtenPages chunk).card ≤ 2 ^ 32 := by
  have hmaps : ∀ p ∈ writtenPages chunk, p.toNat ∈ Finset.range (2 ^ 32) :=
    fun p _ => Finset.mem_range.2 p.toNat_lt
  have hle := Finset.card_le_card_of_injOn UInt32.toNat hmaps
    fun _ _ _ _ heq => UInt32.toNat_inj.1 heq
  rwa [Finset.card_range] at hle

/-- What `countNew` keeps: the pages seen are listed once, and it counts those it adds. -/
theorem countNew_spec {seen : List UInt32} (hseen : seen.Nodup) (tx : WALTransaction) :
    (countNew seen tx).2.Nodup ∧
      (countNew seen tx).2.toFinset = seen.toFinset ∪ (tx.frames.map (·.pageNo)).toFinset ∧
      (countNew seen tx).1 + seen.length = (countNew seen tx).2.length := by
  unfold countNew
  induction tx.frames using List.reverseRecOn with
  | nil => simpa using hseen
  | append_singleton frames frame ih =>
    obtain ⟨hnodup, hset, hcount⟩ := ih
    rw [List.foldl_append, List.foldl_cons, List.foldl_nil]
    split
    next hold =>
      refine ⟨hnodup, ?_, hcount⟩
      rw [List.map_append, List.toFinset_append, ← Finset.union_assoc, ← hset]
      simp [Finset.insert_eq_of_mem (List.mem_toFinset.2 hold)]
    next hnew =>
      refine ⟨List.nodup_cons.2 ⟨hnew, hnodup⟩, ?_, ?_⟩
      · rw [List.map_append, List.toFinset_append, ← Finset.union_assoc, ← hset]
        simp
      · rw [List.length_cons, ← hcount]
        omega

/-! ## Bounds -/

structure Within (pageSize : UInt32) (chunk : List WALTransaction) : Prop where
  length_le : chunk.length ≤ maxCaptureTransactions
  /-- with a larger page size the byte bound may overflow -/
  payload : pageSize.toNat + 4 < 2 ^ 31 → 1 < chunk.length →
    20 + (writtenPages chunk).card * (4 + pageSize.toNat) ≤ maxCapturePayloadBytes

structure Chunker.Bounded (pageSize : UInt32) (c : Chunker) : Prop where
  chunks : ∀ chunk ∈ c.chunks, chunk ≠ [] ∧ Within pageSize chunk
  current : Within pageSize c.current
  nodup : c.seen.Nodup
  seen : c.seen.toFinset = writtenPages c.current
  pages : c.pages = c.seen.length

namespace Chunker.Bounded

variable {pageSize : UInt32} {c : Chunker}

theorem flush (h : c.Bounded pageSize) : c.flush.Bounded pageSize ∧ c.flush.current = [] := by
  unfold Chunker.flush
  split
  next hempty => exact ⟨h, hempty⟩
  next hsome =>
    refine ⟨⟨?_, ⟨Nat.zero_le _, fun _ hlen => absurd hlen (by simp)⟩, .nil, rfl, rfl⟩, rfl⟩
    intro chunk hchunk
    rcases List.mem_append.1 hchunk with hchunk | hchunk
    · exact h.chunks chunk hchunk
    · rw [List.mem_singleton.1 hchunk]
      exact ⟨hsome, h.current⟩

theorem pages_countNew (h : c.Bounded pageSize) (tx : WALTransaction) :
    c.pages + (countNew c.seen tx).1 = (writtenPages (c.current ++ [tx])).card := by
  obtain ⟨hnodup, hset, hcount⟩ := countNew_spec h.nodup tx
  rw [writtenPages_concat, ← h.seen, ← hset, List.toFinset_card_of_nodup hnodup, ← hcount, h.pages,
    Nat.add_comm]

theorem push (h : c.Bounded pageSize) (tx : WALTransaction)
    (hfits : Within pageSize (c.current ++ [tx])) :
    Chunker.Bounded pageSize { c with
      current := c.current ++ [tx]
      seen := (countNew c.seen tx).2
      pages := c.pages + (countNew c.seen tx).1 } := by
  obtain ⟨hnodup, hset, hcount⟩ := countNew_spec h.nodup tx
  refine ⟨h.chunks, hfits, hnodup, ?_, ?_⟩
  · rw [hset, h.seen, writtenPages_concat]
  · rw [← hcount, h.pages, Nat.add_comm]

theorem add (h : c.Bounded pageSize) (tx : WALTransaction) : (c.add pageSize tx).Bounded pageSize := by
  unfold Chunker.add
  dsimp only
  split
  · obtain ⟨hflushed, hempty⟩ := h.flush
    apply hflushed.push
    rw [hempty]
    exact ⟨Nat.one_le_two_pow (n := 9), fun _ hlen => absurd hlen (by simp)⟩
  next hroom =>
    have hroom : c.current ≠ [] → c.current.length < maxCaptureTransactions ∧
        Int.bmod (20 + (c.pages + (countNew c.seen tx).1) * (4 + pageSize.toNat) : Nat) (2 ^ 64) ≤
          maxCapturePayloadBytes := by
      simpa only [Chunker.full, decide_eq_true_eq, not_and, not_or, not_le, not_lt] using hroom
    apply h.push
    refine ⟨?_, fun hsmall hlen => ?_⟩
    · by_cases hempty : c.current = []
      · rw [hempty]
        exact Nat.one_le_two_pow (n := 9)
      · rw [List.length_append]
        exact (hroom hempty).1
    · have hpayload := (hroom fun hempty => by simp [hempty] at hlen).2
      rw [h.pages_countNew tx] at hpayload
      have hle := card_writtenPages_le (c.current ++ [tx])
      -- the product of a count and a page size that is below `2 ^ 63`
      have hprod : (writtenPages (c.current ++ [tx])).card * (4 + pageSize.toNat) ≤
          2 ^ 32 * (2 ^ 31 - 1) := Nat.mul_le_mul hle (by omega)
      rw [Int.bmod_eq_of_le (by omega) (by omega)] at hpayload
      exact Int.ofNat_le.1 hpayload

end Chunker.Bounded

theorem fits_chunkTransactions (pageSize : UInt32) (txs : List WALTransaction) :
    ∀ chunk ∈ chunkTransactions pageSize txs, chunk ≠ [] ∧ Within pageSize chunk := by
  have hfold : ∀ c : Chunker, c.Bounded pageSize →
      (txs.foldl (Chunker.add pageSize) c).Bounded pageSize := by
    induction txs with
    | nil => exact fun c h => h
    | cons tx txs ih => exact fun c h => ih _ (h.add tx)
  have hstart : (⟨[], [], [], 0⟩ : Chunker).Bounded pageSize :=
    ⟨nofun, ⟨Nat.zero_le _, fun _ hlen => absurd hlen (by simp)⟩, .nil, rfl, rfl⟩
  exact (hfold _ hstart).flush.1.chunks

theorem chunkTransactions_partition (pageSize : UInt32) (txs : List WALTransaction) :
    (chunkTransactions pageSize txs).flatten = txs ∧
      ∀ chunk ∈ chunkTransactions pageSize txs,
        chunk ≠ [] ∧ chunk.length ≤ maxCaptureTransactions ∧
          (pageSize.toNat + 4 < 2 ^ 31 → 1 < chunk.length →
            20 + (writtenPages chunk).card * (4 + pageSize.toNat) ≤ maxCapturePayloadBytes) := by
  refine ⟨flatten_chunkTransactions pageSize txs, fun chunk hchunk => ?_⟩
  obtain ⟨hne, hfits⟩ := fits_chunkTransactions pageSize txs chunk hchunk
  exact ⟨hne, hfits.length_le, hfits.payload⟩

/-! ## Overflow -/

/-- A transaction that writes each of the first `n` pages once. -/
def firstPages (n : Nat) : WALTransaction :=
  ⟨(List.range n).map fun k => ⟨UInt32.ofNat k, 0, []⟩⟩

theorem card_firstPages {n : Nat} (h : n ≤ 2 ^ 32) :
    ((firstPages n).frames.map (·.pageNo)).toFinset.card = n := by
  rw [firstPages, List.map_map, List.toFinset_card_of_nodup, List.length_map, List.length_range]
  refine List.Nodup.map_on (fun a ha b hb heq => ?_) List.nodup_range
  have heq := congrArg UInt32.toNat heq
  simp only [Function.comp_apply, UInt32.toNat_ofNat'] at heq
  rwa [Nat.mod_eq_of_lt ((List.mem_range.1 ha).trans_le h),
    Nat.mod_eq_of_lt ((List.mem_range.1 hb).trans_le h)] at heq

/-- With this page size the payload of all pages is `2 ^ 64` bytes, which is computed as none. -/
theorem full_of_overflow (tx : WALTransaction) (seen : List UInt32) :
    Chunker.full ⟨[], [tx], seen, 0 + 2 ^ 32⟩ 4294967292 0 = false := by
  refine decide_eq_false ?_
  rintro ⟨-, hlen | hpayload⟩
  · exact absurd hlen (by simp [maxCaptureTransactions])
  · dsimp only at hpayload
    revert hpayload
    decide

theorem chunkTransactions_of_overflow {tx : WALTransaction} (hcount : (countNew [] tx).1 = 2 ^ 32) :
    chunkTransactions 4294967292 [tx, ⟨[]⟩] = [[tx, ⟨[]⟩]] := by
  have hfirst : Chunker.add 4294967292 ⟨[], [], [], 0⟩ tx =
      ⟨[], [tx], (countNew [] tx).2, 0 + 2 ^ 32⟩ := by
    rw [← hcount]
    rfl
  have hsecond : countNew (countNew [] tx).2 ⟨[]⟩ = (0, (countNew [] tx).2) := rfl
  rw [chunkTransactions, List.foldl_cons, hfirst, List.foldl_cons, Chunker.add, hsecond,
    full_of_overflow]
  rfl

theorem chunkTransactions_overflow :
    ∃ chunk ∈ chunkTransactions 4294967292 [firstPages (2 ^ 32), ⟨[]⟩], 1 < chunk.length ∧
      maxCapturePayloadBytes < 20 +
        (writtenPages chunk).card * (4 + (4294967292 : UInt32).toNat) := by
  have hcard := card_firstPages (le_refl (2 ^ 32))
  generalize firstPages (2 ^ 32) = tx at hcard ⊢
  obtain ⟨hnodup, hset, hcount⟩ := countNew_spec List.nodup_nil tx
  rw [List.toFinset_nil, Finset.empty_union] at hset
  rw [List.length_nil, Nat.add_zero, ← List.toFinset_card_of_nodup hnodup, hset, hcard] at hcount
  have hpages : writtenPages [tx, ⟨[]⟩] = (tx.frames.map (·.pageNo)).toFinset := by
    simp [writtenPages]
  refine ⟨[tx, ⟨[]⟩], ?_, Nat.one_lt_two, ?_⟩
  · rw [chunkTransactions_of_overflow hcount]
    exact List.mem_singleton_self _
  · rw [hpages, hcard]
    decide

end CellHive.SqlCapture
