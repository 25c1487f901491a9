import ZramUpgrade.Lz4.Primitives

/-!
# Lz4.Block — what an LZ4 block is

The block format over a byte memory `b`, stated against the plain text `s` of `total` bytes it
stands for.  `SeqAt` is one sequence (token, literals, offset, match length), `Parsed` the sequences
from the start up to a position, `Rest` the sequences from a position up to the last literals.  The
parsing restrictions are part of the format: the last match starts at least 12 bytes and ends at
least 5 bytes before the end of the text.
-/

namespace ZramUpgrade.Lz4

open Lib

/-- The extension bytes of a length: `v / 255` bytes `255` and one byte `v % 255`, from `i` to `j`. -/
structure LenBytes (b : Mem) (i v j : ℕ) : Prop where
  last : j = i + v / 255 + 1
  full : ∀ k < v / 255, b (i + k) = 255
  rest : (b (i + v / 255)).toNat = v % 255

/-- A length `v`: its nibble in the token, and extension bytes from `i` to `j` if the nibble is 15. -/
def LenField (b : Mem) (nibble i v j : ℕ) : Prop :=
  if v < 15 then nibble = v ∧ j = i else nibble = 15 ∧ LenBytes b i (v - 15) j

/-- At `i` of the block and `a` of the text: `lit` literals, whose bytes start at `p`, then a match
of `mc + 4` bytes from `off` back.  The next sequence starts at `i'`. -/
structure SeqAt (b s : Mem) (i a lit p off mc i' : ℕ) : Prop where
  litLength : LenField b ((b i).toNat / 16) (i + 1) lit p
  literals : ∀ k < lit, b (p + k) = s (a + k)
  offset : readLE16 b (p + lit) = off
  off_pos : 0 < off
  off_le : off ≤ a + lit
  matchLength : LenField b ((b i).toNat % 16) (p + lit + 2) mc i'
  copies : ∀ k < mc + 4, s (a + lit + k) = s (a + lit + k - off)

/-- A literal run with no match length yet: the token and length bytes of `lit` literals at `token`;
the literals go to `op`. -/
structure RunAt (b : Mem) (token lit op : ℕ) : Prop where
  litLength : LenField b ((b token).toNat / 16) (token + 1) lit op
  low : (b token).toNat % 16 = 0

/-- The last literals at `i`, for the text from `a` on; the block ends at `n`. -/
structure LastAt (b s : Mem) (total i a n : ℕ) : Prop where
  run : ∃ p, RunAt b i (total - a) p ∧ n = p + (total - a) ∧ ∀ k < total - a, b (p + k) = s (a + k)
  le_total : a ≤ total

/-- A match of `mc + 4` bytes at `q` of the text leaves the room the parsing restrictions ask for. -/
def RoomAfter (total q mc : ℕ) : Prop := q + 12 ≤ total ∧ q + (mc + 4) + 5 ≤ total

/-- The first `i` bytes of the block are sequences for the first `a` bytes of the text. -/
inductive Parsed (b s : Mem) (total : ℕ) : ℕ → ℕ → Prop where
  | start : Parsed b s total 0 0
  | seq {i a lit p off mc i' : ℕ} (h : Parsed b s total i a) (hs : SeqAt b s i a lit p off mc i')
      (hr : RoomAfter total (a + lit) mc) : Parsed b s total i' (a + lit + (mc + 4))

/-- The bytes from `i` to `n` of the block stand for the text from `a` on. -/
inductive Rest (b s : Mem) (total n : ℕ) : ℕ → ℕ → Prop where
  | last {i a : ℕ} (h : LastAt b s total i a n) : Rest b s total n i a
  | seq {i a lit p off mc i' : ℕ} (hs : SeqAt b s i a lit p off mc i')
      (hr : RoomAfter total (a + lit) mc) (h : Rest b s total n i' (a + lit + (mc + 4))) :
      Rest b s total n i a

/-! ## Lengths -/

section Len

variable {b b' s : Mem} {nibble i v j : ℕ}

theorem LenBytes.lt (h : LenBytes b i v j) : i < j := by
  have := h.last
  omega

theorem LenBytes.congr (h : LenBytes b i v j) (hb : ∀ k, i ≤ k → k < j → b' k = b k) :
    LenBytes b' i v j := by
  have hj := h.last
  refine ⟨hj, fun k hk => ?_, ?_⟩
  · rw [hb _ (by omega) (by omega), h.full k hk]
  · rw [hb _ (by omega) (by omega), h.rest]

/-- One more `255` in front. -/
theorem LenBytes.cons (h : LenBytes b (i + 1) v j) (hb : b i = 255) : LenBytes b i (v + 255) j := by
  have hj := h.last
  have hdiv : (v + 255) / 255 = v / 255 + 1 := by omega
  refine ⟨by omega, fun k hk => ?_, ?_⟩
  · cases k with
    | zero => exact hb
    | succ k =>
      have := h.full k (by omega)
      rwa [Nat.add_assoc, Nat.add_comm 1 k] at this
  · have := h.rest
    rw [hdiv, show i + (v / 255 + 1) = i + 1 + v / 255 by omega, this]
    omega

theorem LenBytes.head (h : LenBytes b i (v + 255) j) : b i = 255 := h.full 0 (by omega)

theorem LenBytes.tail (h : LenBytes b i (v + 255) j) : LenBytes b (i + 1) v j := by
  have hj := h.last
  have hdiv : (v + 255) / 255 = v / 255 + 1 := by omega
  refine ⟨by omega, fun k hk => ?_, ?_⟩
  · have := h.full (k + 1) (by omega)
    rwa [Nat.add_assoc, Nat.add_comm 1 k]
  · have := h.rest
    rw [hdiv, show i + (v / 255 + 1) = i + 1 + v / 255 by omega] at this
    omega

theorem LenField.of_lt (hv : v < 15) : LenField b v i v i := by
  rw [LenField, if_pos hv]
  exact ⟨rfl, rfl⟩

theorem LenField.of_le (hv : 15 ≤ v) (h : LenBytes b i (v - 15) j) : LenField b 15 i v j := by
  rw [LenField, if_neg (by omega)]
  exact ⟨rfl, h⟩

/-- A nibble below 15 is the whole length. -/
theorem LenField.short (h : LenField b nibble i v j) (hn : nibble ≠ 15) : v = nibble ∧ j = i := by
  rw [LenField] at h
  split at h
  · exact ⟨h.1.symm, h.2⟩
  · exact absurd h.1 hn

/-- The nibble 15 is followed by extension bytes. -/
theorem LenField.long (h : LenField b nibble i v j) (hn : nibble = 15) :
    15 ≤ v ∧ LenBytes b i (v - 15) j := by
  rw [LenField] at h
  split at h
  · omega
  · exact ⟨by omega, h.2⟩

theorem LenField.le (h : LenField b nibble i v j) : i ≤ j := by
  rw [LenField] at h
  split at h
  · omega
  · exact h.2.lt.le

theorem LenField.congr (h : LenField b nibble i v j) (hb : ∀ k, i ≤ k → k < j → b' k = b k) :
    LenField b' nibble i v j := by
  rw [LenField] at h ⊢
  split
  · next hv => rwa [if_pos hv] at h
  · next hv =>
    rw [if_neg hv] at h
    exact ⟨h.1, h.2.congr hb⟩

/-- The size of a length field. -/
theorem LenField.size (h : LenField b nibble i v j) : 255 * j ≤ 255 * i + v + 240 ∧
    (v < 15 → j = i) := by
  rw [LenField] at h
  split at h
  · omega
  · have := h.2.last
    omega

end Len

/-! ## Sequences -/

section Seq

variable {b b' s : Mem} {i a lit p off mc i' total n : ℕ}

theorem SeqAt.lits_le (h : SeqAt b s i a lit p off mc i') : i + 1 ≤ p := h.litLength.le

theorem SeqAt.end_le (h : SeqAt b s i a lit p off mc i') : p + lit + 2 ≤ i' := h.matchLength.le

theorem SeqAt.congr (h : SeqAt b s i a lit p off mc i') (hb : Agree b' b i') :
    SeqAt b' s i a lit p off mc i' := by
  have h1 := h.lits_le
  have h2 := h.end_le
  have hi : b' i = b i := hb i (by omega)
  refine ⟨?_, fun k hk => ?_, ?_, h.off_pos, h.off_le, ?_, h.copies⟩
  · rw [hi]
    exact h.litLength.congr fun k _ hk => hb k (by omega)
  · rw [hb _ (by omega), h.literals k hk]
  · rw [← h.offset]
    exact leValue_congr fun k hk => hb _ (by omega)
  · rw [hi]
    exact h.matchLength.congr fun k _ hk => hb k hk

/-- A sequence is never much longer than its text. -/
theorem SeqAt.size (h : SeqAt b s i a lit p off mc i') :
    255 * i' ≤ 255 * i + 256 * (lit + (mc + 4)) := by
  obtain ⟨h1, h1'⟩ := h.litLength.size
  obtain ⟨h2, h2'⟩ := h.matchLength.size
  -- a length below 15 costs nothing; one from 15 on pays for its extension bytes
  by_cases hl : lit < 15 <;> by_cases hm : mc < 15
  · have e1 := h1' hl
    have e2 := h2' hm
    linarith
  · have e1 := h1' hl
    linarith
  · have e2 := h2' hm
    linarith
  · linarith

theorem Parsed.congr (h : Parsed b s total i a) (hb : Agree b' b i) : Parsed b' s total i a := by
  induction h with
  | start => exact .start
  | seq _ hs hr ih =>
    have h1 := hs.lits_le
    have h2 := hs.end_le
    exact .seq (ih (hb.mono (by omega))) (hs.congr hb) hr

/-- Every sequence before the position is at most 256 bytes of block for 255 bytes of text. -/
theorem Parsed.size (h : Parsed b s total i a) : 255 * i ≤ 256 * a := by
  induction h with
  | start => omega
  | seq _ hs _ ih =>
    have := hs.size
    linarith

theorem RunAt.lt {op : ℕ} (h : RunAt b i lit op) : i < op := h.litLength.le

theorem RunAt.congr {op : ℕ} (h : RunAt b i lit op) (hb : Agree b' b op) : RunAt b' i lit op := by
  have ht : b' i = b i := hb i h.lt
  refine ⟨?_, by rw [ht, h.low]⟩
  rw [ht]
  exact h.litLength.congr fun k _ hk => hb k hk

theorem LastAt.lt (h : LastAt b s total i a n) : i < n := by
  obtain ⟨⟨p, hp, hn, _⟩, _⟩ := h
  have := hp.lt
  omega

theorem LastAt.size (h : LastAt b s total i a n) : 255 * n ≤ 255 * i + 256 * (total - a) + 495 := by
  obtain ⟨⟨p, hp, hn, _⟩, _⟩ := h
  have := hp.litLength.size
  omega

theorem LastAt.congr (h : LastAt b s total i a n) (hb : Agree b' b n) : LastAt b' s total i a n := by
  obtain ⟨⟨p, hR, hn, hl⟩, ha⟩ := h
  refine ⟨⟨p, hR.congr (hb.mono (by omega)), hn, fun k hk => ?_⟩, ha⟩
  rw [hb _ (by omega), hl k hk]

/-- Sequences up to a position and the rest from there are a whole block. -/
theorem Parsed.rest (h : Parsed b s total i a) (hr : Rest b s total n i a) :
    Rest b s total n 0 0 := by
  induction h with
  | start => exact hr
  | seq _ hs hroom ih => exact ih (.seq hs hroom hr)

/-- After a match there are at least a token and five literals. -/
theorem Rest.room (h : Rest b s total n i a) (ha : a + 5 ≤ total) : i + 6 ≤ n := by
  induction h with
  | last h =>
    obtain ⟨⟨p, hp, hn, _⟩, _⟩ := h
    have := hp.lt
    omega
  | seq hs hroom _ ih =>
    have h1 := hs.lits_le
    have h2 := hs.end_le
    obtain ⟨_, hroom⟩ := hroom
    have := ih (by omega)
    omega

theorem Rest.lt (h : Rest b s total n i a) : i < n := by
  cases h with
  | last h => exact h.lt
  | seq hs hroom h =>
    have h1 := hs.lits_le
    have h2 := hs.end_le
    have := h.room (by have := hroom.2; omega)
    omega

/-- Only the bytes of the block matter. -/
theorem Rest.congr (h : Rest b s total n i a) (hb : Agree b' b n) : Rest b' s total n i a := by
  induction h with
  | last h => exact .last (h.congr hb)
  | seq hs hroom h ih => exact .seq (hs.congr (hb.mono h.lt.le)) hroom ih

end Seq

end ZramUpgrade.Lz4
