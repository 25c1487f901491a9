import ZramUpgrade.Zstd.Bitstream

/-!
# Zstd.SeqStore — sequences, their codes and the repeat offsets

A stored sequence keeps 16 bits of its lengths; one length a block may be longer, and `longLengthPos`
says whose.  A length is coded as the base of its code and some bits more (`llCode_spec`,
`mlCode_spec`), and the code of the long one is the last.  `Reps` are the three last offsets, which
coder and decoder keep alike.
-/

namespace ZramUpgrade.Zstd

open Lib

/-! ## Codes -/

/-- `MaxLL`. -/
def maxLL : ℕ := 35

/-- `MaxML`. -/
def maxML : ℕ := 52

/-- `MaxOff`. -/
def maxOff : ℕ := 31

/-- `LL_bits`. -/
def llBits (llCode : ℕ) : ℕ :=
  [0, 0, 0, 0, 0, 0, 0, 0, 0, 0, 0, 0, 0, 0, 0, 0, 1, 1, 1, 1, 2, 2, 3, 3, 4, 6, 7, 8, 9, 10, 11, 12,
    13, 14, 15, 16].getD llCode 0

/-- `ML_bits`. -/
def mlBits (mlCode : ℕ) : ℕ :=
  [0, 0, 0, 0, 0, 0, 0, 0, 0, 0, 0, 0, 0, 0, 0, 0, 0, 0, 0, 0, 0, 0, 0, 0, 0, 0, 0, 0, 0, 0, 0, 0,
    1, 1, 1, 1, 2, 2, 3, 3, 4, 4, 5, 7, 8, 9, 10, 11, 12, 13, 14, 15, 16].getD mlCode 0

/-- `OF_bits`. -/
def ofBits (ofCode : ℕ) : ℕ := ofCode

/-- `LL_base`. -/
def llBase (llCode : ℕ) : ℕ :=
  [0, 1, 2, 3, 4, 5, 6, 7, 8, 9, 10, 11, 12, 13, 14, 15, 16, 18, 20, 22, 24, 28, 32, 40, 48, 64, 0x80,
    0x100, 0x200, 0x400, 0x800, 0x1000, 0x2000, 0x4000, 0x8000, 0x10000].getD llCode 0

/-- `ML_base`. -/
def mlBase (mlCode : ℕ) : ℕ :=
  [3, 4, 5, 6, 7, 8, 9, 10, 11, 12, 13, 14, 15, 16, 17, 18, 19, 20, 21, 22, 23, 24, 25, 26, 27, 28, 29,
    30, 31, 32, 33, 34, 35, 37, 39, 41, 43, 47, 51, 59, 67, 83, 99, 0x83, 0x103, 0x203, 0x403, 0x803,
    0x1003, 0x2003, 0x4003, 0x8003, 0x10003].getD mlCode 0

/-- `OF_base`. -/
def ofBase (ofCode : ℕ) : ℕ :=
  [0, 1, 1, 5, 0xD, 0x1D, 0x3D, 0x7D, 0xFD, 0x1FD, 0x3FD, 0x7FD, 0xFFD, 0x1FFD, 0x3FFD, 0x7FFD, 0xFFFD,
    0x1FFFD, 0x3FFFD, 0x7FFFD, 0xFFFFD, 0x1FFFFD, 0x3FFFFD, 0x7FFFFD, 0xFFFFFD, 0x1FFFFFD, 0x3FFFFFD,
    0x7FFFFFD, 0xFFFFFFD, 0x1FFFFFFD, 0x3FFFFFFD, 0x7FFFFFFD].getD ofCode 0

/-- `ZSTD_LLcode`. -/
def llCode (litLength : ℕ) : ℕ :=
  if 63 < litLength then highbit32 litLength + 19
  else
    [0, 1, 2, 3, 4, 5, 6, 7, 8, 9, 10, 11, 12, 13, 14, 15, 16, 16, 17, 17, 18, 18, 19, 19, 20, 20, 20, 20,
      21, 21, 21, 21, 22, 22, 22, 22, 22, 22, 22, 22, 23, 23, 23, 23, 23, 23, 23, 23, 24, 24, 24, 24, 24,
      24, 24, 24, 24, 24, 24, 24, 24, 24, 24, 24].getD litLength 0

/-- `ZSTD_MLcode`. -/
def mlCode (mlBase : ℕ) : ℕ :=
  if 127 < mlBase then highbit32 mlBase + 36
  else
    [0, 1, 2, 3, 4, 5, 6, 7, 8, 9, 10, 11, 12, 13, 14, 15, 16, 17, 18, 19, 20, 21, 22, 23, 24, 25, 26, 27,
      28, 29, 30, 31, 32, 32, 33, 33, 34, 34, 35, 35, 36, 36, 36, 36, 37, 37, 37, 37, 38, 38, 38, 38, 38,
      38, 38, 38, 39, 39, 39, 39, 39, 39, 39, 39, 40, 40, 40, 40, 40, 40, 40, 40, 40, 40, 40, 40, 40, 40,
      40, 40, 41, 41, 41, 41, 41, 41, 41, 41, 41, 41, 41, 41, 41, 41, 41, 41, 42, 42, 42, 42, 42, 42, 42,
      42, 42, 42, 42, 42, 42, 42, 42, 42, 42, 42, 42, 42, 42, 42, 42, 42, 42, 42, 42, 42, 42, 42, 42,
      42].getD mlBase 0

/-! ## The store -/

/-- `SeqDef`. -/
structure SeqDef where
  offBase : ℕ
  litLength : ℕ
  mlBase : ℕ

/-- `ZSTD_longLengthType_e`. -/
inductive LongLengthType where
  | none
  | literalLength
  | matchLength
  deriving DecidableEq

/-- `SeqStore_t`: `nbSeq` and `litSize` are the distances of `sequences` and `lit` from their starts. -/
structure SeqStore where
  sequences : ℕ → SeqDef
  nbSeq : ℕ
  lit : Mem
  litSize : ℕ
  longLengthType : LongLengthType
  longLengthPos : ℕ

/-- `ZSTD_resetSeqStore`. -/
def SeqStore.reset (s : SeqStore) : SeqStore := { s with nbSeq := 0, litSize := 0, longLengthType := .none }

/-- `ZSTD_storeSeqOnly`. -/
def SeqStore.storeSeqOnly (s : SeqStore) (litLength offBase matchLength : ℕ) : SeqStore :=
  let s := if 0xFFFF < litLength
    then { s with longLengthType := .literalLength, longLengthPos := s.nbSeq } else s
  let mlBase := matchLength - 3
  let s := if 0xFFFF < mlBase
    then { s with longLengthType := .matchLength, longLengthPos := s.nbSeq } else s
  { s with
    sequences := Function.update s.sequences s.nbSeq ⟨offBase, litLength % 2 ^ 16, mlBase % 2 ^ 16⟩
    nbSeq := s.nbSeq + 1 }

/-- `ZSTD_getSequenceLength`: the literal and the match length of sequence `n`. -/
def SeqStore.sequenceLength (s : SeqStore) (n : ℕ) : ℕ × ℕ :=
  ((s.sequences n).litLength +
      if s.longLengthPos = n ∧ s.longLengthType = .literalLength then 0x10000 else 0,
    (s.sequences n).mlBase + 3 +
      if s.longLengthPos = n ∧ s.longLengthType = .matchLength then 0x10000 else 0)

/-- The code tables of `ZSTD_seqToCodes`; with 64 bits no offset is long. -/
def SeqStore.llCodeTable (s : SeqStore) (n : ℕ) : ℕ :=
  if s.longLengthType = .literalLength ∧ n = s.longLengthPos then maxLL
  else llCode (s.sequences n).litLength

def SeqStore.ofCodeTable (s : SeqStore) (n : ℕ) : ℕ := highbit32 (s.sequences n).offBase

def SeqStore.mlCodeTable (s : SeqStore) (n : ℕ) : ℕ :=
  if s.longLengthType = .matchLength ∧ n = s.longLengthPos then maxML
  else mlCode (s.sequences n).mlBase

/-! ## Repeat offsets -/

/-- `rep`, and the decoder's `prevOffset`. -/
@[ext] structure Reps where
  r0 : ℕ
  r1 : ℕ
  r2 : ℕ
  deriving DecidableEq

/-- `repStartValue`. -/
def repStartValue : Reps := ⟨1, 4, 8⟩

def Reps.get (rep : Reps) : ℕ → ℕ
  | 0 => rep.r0
  | 1 => rep.r1
  | _ => rep.r2

/-- `ZSTD_updateRep`. -/
def Reps.update (rep : Reps) (offBase ll0 : ℕ) : Reps :=
  if 3 < offBase then ⟨offBase - 3, rep.r0, rep.r1⟩
  else
    let repCode := offBase - 1 + ll0
    if 0 < repCode then
      let currentOffset := if repCode = 3 then (rep.r0 + (2 ^ 32 - 1)) % 2 ^ 32 else rep.get repCode
      ⟨currentOffset, rep.r0, if 2 ≤ repCode then rep.r1 else rep.r2⟩
    else rep

/-! ## A length is the base of its code and some bits -/

section Codes

variable {n : ℕ}

theorem llCode_spec (h : n < 2 ^ 16) :
    llCode n < maxLL ∧ llBase (llCode n) + n % 2 ^ llBits (llCode n) = n := by
  by_cases h63 : 63 < n
  · obtain ⟨hl, hu⟩ := (Nat.log2_eq_iff (show n ≠ 0 by omega)).mp (rfl : highbit32 n = highbit32 n)
    have hlow : 6 ≤ highbit32 n := (Nat.le_log2 (by omega)).mpr (by omega)
    have hhigh : highbit32 n < 16 := (Nat.log2_lt (by omega)).mpr h
    rw [llCode, if_pos h63]
    generalize highbit32 n = k at *
    interval_cases k <;> exact ⟨by decide, by simp [llBase, llBits]; omega⟩
  · have hall : ∀ n < 64, llCode n < maxLL ∧ llBase (llCode n) + n % 2 ^ llBits (llCode n) = n := by
      decide
    exact hall n (by omega)

theorem mlCode_spec (h : n < 2 ^ 16) :
    mlCode n < maxML ∧ mlBase (mlCode n) + n % 2 ^ mlBits (mlCode n) = n + 3 := by
  by_cases h127 : 127 < n
  · obtain ⟨hl, hu⟩ := (Nat.log2_eq_iff (show n ≠ 0 by omega)).mp (rfl : highbit32 n = highbit32 n)
    have hlow : 7 ≤ highbit32 n := (Nat.le_log2 (by omega)).mpr (by omega)
    have hhigh : highbit32 n < 16 := (Nat.log2_lt (by omega)).mpr h
    rw [mlCode, if_pos h127]
    generalize highbit32 n = k at *
    interval_cases k <;> exact ⟨by decide, by simp [mlBase, mlBits]; omega⟩
  · have hall : ∀ n < 128, mlCode n < maxML ∧ mlBase (mlCode n) + n % 2 ^ mlBits (mlCode n) = n + 3 := by
      decide
    exact hall n (by omega)

theorem llBits_le {c : ℕ} (h : c ≤ maxLL) : llBits c ≤ 16 := by
  unfold maxLL at h
  interval_cases c <;> decide

theorem mlBits_le {c : ℕ} (h : c ≤ maxML) : mlBits c ≤ 16 := by
  unfold maxML at h
  interval_cases c <;> decide

/-- From two on, an offset is the base of its code and some bits. -/
theorem ofBase_spec {k : ℕ} (h2 : 2 ≤ k) (h : k ≤ maxOff) : ofBase k + 3 = 2 ^ k := by
  unfold maxOff at h
  interval_cases k <;> decide

theorem offBase_split (h0 : n ≠ 0) : 2 ^ highbit32 n + n % 2 ^ highbit32 n = n := by
  obtain ⟨hl, hu⟩ := (Nat.log2_eq_iff h0).mp (rfl : highbit32 n = highbit32 n)
  rw [Nat.pow_succ] at hu
  rw [Nat.mod_eq_sub_mod hl, Nat.mod_eq_of_lt (by omega)]
  omega

end Codes

/-! ## The store keeps what is stored -/

/-- What is stored: a length of literals, an offset or a repeat code, and a length of match. -/
@[ext] structure Sequence where
  litLength : ℕ
  offBase : ℕ
  matchLength : ℕ
  deriving DecidableEq

namespace SeqStore

/-- Sequence `n` of the store. -/
def sequence (s : SeqStore) (n : ℕ) : Sequence :=
  ⟨(s.sequenceLength n).1, (s.sequences n).offBase, (s.sequenceLength n).2⟩

/-- The sequences of the store. -/
def toList (s : SeqStore) : List Sequence := (List.range s.nbSeq).map s.sequence

/-- The fields hold, and the long length is that of a stored sequence. -/
structure Valid (s : SeqStore) : Prop where
  offBase_lt : ∀ n < s.nbSeq, 0 < (s.sequences n).offBase ∧ (s.sequences n).offBase < 2 ^ 32
  litLength_lt : ∀ n < s.nbSeq, (s.sequences n).litLength < 2 ^ 16
  mlBase_lt : ∀ n < s.nbSeq, (s.sequences n).mlBase < 2 ^ 16
  long : s.longLengthType ≠ .none → s.longLengthPos < s.nbSeq

variable {s : SeqStore} {n litLength offBase matchLength : ℕ}

/-- The bytes of a list of sequences. -/
def total (l : List Sequence) : ℕ := (l.map fun q => q.litLength + q.matchLength).sum

theorem reset_valid (s : SeqStore) : s.reset.Valid ∧ s.reset.toList = [] :=
  ⟨⟨fun n h => absurd h (Nat.not_lt_zero n), fun n h => absurd h (Nat.not_lt_zero n),
    fun n h => absurd h (Nat.not_lt_zero n), fun h => absurd rfl h⟩, rfl⟩

/-- A long length is one of more than half a block. -/
theorem Valid.long_total (h : s.Valid) (hlong : s.longLengthType ≠ .none) : 2 ^ 16 ≤ total s.toList := by
  have hpos := h.long hlong
  have hmem : s.sequence s.longLengthPos ∈ s.toList :=
    List.mem_map.mpr ⟨_, List.mem_range.mpr hpos, rfl⟩
  have hle : (s.sequence s.longLengthPos).litLength + (s.sequence s.longLengthPos).matchLength ≤
      total s.toList := List.single_le_sum (by simp) _ (List.mem_map.mpr ⟨_, hmem, rfl⟩)
  refine le_trans ?_ hle
  unfold sequence sequenceLength
  cases htype : s.longLengthType with
  | none => exact absurd htype hlong
  | literalLength =>
    dsimp only
    rw [if_pos ⟨rfl, rfl⟩]
    omega
  | matchLength =>
    dsimp only
    rw [if_pos (show s.longLengthPos = s.longLengthPos ∧ _ from ⟨rfl, rfl⟩)]
    omega

/-- **Storing** appends the sequence: of a block of 128 KB only one length can be long. -/
theorem Valid.storeSeqOnly (h : s.Valid) (hoff : 0 < offBase) (hoff32 : offBase < 2 ^ 32)
    (hml : 3 ≤ matchLength) (htotal : total s.toList + litLength + matchLength ≤ 2 ^ 17) :
    (s.storeSeqOnly litLength offBase matchLength).Valid ∧
      (s.storeSeqOnly litLength offBase matchLength).toList =
        s.toList ++ [⟨litLength, offBase, matchLength⟩] := by
  have hnone : 0xFFFF < litLength ∨ 0xFFFF < matchLength - 3 → s.longLengthType = .none := fun hlong => by
    by_contra hne
    have := h.long_total hne
    omega
  have hnot : ¬ (0xFFFF < litLength ∧ 0xFFFF < matchLength - 3) := by omega
  set s' := s.storeSeqOnly litLength offBase matchLength with hs'
  have hseq : s'.sequences =
      Function.update s.sequences s.nbSeq ⟨offBase, litLength % 2 ^ 16, (matchLength - 3) % 2 ^ 16⟩ := by
    rw [hs', SeqStore.storeSeqOnly]
    split_ifs <;> rfl
  have hnb : s'.nbSeq = s.nbSeq + 1 := by
    rw [hs', SeqStore.storeSeqOnly]
    split_ifs <;> rfl
  -- which length is long, if one is
  have hlong : (0xFFFF < litLength ∧ matchLength - 3 ≤ 0xFFFF ∧ s.longLengthType = .none ∧
        s'.longLengthType = .literalLength ∧ s'.longLengthPos = s.nbSeq) ∨
      (litLength ≤ 0xFFFF ∧ 0xFFFF < matchLength - 3 ∧ s.longLengthType = .none ∧
        s'.longLengthType = .matchLength ∧ s'.longLengthPos = s.nbSeq) ∨
      (litLength ≤ 0xFFFF ∧ matchLength - 3 ≤ 0xFFFF ∧
        s'.longLengthType = s.longLengthType ∧ s'.longLengthPos = s.longLengthPos) := by
    by_cases h1 : 0xFFFF < litLength
    · have h2 : ¬ 0xFFFF < matchLength - 3 := fun h2 => hnot ⟨h1, h2⟩
      refine .inl ⟨h1, by omega, hnone (.inl h1), ?_⟩
      rw [hs', SeqStore.storeSeqOnly, if_pos h1, if_neg h2]
      exact ⟨rfl, rfl⟩
    · by_cases h2 : 0xFFFF < matchLength - 3
      · refine .inr (.inl ⟨by omega, h2, hnone (.inr h2), ?_⟩)
        rw [hs', SeqStore.storeSeqOnly, if_neg h1, if_pos h2]
        exact ⟨rfl, rfl⟩
      · refine .inr (.inr ⟨by omega, by omega, ?_⟩)
        rw [hs', SeqStore.storeSeqOnly, if_neg h1, if_neg h2]
        exact ⟨rfl, rfl⟩
  have hold : ∀ k < s.nbSeq, s'.sequences k = s.sequences k := fun k hk => by
    rw [hseq, Function.update_of_ne (by omega)]
  have hnew : s'.sequences s.nbSeq = ⟨offBase, litLength % 2 ^ 16, (matchLength - 3) % 2 ^ 16⟩ := by
    rw [hseq, Function.update_self]
  refine ⟨⟨fun k hk => ?_, fun k hk => ?_, fun k hk => ?_, fun hne => ?_⟩, ?_⟩
  · rcases Nat.lt_or_ge k s.nbSeq with hlt | hge
    · rw [hold k hlt]
      exact h.offBase_lt k hlt
    · obtain rfl : k = s.nbSeq := by omega
      rw [hnew]
      exact ⟨hoff, hoff32⟩
  · rcases Nat.lt_or_ge k s.nbSeq with hlt | hge
    · rw [hold k hlt]
      exact h.litLength_lt k hlt
    · obtain rfl : k = s.nbSeq := by omega
      rw [hnew]
      exact Nat.mod_lt _ (by decide)
  · rcases Nat.lt_or_ge k s.nbSeq with hlt | hge
    · rw [hold k hlt]
      exact h.mlBase_lt k hlt
    · obtain rfl : k = s.nbSeq := by omega
      rw [hnew]
      exact Nat.mod_lt _ (by decide)
  · rcases hlong with ⟨-, -, -, -, hp⟩ | ⟨-, -, -, -, hp⟩ | ⟨-, -, ht, hp⟩
    · omega
    · omega
    · have := h.long (ht ▸ hne)
      omega
  · have hkeep : ∀ k < s.nbSeq, s'.sequence k = s.sequence k := fun k hk => by
      rw [sequence, sequence, sequenceLength, sequenceLength, hold k hk]
      rcases hlong with ⟨-, -, hn, ht, hp⟩ | ⟨-, -, hn, ht, hp⟩ | ⟨-, -, ht, hp⟩
      · rw [ht, hp, hn]
        simp [show s.nbSeq ≠ k by omega]
      · rw [ht, hp, hn]
        simp [show s.nbSeq ≠ k by omega]
      · rw [ht, hp]
    have hlast : s'.sequence s.nbSeq = ⟨litLength, offBase, matchLength⟩ := by
      rw [sequence, sequenceLength, hnew]
      rcases hlong with ⟨h1, h2, -, ht, hp⟩ | ⟨h1, h2, -, ht, hp⟩ | ⟨h1, h2, ht, hp⟩
      · rw [ht, hp]
        simp only [true_and, reduceCtorEq, if_true, if_false, Sequence.mk.injEq]
        omega
      · rw [ht, hp]
        simp only [true_and, reduceCtorEq, if_true, if_false, Sequence.mk.injEq]
        omega
      · -- a long length is that of another sequence
        have hother : ∀ t, t ≠ LongLengthType.none →
            ¬ (s'.longLengthPos = s.nbSeq ∧ s'.longLengthType = t) := fun t ht' hc => by
          have := h.long (by rw [← ht, hc.2]; exact ht')
          omega
        rw [if_neg (hother _ (by decide)), if_neg (hother _ (by decide))]
        simp only [Sequence.mk.injEq, true_and]
        omega
    rw [toList, hnb, List.range_succ, List.map_append, List.map_singleton, hlast]
    congr 1
    exact List.map_congr_left fun k hk => hkeep k (List.mem_range.mp hk)

/-- The codes say the lengths. -/
theorem Valid.codes (h : s.Valid) (hn : n < s.nbSeq) :
    llBase (s.llCodeTable n) + (s.sequences n).litLength % 2 ^ llBits (s.llCodeTable n) =
        (s.sequence n).litLength ∧
      mlBase (s.mlCodeTable n) + (s.sequences n).mlBase % 2 ^ mlBits (s.mlCodeTable n) =
        (s.sequence n).matchLength ∧
      s.llCodeTable n ≤ maxLL ∧ s.mlCodeTable n ≤ maxML ∧ s.ofCodeTable n ≤ maxOff := by
  have hl := h.litLength_lt n hn
  have hm := h.mlBase_lt n hn
  obtain ⟨ho0, ho⟩ := h.offBase_lt n hn
  obtain ⟨hlc, hls⟩ := llCode_spec hl
  obtain ⟨hmc, hms⟩ := mlCode_spec hm
  have hoff : s.ofCodeTable n < 32 := (Nat.log2_lt (by omega)).mpr ho
  unfold llCodeTable mlCodeTable sequence sequenceLength
  refine ⟨?_, ?_, ?_, ?_, Nat.le_of_lt_succ hoff⟩
  · dsimp only
    by_cases hlong : s.longLengthType = .literalLength ∧ n = s.longLengthPos
    · rw [if_pos hlong, if_pos ⟨hlong.2.symm, hlong.1⟩]
      show 0x10000 + _ % 2 ^ 16 = _
      rw [Nat.mod_eq_of_lt hl, Nat.add_comm]
    · rw [if_neg hlong, if_neg fun hc => hlong ⟨hc.2, hc.1.symm⟩]
      exact hls
  · dsimp only
    by_cases hlong : s.longLengthType = .matchLength ∧ n = s.longLengthPos
    · rw [if_pos hlong, if_pos ⟨hlong.2.symm, hlong.1⟩]
      show 0x10003 + _ % 2 ^ 16 = _
      rw [Nat.mod_eq_of_lt hm]
      omega
    · rw [if_neg hlong, if_neg fun hc => hlong ⟨hc.2, hc.1.symm⟩]
      exact hms
  · split_ifs
    · exact le_rfl
    · exact hlc.le
  · split_ifs
    · exact le_rfl
    · exact hmc.le

end SeqStore

end ZramUpgrade.Zstd
