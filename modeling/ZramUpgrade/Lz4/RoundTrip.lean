import ZramUpgrade.Lz4.Decode
import ZramUpgrade.Lz4.Driver
import ZramUpgrade.Lz4.Encode

/-!
# Lz4.RoundTrip — a tfm over its whole life

`StreamInv` is what the fast reset keeps between calls: a stream is clear, or its `byU16` entries
lie below `currentOffset`, or it is `byU32` and the next call will clear it.  From it
`LZ4_prepareTable` leaves an all-zero table at offset `0` or a stale `byU16` table behind
`dictSmall` (`prepareTable_spec`), and either is a start the match finder is right from.
-/

namespace ZramUpgrade.Lz4

open Lib

/-! ## The stream between calls -/

/-- The table and offset of a stream no call has used since its last reset. -/
structure Cleared (ctx : Stream) : Prop where
  hashTable : ctx.hashTable = fun _ => 0
  currentOffset : ctx.currentOffset = 0

def StreamInv (ctx : Stream) : Prop :=
  match ctx.tableType with
  | .clearedTable => Cleared ctx
  | .byU16 => 0 < ctx.currentOffset ∧ ∀ h, getIndexOnHash h ctx.hashTable .byU16 < ctx.currentOffset
  | .byU32 => True

/-- A used `byU16` table that a call of `n` bytes goes on with. -/
structure StaleTable (ctx : Stream) (n : ℕ) : Prop where
  offset_pos : 0 < ctx.currentOffset
  room : ctx.currentOffset + n < 0xFFFF
  below : ∀ h, getIndexOnHash h ctx.hashTable .byU16 < ctx.currentOffset

/-- The table type a call of `n` bytes works with. -/
def tableTypeOf (n : ℕ) : TableType := if n < LZ4_64Klimit then .byU16 else .byU32

theorem tableTypeOf_ne (n : ℕ) : tableTypeOf n ≠ .clearedTable := by
  rw [tableTypeOf]
  split <;> decide

theorem initStream_inv : StreamInv initStream := Cleared.mk rfl rfl

section Prepare

variable {ctx : Stream} {n : ℕ}

@[simp] theorem prepareTable_dictSize (ctx : Stream) (n : ℕ) (tt : TableType) :
    (prepareTable ctx n tt).dictSize = 0 := rfl

/-- A reset, and a table that was never used, are all-zero tables at offset `0`. -/
theorem prepareTable_cleared (ctx : Stream) (n : ℕ) (tt : TableType)
    (h : needsReset ctx n tt ∨ (ctx.tableType = .clearedTable ∧ Cleared ctx)) :
    Cleared (prepareTable ctx n tt) ∧ (prepareTable ctx n tt).tableType = .clearedTable := by
  by_cases hr : needsReset ctx n tt
  · simp only [prepareTable, if_pos hr, ne_eq, not_true_eq_false, false_and, if_false]
    exact ⟨⟨rfl, rfl⟩, trivial⟩
  · obtain ⟨ht, hT, hO⟩ := h.resolve_left hr
    simp only [prepareTable, if_neg hr, hO, ne_eq, not_true_eq_false, false_and, if_false]
    exact ⟨⟨hT, rfl⟩, ht⟩

/-- **The two starts**: a clear stream, or a stale `byU16` table. -/
theorem prepareTable_spec (h : StreamInv ctx) :
    (Cleared (prepareTable ctx n (tableTypeOf n)) ∧
        (prepareTable ctx n (tableTypeOf n)).tableType = .clearedTable) ∨
      (tableTypeOf n = .byU16 ∧ StaleTable (prepareTable ctx n (tableTypeOf n)) n ∧
        (prepareTable ctx n (tableTypeOf n)).tableType = .byU16) := by
  by_cases hr : needsReset ctx n (tableTypeOf n)
  · exact .inl (prepareTable_cleared _ _ _ (.inl hr))
  · rw [StreamInv] at h
    cases htt : ctx.tableType with
    | clearedTable =>
      rw [htt] at h
      exact .inl (prepareTable_cleared _ _ _ (.inr ⟨htt, h⟩))
    | byU32 =>
      -- such a call is longer than 4 KB
      exfalso
      refine hr ⟨by rw [htt]; decide, ?_⟩
      by_cases hn : n < LZ4_64Klimit
      · exact .inl (by rw [htt, tableTypeOf, if_pos hn]; decide)
      · exact .inr (.inr (.inr (by simp only [LZ4_64Klimit, MFLIMIT] at hn; omega)))
    | byU16 =>
      rw [htt] at h
      have hsame : tableTypeOf n = .byU16 := by
        by_contra hne
        exact hr ⟨by rw [htt]; decide, .inl (by rw [htt]; exact fun he => hne he.symm)⟩
      have hroom : ctx.currentOffset + n < 0xFFFF := by
        by_contra hge
        exact hr ⟨by rw [htt]; decide, .inr (.inl ⟨hsame, by omega⟩)⟩
      rw [hsame] at hr ⊢
      refine .inr ⟨rfl, ?_, ?_⟩
      · simp only [prepareTable, if_neg hr, reduceCtorEq, and_false, if_false]
        exact ⟨h.1, hroom, h.2⟩
      · simp only [prepareTable, if_neg hr, reduceCtorEq, and_false, if_false, htt]

/-- Either start keeps the invariant, for a call that stops before the match finder. -/
theorem prepareTable_inv (h : StreamInv ctx) : StreamInv (prepareTable ctx n (tableTypeOf n)) := by
  rcases prepareTable_spec (n := n) h with ⟨hc, ht⟩ | ⟨_, hs, ht⟩
  · rw [StreamInv, ht]
    exact hc
  · rw [StreamInv, ht]
    exact ⟨hs.offset_pos, hs.below⟩

end Prepare

/-! ## One compression call -/

section Compress

variable {ctx : Stream} {n : ℕ}

/-- `acceleration` after its clamps. -/
def clampAcceleration (acceleration : ℕ) : ℕ :=
  min (if acceleration < 1 then LZ4_ACCELERATION_DEFAULT else acceleration) LZ4_ACCELERATION_MAX

theorem one_le_clampAcceleration (a : ℕ) : 1 ≤ clampAcceleration a := by
  simp only [clampAcceleration, LZ4_ACCELERATION_DEFAULT, LZ4_ACCELERATION_MAX]
  split <;> omega

def directiveOf (n capacity : ℕ) : OutputDirective :=
  if compressBound n ≤ capacity then .notLimited else .limitedOutput

def maxOutputOf (n capacity : ℕ) : ℕ := if compressBound n ≤ capacity then 0 else capacity

def dictIssueOf (ctx : Stream) (n : ℕ) : DictIssue :=
  if tableTypeOf n = .byU16 ∧ ctx.currentOffset ≠ 0 then .dictSmall else .noDictIssue

/-- The six instances of the fast reset are one call with these arguments. -/
theorem fastReset_eq (ctx : Stream) (src dst : Mem) (n capacity acceleration : ℕ) :
    compressFastExtStateFastReset ctx src dst n capacity acceleration =
      compressGeneric (prepareTable ctx n (tableTypeOf n)) src dst n (maxOutputOf n capacity) capacity
        (directiveOf n capacity) (tableTypeOf n)
        (dictIssueOf (prepareTable ctx n (tableTypeOf n)) n) (clampAcceleration acceleration) := by
  simp only [compressFastExtStateFastReset, tableTypeOf, maxOutputOf, directiveOf, dictIssueOf,
    clampAcceleration]
  by_cases hb : compressBound n ≤ capacity <;> by_cases hn : n < LZ4_64Klimit
  · by_cases ho : (prepareTable ctx n .byU16).currentOffset = 0
    · simp only [if_pos hb, if_pos hn, ho, ne_eq, not_true_eq_false, and_false, if_false]
    · simp only [if_pos hb, if_pos hn, ne_eq, ho, not_false_eq_true, and_self, if_true]
  · simp only [if_pos hb, if_neg hn, reduceCtorEq, false_and, if_false]
  · by_cases ho : (prepareTable ctx n .byU16).currentOffset = 0
    · simp only [if_neg hb, if_pos hn, ho, ne_eq, not_true_eq_false, and_false, if_false]
    · simp only [if_neg hb, if_pos hn, ne_eq, ho, not_false_eq_true, and_self, if_true]
  · simp only [if_neg hb, if_neg hn, reduceCtorEq, false_and, if_false]

/-- The match finder's constants in a call of the driver. -/
def callOf (ctx : Stream) (src : Mem) (n capacity acceleration : ℕ) : Call where
  source := src
  inputSize := n
  maxOutputSize := maxOutputOf n capacity
  capacity := capacity
  outputDirective := directiveOf n capacity
  tableType := tableTypeOf n
  dictIssue := dictIssueOf ctx n
  acceleration := acceleration
  startIndex := ctx.currentOffset
  prefixIdxLimit := ctx.currentOffset - ctx.dictSize

/-- What a call starts from: the stream the reset left. -/
def Prepared (ctx : Stream) (n : ℕ) : Prop :=
  Cleared ctx ∨ (tableTypeOf n = .byU16 ∧ StaleTable ctx n)

theorem prepareTable_prepared (h : StreamInv ctx) :
    Prepared (prepareTable ctx n (tableTypeOf n)) n :=
  (prepareTable_spec h).imp And.left fun h => ⟨h.1, h.2.1⟩

theorem callOf_wf (h : Prepared ctx n) (hd : ctx.dictSize = 0) (hn : n ≤ LZ4_MAX_INPUT_SIZE)
    (src : Mem) (capacity : ℕ) {a : ℕ} (ha : 1 ≤ a) : (callOf ctx src n capacity a).WF := by
  refine ⟨tableTypeOf_ne n, ?_, ?_, ha⟩
  · show ctx.currentOffset + n ≤ indexLimit (tableTypeOf n) + 11
    rcases h with hc | ⟨h16, hs⟩
    · rw [hc.currentOffset, tableTypeOf]
      simp only [LZ4_64Klimit, MFLIMIT, LZ4_MAX_INPUT_SIZE] at *
      split
      · simp only [indexLimit]
        omega
      · simp only [indexLimit]
        omega
    · have := hs.room
      rw [h16]
      simp only [indexLimit]
      omega
  · rcases h with hc | ⟨h16, hs⟩
    · exact .inl hc.currentOffset
    · have hpos := hs.offset_pos
      refine .inr ⟨?_, ?_⟩
      · show dictIssueOf ctx n = .dictSmall
        rw [dictIssueOf, if_pos ⟨h16, by omega⟩]
      · show ctx.currentOffset - ctx.dictSize = ctx.currentOffset
        rw [hd, Nat.sub_zero]

theorem prepared_table (h : Prepared ctx n) (i : ℕ) :
    getIndexOnHash i ctx.hashTable (tableTypeOf n) ≤ ctx.currentOffset := by
  rcases h with hc | ⟨h16, hs⟩
  · rw [hc.hashTable, getIndexOnHash_zero]
    exact Nat.zero_le _
  · rw [h16]
    exact (hs.below i).le

/-- What a finished compression call leaves: the invariant, and on success a block of the input. -/
structure CompressPost (src : Mem) (n : ℕ) (r : CompressResult) : Prop where
  inv : StreamInv r.cctx
  block : r.ret ≠ 0 → Rest r.dst src n r.ret 0 0
  size : 255 * r.ret ≤ 256 * n + 495
  small : r.ret ≠ 0 → n ≤ LZ4_MAX_INPUT_SIZE

/-- The one byte `0` is the empty block. -/
theorem empty_block (src dst : Mem) : Rest (store dst 0 0) src 0 1 0 0 := by
  refine .last ⟨⟨1, ⟨?_, ?_⟩, rfl, fun k hk => absurd hk (Nat.not_lt_zero k)⟩, le_rfl⟩
  · rw [store_self]
    exact LenField.of_lt (by decide)
  · rw [store_self]
    rfl

/-- A block of the empty text is that byte. -/
theorem empty_block_eq {src s : Mem} {n : ℕ} (h : Rest src s 0 n 0 0) : n = 1 ∧ src 0 = 0 := by
  cases h with
  | last hl =>
    obtain ⟨⟨p, ⟨hlen, hlow⟩, hn, _⟩, _⟩ := hl
    rw [LenField, if_pos (by decide)] at hlen
    refine ⟨by omega, UInt8.toNat_inj.mp ?_⟩
    show (src 0).toNat = 0
    omega
  | seq _ hr _ =>
    have := hr.1
    omega

/-- **One compression call** from any stream between calls. -/
theorem fastReset_spec (h : StreamInv ctx) (src dst : Mem) (n capacity acceleration : ℕ) :
    ∃ r, compressFastExtStateFastReset ctx src dst n capacity acceleration = some r ∧
      CompressPost src n r := by
  have hinv := prepareTable_inv (n := n) h
  have hprep := prepareTable_prepared (n := n) h
  rw [fastReset_eq, compressGeneric]
  set ctx' := prepareTable ctx n (tableTypeOf n) with hctx'
  split
  · exact ⟨_, rfl, hinv, fun h0 => absurd rfl h0, Nat.zero_le _, fun h0 => absurd rfl h0⟩
  · next hmax =>
    split
    · next h0 =>
      subst h0
      split
      · exact ⟨_, rfl, hinv, fun h0 => absurd rfl h0, Nat.zero_le _, fun h0 => absurd rfl h0⟩
      · exact ⟨_, rfl, hinv, fun _ => empty_block src dst, by dsimp only; omega,
        fun _ => Nat.zero_le _⟩
    · next h0 =>
      have hwf := callOf_wf hprep (prepareTable_dictSize ctx n _) (Nat.le_of_not_lt hmax) src capacity
        (one_le_clampAcceleration acceleration)
      obtain ⟨e, he, hpost⟩ := encode_spec hwf (prepared_table hprep) (Nat.pos_of_ne_zero h0) dst
      refine ⟨_, congrArg (Option.map _) he, ?_, hpost.block, hpost.size, fun _ => Nat.le_of_not_lt hmax⟩
      simp only [StreamInv]
      have hbelow : ∀ i, getIndexOnHash i e.hashTable (tableTypeOf n) < ctx'.currentOffset + n :=
        hpost.table
      cases htt : tableTypeOf n with
      | clearedTable => exact absurd htt (tableTypeOf_ne n)
      | byU16 =>
        rw [htt] at hbelow
        exact ⟨Nat.add_pos_right _ (Nat.pos_of_ne_zero h0), hbelow⟩
      | byU32 => trivial

end Compress

/-! ## The driver -/

section Driver

variable {ctx : Lz4UpgradeCtx}

/-- **One driver call**: it returns, keeps the stream's invariant, and on success leaves a block. -/
theorem lz4UpgradeCompress_spec (h : StreamInv ctx.wmem) (src dst : Mem) (slen dlen : ℕ) :
    ∃ r, lz4UpgradeCompress ctx src slen dst dlen = some r ∧ StreamInv r.ctx.wmem ∧
      (r.code = 0 → Rest r.dst src slen r.dlen 0 0 ∧ r.dlen ≤ INT_MAX) := by
  rw [lz4UpgradeCompress]
  split
  · exact ⟨_, rfl, h, fun h0 => absurd h0 (by simp)⟩
  · obtain ⟨r, hr, hinv, hblock, hsize, hsmall⟩ := fastReset_spec h src dst slen dlen 1
    rw [hr]
    simp only [Option.bind_eq_bind, Option.bind_some]
    split
    · exact ⟨_, rfl, hinv, fun h0 => absurd h0 (by simp)⟩
    · next h0 =>
      refine ⟨_, rfl, hinv, fun _ => ⟨hblock h0, ?_⟩⟩
      have := hsmall h0
      simp only [LZ4_MAX_INPUT_SIZE, INT_MAX] at *
      omega

/-- The run lemma: every state of a tfm satisfies the stream invariant. -/
theorem Reachable.inv (h : Reachable ctx) : StreamInv ctx.wmem := by
  induction h with
  | init h =>
    rw [lz4UpgradeInit] at h
    split at h
    · cases h
      exact initStream_inv
    · cases h
  | compress _ hr ih =>
    obtain ⟨r', hr', hinv, _⟩ := lz4UpgradeCompress_spec ih _ _ _ _
    rw [hr'] at hr
    cases hr
    exact hinv

/-- Decompression of any block of a text, with any room for it. -/
theorem lz4UpgradeDecompress_block {src s out : Mem} {n slen c : ℕ} (h : Rest src s slen n 0 0)
    (hn : n ≤ INT_MAX) (hc : slen ≤ c) (hmax : c ≤ INT_MAX) :
    ∃ d, lz4UpgradeDecompress ctx src n out c = some d ∧ d.code = 0 ∧ d.dlen = slen ∧
      Agree d.dst s slen := by
  rw [lz4UpgradeDecompress, if_neg (by omega)]
  by_cases h0 : c = 0
  · -- no room at all: the text is empty and its block the byte `0`
    subst h0
    obtain rfl : slen = 0 := by omega
    have hone := empty_block_eq h
    simp only [decompressSafe, if_true, hone, and_self]
    exact ⟨_, rfl, rfl, rfl, fun i hi => absurd hi (Nat.not_lt_zero i)⟩
  · obtain ⟨r, hr, hret, hA⟩ := decompressSafe_block out h hc h0
    rw [hr]
    simp only [Option.bind_eq_bind, Option.bind_some, hret]
    rw [if_neg (by omega)]
    exact ⟨_, rfl, rfl, Int.toNat_natCast _, hA⟩

/-- **Round trip.**  On a tfm in any state it can be in, a compression call returns; when it reports
success, decompressing exactly its output gives back the source, into any room for it. -/
theorem lz4_roundTrip (h : Reachable ctx) (src dst : Mem) (slen dlen : ℕ) :
    ∃ r, lz4UpgradeCompress ctx src slen dst dlen = some r ∧
      (r.code = 0 → ∀ (ctx' : Lz4UpgradeCtx) (block out : Mem) (c : ℕ), Agree block r.dst r.dlen →
        slen ≤ c → c ≤ INT_MAX →
        ∃ d, lz4UpgradeDecompress ctx' block r.dlen out c = some d ∧ d.code = 0 ∧ d.dlen = slen ∧
          Agree d.dst src slen) := by
  obtain ⟨r, hr, _, hblock⟩ := lz4UpgradeCompress_spec h.inv src dst slen dlen
  refine ⟨r, hr, fun hcode ctx' block out c hA hc hmax => ?_⟩
  obtain ⟨hB, hn⟩ := hblock hcode
  exact lz4UpgradeDecompress_block (hB.congr hA) hn hc hmax

end Driver

/-- A first call of 20 equal bytes that does not fit in 4, and the same call with room on the used
tfm: the second one succeeds, and its output decompresses to the source. -/
theorem lz4_roundTrip_reused :
    ∃ r₁ r₂ d, lz4UpgradeCompress ⟨initStream⟩ (fun _ => 7) 20 (fun _ => 0) 4 = some r₁ ∧
      r₁.code = -EINVAL ∧ lz4UpgradeCompress r₁.ctx (fun _ => 7) 20 (fun _ => 0) 64 = some r₂ ∧
      r₂.code = 0 ∧ lz4UpgradeDecompress r₂.ctx r₂.dst r₂.dlen (fun _ => 0) 20 = some d ∧
      d.code = 0 ∧ d.dlen = 20 ∧ Agree d.dst (fun _ => 7) 20 := by
  have hfresh : lz4UpgradeInit true = .ok ⟨initStream⟩ := rfl
  have hinit : Reachable ⟨initStream⟩ := .init hfresh
  obtain ⟨r₁, hr₁, _⟩ := lz4_roundTrip hinit (fun _ => 7) (fun _ => 0) 20 4
  have hused : Reachable r₁.ctx := hinit.compress hr₁
  obtain ⟨r₂, hr₂, hround⟩ := lz4_roundTrip hused (fun _ => 7) (fun _ => 0) 20 64
  have hcodes : ((lz4UpgradeCompress ⟨initStream⟩ (fun _ => 7) 20 (fun _ => 0) 4).bind fun r =>
      (lz4UpgradeCompress r.ctx (fun _ => 7) 20 (fun _ => 0) 64).map fun r' => (r.code, r'.code)) =
      some (-EINVAL, 0) := by decide +kernel
  rw [hr₁, Option.bind_some, hr₂, Option.map_some, Option.some_inj, Prod.mk.injEq] at hcodes
  obtain ⟨d, hd, hcode, hlen, hA⟩ := hround hcodes.2 r₂.ctx r₂.dst (fun _ => 0) 20
    (Agree.refl _ _) le_rfl (by decide)
  exact ⟨r₁, r₂, d, hr₁, hcodes.1, hr₂, hcodes.2, hd, hcode, hlen, hA⟩

end ZramUpgrade.Lz4
