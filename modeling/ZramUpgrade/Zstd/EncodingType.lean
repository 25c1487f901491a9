import ZramUpgrade.Zstd.Hist
import ZramUpgrade.Zstd.NCount
import ZramUpgrade.Zstd.Normalize

/-!
# Zstd.EncodingType — `ZSTD_selectEncodingType`

How the codes of a block are coded: with the default table, one symbol, the table of the block before,
or a table of their own.  The fast strategies go by the number of sequences, the others by estimated
costs, where an error is the largest cost.  Whatever is selected can be done: the default table only
where it is allowed, one symbol only where there is one, and a table is repeated only if it codes every
symbol that occurs (`selectEncodingType_spec`).
-/

namespace ZramUpgrade.Zstd

open Lib

/-- `SymbolEncodingType_e`. -/
inductive SymbolEncodingType where
  | setBasic
  | setRle
  | setCompressed
  | setRepeat
  deriving DecidableEq

/-- `FSE_repeat`. -/
inductive FseRepeat where
  | none
  | check
  | valid
  deriving DecidableEq

/-- The number of an error, and `ERROR` of it as a `size_t`. -/
def ErrorCode.number : ErrorCode → ℕ
  | .generic => 1
  | .corruptionDetected => 20
  | .tableLogTooLarge => 44
  | .maxSymbolValueTooLarge => 46
  | .maxSymbolValueTooSmall => 48
  | .dstSizeTooSmall => 70
  | .srcSizeWrong => 72
  | .memoryAllocation => 64

/-- A result as a `size_t`. -/
def sizeT : Except ErrorCode ℕ → ℕ
  | .ok n => n
  | .error e => 2 ^ 64 - e.number

/-! ## Costs -/

/-- `kInverseProbabilityLog256`. -/
def inverseProbabilityLog256 : List ℕ :=
  [0, 2048, 1792, 1642, 1536, 1453, 1386, 1329, 1280, 1236, 1197, 1162, 1130, 1100, 1073, 1047, 1024,
    1001, 980, 960, 941, 923, 906, 889, 874, 859, 844, 830, 817, 804, 791, 779, 768, 756, 745, 734, 724,
    714, 704, 694, 685, 676, 667, 658, 650, 642, 633, 626, 618, 610, 603, 595, 588, 581, 574, 567, 561,
    554, 548, 542, 535, 529, 523, 517, 512, 506, 500, 495, 489, 484, 478, 473, 468, 463, 458, 453, 448,
    443, 438, 434, 429, 424, 420, 415, 411, 407, 402, 398, 394, 390, 386, 382, 377, 373, 370, 366, 362,
    358, 354, 350, 347, 343, 339, 336, 332, 329, 325, 322, 318, 315, 311, 308, 305, 302, 298, 295, 292,
    289, 286, 282, 279, 276, 273, 270, 267, 264, 261, 258, 256, 253, 250, 247, 244, 241, 239, 236, 233,
    230, 228, 225, 222, 220, 217, 215, 212, 209, 207, 204, 202, 199, 197, 194, 192, 190, 187, 185, 182,
    180, 178, 175, 173, 171, 168, 166, 164, 162, 159, 157, 155, 153, 151, 149, 146, 144, 142, 140, 138,
    136, 134, 132, 130, 128, 126, 123, 121, 119, 117, 115, 114, 112, 110, 108, 106, 104, 102, 100, 98,
    96, 94, 93, 91, 89, 87, 85, 83, 82, 80, 78, 76, 74, 73, 71, 69, 67, 66, 64, 62, 61, 59, 57, 55, 54,
    52, 50, 49, 47, 46, 44, 42, 41, 39, 37, 36, 34, 33, 31, 30, 28, 26, 25, 23, 22, 20, 19, 17, 16, 14,
    13, 11, 10, 8, 7, 5, 4, 2, 1]

/-- `ZSTD_useLowProbCount`. -/
def useLowProbCount (nbSeq : ℕ) : Bool := 2048 ≤ nbSeq

/-- `ZSTD_NCountCost`. -/
def nCountCost (count : ℕ → ℕ) (max nbSeq fseLog : ℕ) : Except ErrorCode ℕ :=
  let tableLog := optimalTableLog fseLog nbSeq max
  match normalizeCount (fun _ => 0) tableLog count nbSeq max (useLowProbCount nbSeq) with
  | .error e => .error e
  | .ok r =>
    match writeNCount (fun _ => 0) 512 r.2 max tableLog with
    | .error e => .error e
    | .ok w => .ok w.1

/-- `ZSTD_entropyCost`; `cost` is an `unsigned`. -/
def entropyCost (count : ℕ → ℕ) (max total : ℕ) : ℕ :=
  (List.range (max + 1)).foldl
    (fun cost s =>
      let norm := 256 * count s % 2 ^ 32 / total
      let norm := if count s ≠ 0 ∧ norm = 0 then 1 else norm
      (cost + count s * inverseProbabilityLog256.getD norm 0) % 2 ^ 32) 0 >>> 8

/-- `FSE_bitCost`, in `U32`. -/
def bitCost (symbolTT : ℕ → SymbolTransform) (tableLog symbolValue accuracyLog : ℕ) : ℕ :=
  let minNbBits := (symbolTT symbolValue).deltaNbBits >>> 16
  let threshold := (minNbBits + 1) <<< 16
  let tableSize := 1 <<< tableLog
  let deltaFromThreshold :=
    (threshold + 2 ^ 32 - ((symbolTT symbolValue).deltaNbBits + tableSize) % 2 ^ 32) % 2 ^ 32
  let normalizedDeltaFromThreshold := (deltaFromThreshold <<< accuracyLog % 2 ^ 32) >>> tableLog
  let bitMultiplier := 1 <<< accuracyLog
  ((minNbBits + 1) * bitMultiplier + 2 ^ 32 - normalizedDeltaFromThreshold) % 2 ^ 32

/-- A symbol's part of `ZSTD_fseBitCost`. -/
def addBitCost (ctable : CTable) (count : ℕ → ℕ) (cost s : ℕ) : Except ErrorCode ℕ :=
  let badCost := (ctable.tableLog + 1) <<< 8
  let bitCost := bitCost ctable.symbolTT ctable.tableLog s 8
  if count s = 0 then .ok cost
  else if badCost ≤ bitCost then .error .generic
  else .ok ((cost + count s * bitCost) % 2 ^ 64)

/-- `ZSTD_fseBitCost`; `kAccuracyLog` is 8. -/
def fseBitCost (ctable : CTable) (count : ℕ → ℕ) (max : ℕ) : Except ErrorCode ℕ :=
  if ctable.maxSymbolValue < max then .error .generic
  else
    match (List.range (max + 1)).foldlM (addBitCost ctable count) 0 with
    | .error e => .error e
    | .ok cost => .ok (cost >>> 8)

/-- `ZSTD_crossEntropyCost`. -/
def crossEntropyCost (norm : ℕ → ℤ) (accuracyLog : ℕ) (count : ℕ → ℕ) (max : ℕ) : ℕ :=
  let shift := 8 - accuracyLog
  (List.range (max + 1)).foldl
    (fun cost s =>
      let normAcc := if norm s ≠ -1 then (norm s).toNat else 1
      let norm256 := normAcc <<< shift
      (cost + count s * inverseProbabilityLog256.getD norm256 0 % 2 ^ 32) % 2 ^ 64) 0 >>> 8

/-! ## The selection -/

/-- `ZSTD_selectEncodingType`: the type, and `*repeatMode`; `ZSTD_lazy` is 4. -/
def selectEncodingType (repeatMode : FseRepeat) (count : ℕ → ℕ) (max mostFrequent nbSeq fseLog : ℕ)
    (prevCTable : CTable) (defaultNorm : ℕ → ℤ) (defaultNormLog : ℕ) (isDefaultAllowed : Bool)
    (strategy : ℕ) : SymbolEncodingType × FseRepeat :=
  if mostFrequent = nbSeq then
    -- basic coding of two symbols takes less than the byte of one
    if isDefaultAllowed ∧ nbSeq ≤ 2 then (.setBasic, .none) else (.setRle, .none)
  else if strategy < 4 then
    let dynamicFseNbSeqMin := ((1 <<< defaultNormLog) * (10 - strategy)) >>> 3
    if isDefaultAllowed ∧ repeatMode = .valid ∧ nbSeq < 1000 then (.setRepeat, repeatMode)
    else if isDefaultAllowed ∧
        (nbSeq < dynamicFseNbSeqMin ∨ mostFrequent < nbSeq >>> (defaultNormLog - 1)) then
      (.setBasic, .none)
    else (.setCompressed, .check)
  else
    let basicCost := if isDefaultAllowed then crossEntropyCost defaultNorm defaultNormLog count max
      else sizeT (.error .generic)
    let repeatCost := if repeatMode ≠ .none then sizeT (fseBitCost prevCTable count max)
      else sizeT (.error .generic)
    let nCountCost := sizeT (nCountCost count max nbSeq fseLog)
    let compressedCost := (nCountCost <<< 3 + entropyCost count max nbSeq) % 2 ^ 64
    if basicCost ≤ repeatCost ∧ basicCost ≤ compressedCost then (.setBasic, .none)
    else if repeatCost ≤ compressedCost then (.setRepeat, repeatMode)
    else (.setCompressed, .check)

/-! ## What is selected can be done -/

variable {count : ℕ → ℕ} {max total nbSeq fseLog srcSize maxSymbolValue tableLog s : ℕ}

theorem minTableLog_le_seven (srcSize : ℕ) (h : max ≤ 52) : minTableLog srcSize max ≤ 7 := by
  have hlog : highbit32 max < 6 := by
    rcases Nat.eq_zero_or_pos max with rfl | hpos
    · decide
    · exact (Nat.log2_lt (by omega)).mpr (by omega)
  unfold minTableLog
  dsimp only
  split_ifs <;> omega

theorem minTableLog_mono {srcSize' : ℕ} (h0 : 0 < srcSize) (h : srcSize ≤ srcSize') :
    minTableLog srcSize max ≤ minTableLog srcSize' max := by
  have hlog : highbit32 srcSize ≤ highbit32 srcSize' :=
    (Nat.le_log2 (by omega)).mpr ((Nat.log2_self_le (by omega)).trans h)
  unfold minTableLog
  dsimp only
  split_ifs <;> omega

/-- **The table log** is enough for the symbols, and not more than asked for. -/
theorem optimalTableLog_spec (srcSize : ℕ) {maxTableLog : ℕ} (h : max ≤ 52) (h7 : 7 ≤ maxTableLog)
    (h12 : maxTableLog ≤ 12) :
    5 ≤ optimalTableLog maxTableLog srcSize max ∧
      optimalTableLog maxTableLog srcSize max ≤ maxTableLog ∧
      minTableLog srcSize max ≤ optimalTableLog maxTableLog srcSize max := by
  have hmin := minTableLog_le_seven srcSize h
  unfold optimalTableLog optimalTableLogInternal
  dsimp only
  rw [if_neg (show maxTableLog ≠ 0 by omega)]
  split_ifs <;> omega

/-- A symbol that does not count has a bad cost. -/
theorem bitCost_absent {symbolTT : ℕ → SymbolTransform} (hlog : tableLog ≤ 15)
    (h : (symbolTT s).deltaNbBits = (tableLog + 1) <<< 16 - 1 <<< tableLog) :
    bitCost symbolTT tableLog s 8 = (tableLog + 1) <<< 8 := by
  unfold bitCost
  rw [h]
  interval_cases tableLog <;> decide +kernel

/-- **A table has a cost** only for symbols that it codes. -/
theorem fseBitCost_ok {d : Distribution} {ctable : CTable} {cost : ℕ} (hc : d.CodedBy ctable)
    (h : fseBitCost ctable count max = .ok cost) :
    max ≤ d.maxSymbolValue ∧ ∀ s ≤ max, count s ≠ 0 → d.nc s ≠ 0 := by
  unfold fseBitCost at h
  rw [hc.symbol_eq] at h
  split_ifs at h with hmax
  refine ⟨not_lt.mp hmax, fun s hs hcount => ?_⟩
  have hloop := foldlM_range (I := fun k _ => ∀ s < k, count s ≠ 0 → d.nc s ≠ 0)
    (f := addBitCost ctable count) (n := max + 1) (b := 0) (fun s hs => absurd hs (Nat.not_lt_zero s)) ?_
  · rcases hloop with ⟨r, -, hI⟩ | ⟨e, k, r, -, -, -, herr⟩
    · exact hI s (by omega) hcount
    · rw [herr] at h
      cases h
  · intro k hk b b' hI hstep s hs hcount hzero
    rcases Nat.lt_succ_iff_lt_or_eq.mp hs with hlt | rfl
    · exact hI s hlt hcount hzero
    · unfold addBitCost at hstep
      rw [if_neg hcount, if_pos] at hstep
      · cases hstep
      · rw [bitCost_absent (by rw [hc.tableLog]; exact d.log_le)
          (by rw [hc.absent s (by omega) hzero, hc.tableLog])]

/-- The counts of a block: more than one symbol, as many occurrences as sequences. -/
structure Mixed (count : ℕ → ℕ) (max total : ℕ) : Prop where
  sum_eq : ∑ s ∈ Finset.range (max + 1), count s = total
  pos : 0 < total
  lt : total < 2 ^ 32
  ne : ∀ s ≤ max, count s ≠ total

/-- **Counts get a table**, of the log that `FSE_optimalTableLog` says for them or for a few more. -/
theorem Mixed.normalize (h : Mixed count max total) (h52 : max ≤ 52) (h7 : 7 ≤ fseLog)
    (h12 : fseLog ≤ 12) (hle : total ≤ nbSeq) (norm₀ : ℕ → ℤ) (low : Bool) :
    ∃ d : Distribution, normalizeCount norm₀ (optimalTableLog fseLog nbSeq max) count total max low =
        .ok (optimalTableLog fseLog nbSeq max, d.nc) ∧
      d.maxSymbolValue = max ∧ d.tableLog = optimalTableLog fseLog nbSeq max ∧
      ∀ s ≤ max, d.nc s = 0 ↔ count s = 0 := by
  obtain ⟨h5, hlog, hmin⟩ := optimalTableLog_spec nbSeq h52 h7 h12
  rcases normalize_spec norm₀ low h.sum_eq h.pos h.lt h5
    (hlog.trans h12) ((minTableLog_mono h.pos hle).trans hmin) with ⟨⟨s, hs, heq⟩, -⟩ | ⟨-, nc, hrun, hN⟩
  · exact absurd heq (h.ne s hs)
  · exact ⟨hN.distribution h5 (hlog.trans h12) (by omega), hrun, rfl, rfl, hN.zero_iff⟩

theorem nCountCost_le (h : Mixed count max nbSeq) (h52 : max ≤ 52) (h7 : 7 ≤ fseLog)
    (h12 : fseLog ≤ 12) : ∃ n ≤ 200, nCountCost count max nbSeq fseLog = .ok n := by
  obtain ⟨h5, hlog, -⟩ := optimalTableLog_spec nbSeq h52 h7 h12
  obtain ⟨d, hrun, hmax, hdlog, -⟩ := h.normalize h52 h7 h12 le_rfl (fun _ => 0) (useLowProbCount nbSeq)
  obtain ⟨fs, hfs⟩ := d.exists_header
  have hbits := d.bits_le hfs
  have hprod : optimalTableLog fseLog nbSeq max * (max + 1) ≤ 12 * 53 :=
    Nat.mul_le_mul (by omega) (by omega)
  rw [hmax, hdlog] at hbits
  rcases writeNCount_spec d hfs (fun _ => 0) 512 true with ⟨hf, -⟩ | ⟨out, hok, -⟩
  · exact absurd hf (by decide)
  rw [hmax, hdlog] at hok
  refine ⟨(bitsOf fs + 11) / 8, by omega, ?_⟩
  have hbound : ¬ 512 < nCountWriteBound max (optimalTableLog fseLog nbSeq max) := by
    unfold nCountWriteBound
    rw [Nat.mul_comm]
    split_ifs <;> omega
  rw [nCountCost, hrun]
  dsimp only
  rw [writeNCount, if_neg (by omega), if_neg (by omega), if_neg hbound, hok]

theorem entropyCost_lt (count : ℕ → ℕ) (max total : ℕ) : entropyCost count max total < 2 ^ 24 := by
  have hcost : ∀ n, (List.range n).foldl (fun cost s =>
      let norm := 256 * count s % 2 ^ 32 / total
      let norm := if count s ≠ 0 ∧ norm = 0 then 1 else norm
      (cost + count s * inverseProbabilityLog256.getD norm 0) % 2 ^ 32) 0 < 2 ^ 32 := fun n =>
    foldl_range (I := fun _ cost => cost < 2 ^ 32) (by decide) fun _ _ _ _ => Nat.mod_lt _ (by decide)
  have := hcost (max + 1)
  rw [entropyCost, Nat.shiftRight_eq_div_pow, Nat.div_lt_iff_lt_mul (Nat.two_pow_pos 8)]
  exact this

/-- A cost that is not the largest is one. -/
theorem sizeT_ok {r : Except ErrorCode ℕ} (h : sizeT r < 2 ^ 63) : ∃ n, r = .ok n := by
  cases r with
  | ok n => exact ⟨n, rfl⟩
  | error e =>
    have hle : e.number ≤ 72 := by cases e <;> decide
    rw [sizeT] at h
    omega

/-- What may be selected, and the repeat mode then. -/
inductive Selects (repeatMode : FseRepeat) (h : Histogram) (nbSeq : ℕ) (prevCTable : CTable)
    (isDefaultAllowed : Bool) : SymbolEncodingType → FseRepeat → Prop where
  | basic (hd : isDefaultAllowed = true) : Selects repeatMode h nbSeq prevCTable isDefaultAllowed .setBasic .none
  | rle (hall : h.largest = nbSeq) : Selects repeatMode h nbSeq prevCTable isDefaultAllowed .setRle .none
  | again (hne : repeatMode ≠ .none)
      (hcost : repeatMode = .valid ∨ ∃ c, fseBitCost prevCTable h.count h.maxSymbolValue = .ok c) :
      Selects repeatMode h nbSeq prevCTable isDefaultAllowed .setRepeat repeatMode
  | compressed (hne : h.largest ≠ nbSeq) :
      Selects repeatMode h nbSeq prevCTable isDefaultAllowed .setCompressed .check

/-- The counts of codes that are not all one. -/
theorem Histogram.Of.mixed {src : ℕ → ℕ} {n : ℕ} {h : Histogram} (hh : Histogram.Of src n max h)
    (hn : 0 < n) (hlt : n < 2 ^ 32) (hne : h.largest ≠ n) : Mixed h.count h.maxSymbolValue n where
  sum_eq := by
    rw [← sum_total src (m := h.maxSymbolValue + 1) fun u hu => Nat.lt_succ_of_le (hh.below u hu)]
    refine Finset.sum_congr rfl fun s hs => hh.count s ?_
    have := Finset.mem_range.mp hs
    have := hh.symbol_le
    omega
  pos := hn
  lt := hlt
  ne s hs heq := by
    rw [hh.count s (hs.trans hh.symbol_le)] at heq
    have hle := hh.largest.1 s
    obtain ⟨t, -, ht⟩ := hh.largest.2
    have := total_le src t n
    omega

/-- **What is selected can be done**, by any strategy. -/
theorem selectEncodingType_spec (repeatMode : FseRepeat) (prevCTable : CTable) (defaultNorm : ℕ → ℤ)
    (defaultNormLog : ℕ) (isDefaultAllowed : Bool) (strategy : ℕ) {src : ℕ → ℕ} {h : Histogram}
    (hh : Histogram.Of src nbSeq max h) (hmax : max ≤ 52) (hn : 0 < nbSeq)
    (hlt : nbSeq < 2 ^ 32) (h7 : 7 ≤ fseLog) (h12 : fseLog ≤ 12) :
    Selects repeatMode h nbSeq prevCTable isDefaultAllowed
      (selectEncodingType repeatMode h.count h.maxSymbolValue h.largest nbSeq fseLog prevCTable
        defaultNorm defaultNormLog isDefaultAllowed strategy).1
      (selectEncodingType repeatMode h.count h.maxSymbolValue h.largest nbSeq fseLog prevCTable
        defaultNorm defaultNormLog isDefaultAllowed strategy).2 := by
  unfold selectEncodingType
  by_cases hall : h.largest = nbSeq
  · rw [if_pos hall]
    split_ifs with hbasic
    · exact .basic hbasic.1
    · exact .rle hall
  rw [if_neg hall]
  by_cases hfast : strategy < 4
  · rw [if_pos hfast]
    dsimp only
    split_ifs with hrep hbasic
    · exact .again (by rw [hrep.2.1]; decide) (.inl hrep.2.1)
    · exact .basic hbasic.1
    · exact .compressed hall
  · rw [if_neg hfast]
    dsimp only
    -- the cost of a table of its own is not the largest
    obtain ⟨n, hn200, hcost⟩ := nCountCost_le (hh.mixed hn hlt hall) (hh.symbol_le.trans hmax) h7 h12
    have hentropy := entropyCost_lt h.count h.maxSymbolValue nbSeq
    rw [hcost]
    have hsmall : (sizeT (.ok n) <<< 3 + entropyCost h.count h.maxSymbolValue nbSeq) % 2 ^ 64 < 2 ^ 63 := by
      rw [sizeT, Nat.shiftLeft_eq]
      omega
    generalize (sizeT (.ok n) <<< 3 + entropyCost h.count h.maxSymbolValue nbSeq) % 2 ^ 64 = compressed
      at *
    have hbad : sizeT (.error .generic) = 2 ^ 64 - 1 := by rw [sizeT, ErrorCode.number]
    have hbasic : (if isDefaultAllowed = true then
          crossEntropyCost defaultNorm defaultNormLog h.count h.maxSymbolValue
        else sizeT (.error .generic)) ≤ compressed → isDefaultAllowed = true := fun hle => by
      by_contra hnot
      rw [if_neg hnot, hbad] at hle
      omega
    have hrepeat : (if repeatMode ≠ .none then sizeT (fseBitCost prevCTable h.count h.maxSymbolValue)
        else sizeT (.error .generic)) ≤ compressed → repeatMode ≠ .none ∧
          ∃ c, fseBitCost prevCTable h.count h.maxSymbolValue = .ok c := fun hle => by
      by_cases hmode : repeatMode ≠ .none
      · rw [if_pos hmode] at hle
        exact ⟨hmode, sizeT_ok (by omega)⟩
      · rw [if_neg hmode, hbad] at hle
        omega
    generalize (if isDefaultAllowed = true then _ else _ : ℕ) = basicCost at *
    generalize (if repeatMode ≠ .none then _ else _ : ℕ) = repeatCost at *
    split_ifs with h1 h2
    · exact .basic (hbasic h1.2)
    · exact .again (hrepeat h2).1 (.inr (hrepeat h2).2)
    · exact .compressed hall

end ZramUpgrade.Zstd
