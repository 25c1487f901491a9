import ZramUpgrade.Zstd.EncodingType
import ZramUpgrade.Zstd.NCountRead
import ZramUpgrade.Zstd.SeqTable

/-!
# Zstd.SeqBuild — `ZSTD_buildCTable` and `ZSTD_buildSeqTable`

Coder and decoder build the table of one kind of code as the encoding type says: the coder writes what
the decoder needs for it, and the tables keep in step (`zstdBuildCTable_buildSeqTable`).  Where a table
may be repeated in the next block, the decoder still has the table of the same counts (`Repeats`).
-/

namespace ZramUpgrade.Zstd

open Lib

/-! ## The coder's table -/

/-- What the entropy workspace holds, and its size. -/
structure EntropyWorkspace where
  count : ℕ → ℕ
  norm : ℕ → ℤ
  tableSymbol : ℕ → ℕ
  spread : Mem
  size : ℕ

/-- `HUF_WORKSPACE_SIZE`. -/
def hufWorkspaceSize : ℕ := (8 <<< 10) + 512

/-- `FSE_BUILD_CTABLE_WORKSPACE_SIZE_U32(MaxSeq, MaxFSELog)`, in bytes. -/
def buildCTableWkspSize : ℕ := 4 * ((52 + 2 + 2 ^ 9) / 2 + 2)

/-- `ZSTD_buildCTable`: what is written to `dst`, and the table. -/
def zstdBuildCTable (dst : Mem) (dstCapacity : ℕ) (nextCTable : CTable) (fseLog : ℕ)
    (type : SymbolEncodingType) (count : ℕ → ℕ) (max : ℕ) (codeTable : ℕ → ℕ) (nbSeq : ℕ)
    (defaultNorm : ℕ → ℤ) (defaultNormLog defaultMax : ℕ) (prevCTable : CTable) (wksp : EntropyWorkspace) :
    Except ErrorCode ((ℕ × Mem) × CTable) :=
  match type with
  | .setRle =>
    if dstCapacity = 0 then .error .dstSizeTooSmall
    else .ok ((1, store dst 0 (UInt8.ofNat (codeTable 0))), buildCTableRle nextCTable (max % 256))
  | .setRepeat => .ok ((0, dst), prevCTable)
  | .setBasic =>
    match buildCTable nextCTable defaultNorm defaultMax defaultNormLog wksp.tableSymbol wksp.spread
      wksp.size with
    | .error e => .error e
    | .ok ct => .ok ((0, dst), ct)
  | .setCompressed =>
    let tableLog := optimalTableLog fseLog nbSeq max
    let last := codeTable (nbSeq - 1)
    let nbSeq1 := if 1 < count last then nbSeq - 1 else nbSeq
    let count := if 1 < count last then Function.update count last (count last - 1) else count
    match normalizeCount wksp.norm tableLog count nbSeq1 max (useLowProbCount nbSeq1) with
    | .error e => .error e
    | .ok norm =>
      match writeNCount dst dstCapacity norm.2 max tableLog with
      | .error e => .error e
      | .ok written =>
        match buildCTable nextCTable norm.2 max tableLog wksp.tableSymbol wksp.spread
          buildCTableWkspSize with
        | .error e => .error e
        | .ok ct => .ok (written, ct)

/-! ## The decoder's table -/

/-- `DTableSpace`, and the table in use. -/
structure SeqSlot where
  space : SeqTable
  ptr : SeqTable

/-- `ZSTD_buildSeqTable`, over what `norm` and the workspace hold: the size, and the table. -/
def buildSeqTable (slot : SeqSlot) (type : SymbolEncodingType) (max maxLog : ℕ) (src : Mem) (srcSize : ℕ)
    (baseValue nbAdditionalBits : ℕ → ℕ) (defaultTable : SeqTable) (flagRepeatTable : Bool)
    (norm : ℕ → ℤ) (spread : Mem) : Except ErrorCode (ℕ × SeqSlot) :=
  match type with
  | .setRle =>
    if srcSize = 0 then .error .srcSizeWrong
    else if max < (src 0).toNat then .error .corruptionDetected
    else
      let symbol := (src 0).toNat
      let table := buildSeqTableRle slot.space (baseValue symbol) (nbAdditionalBits symbol)
      .ok (1, ⟨table, table⟩)
  | .setBasic => .ok (0, { slot with ptr := defaultTable })
  | .setRepeat => if flagRepeatTable then .ok (0, slot) else .error .corruptionDetected
  | .setCompressed =>
    match readNCount norm max src srcSize with
    | .error _ => .error .corruptionDetected
    | .ok header =>
      if maxLog < header.tableLog then .error .corruptionDetected
      else
        let table := buildFSETable slot.space header.nc header.maxSymbolValue baseValue nbAdditionalBits
          header.tableLog spread
        .ok (header.size, ⟨table, table⟩)

/-! ## One distribution or another with its counts -/

namespace Distribution

variable {d d' : Distribution}

/-- The symbols of the cells only depend on the counts. -/
theorem symbolOf_congr (hlog : d'.tableLog = d.tableLog) (hmax : d'.maxSymbolValue = d.maxSymbolValue)
    (hnc : ∀ s ≤ d.maxSymbolValue, d'.nc s = d.nc s) : d'.symbolOf = d.symbolOf := by
  have hlow : d'.low = d.low := by
    unfold low lowSymbols
    rw [hmax]
    refine List.filter_congr fun s hs => ?_
    rw [hnc s (by have := List.mem_range.mp hs; omega)]
  have hocc : d'.occ = d.occ := by
    unfold occ occurrences
    rw [hmax]
    refine List.flatMap_congr fun s hs => ?_
    rw [hnc s (by have := List.mem_range.mp hs; omega)]
  have hsize : d'.size = d.size := by rw [size, size, hlog]
  have hwrites : d'.writes = d.writes := by
    have hlw : lowWrites d'.nc (d'.maxSymbolValue + 1) d'.size =
        lowWrites d.nc (d.maxSymbolValue + 1) d.size := by
      unfold lowWrites
      rw [hsize, show lowSymbols d'.nc (d'.maxSymbolValue + 1) = lowSymbols d.nc (d.maxSymbolValue + 1)
        from hlow]
    rw [writes, writes, hlw, positions, positions, lastFree, lastFree, hlow, hocc, hsize]
  funext u
  rw [symbolOf, symbolOf, hwrites]

theorem SeqDecodedBy.congr {baseValue nbAdditionalBits : ℕ → ℕ} {dt : SeqTable}
    (h : d'.SeqDecodedBy baseValue nbAdditionalBits dt) (hlog : d'.tableLog = d.tableLog)
    (hmax : d'.maxSymbolValue = d.maxSymbolValue) (hnc : ∀ s ≤ d.maxSymbolValue, d'.nc s = d.nc s) :
    d.SeqDecodedBy baseValue nbAdditionalBits dt := by
  refine ⟨h.1.trans hlog, fun u hu => ?_⟩
  rw [h.2 u (by rw [size, hlog]; exact hu), hlog, symbolOf_congr hlog hmax hnc]

/-- The distribution of counts that are the same. -/
def withCounts (d : Distribution) (nc : ℕ → ℤ) (hnc : ∀ s ≤ d.maxSymbolValue, nc s = d.nc s) :
    Distribution where
  nc := nc
  maxSymbolValue := d.maxSymbolValue
  tableLog := d.tableLog
  ge s hs := (hnc s hs).symm ▸ d.ge s hs
  sum_eq := (cumul_congr fun s hs => hnc s (by omega)).trans d.sum_eq
  log_ge := d.log_ge
  log_le := d.log_le
  symbol_le := d.symbol_le

/-- **The table of a header** that was read is one of the distribution that was written. -/
theorem seqDecodedBy_of_recovers (d : Distribution) {maxSymbolValue size : ℕ} {r : NCountResult}
    (hrec : Recovers d maxSymbolValue size r) (hlast : d.nc d.maxSymbolValue ≠ 0) (dt : SeqTable)
    (baseValue nbAdditionalBits : ℕ → ℕ) (spread : Mem) :
    d.SeqDecodedBy baseValue nbAdditionalBits
      (buildFSETable dt r.nc r.maxSymbolValue baseValue nbAdditionalBits r.tableLog spread) := by
  have hmax : r.maxSymbolValue = d.maxSymbolValue := by
    have hle := hrec.symbol_le
    by_contra hne
    exact hlast (hrec.rest _ (by omega) le_rfl)
  have hspec := (d.withCounts r.nc hrec.same).buildFSETable_spec dt baseValue nbAdditionalBits spread
  rw [hmax, hrec.tableLog]
  exact SeqDecodedBy.congr hspec rfl rfl hrec.same

end Distribution

/-! ## One kind of code -/

/-- A kind of code: the symbols and the table log there may be, what a code stands for, and the default. -/
structure SeqKind where
  maxSymbol : ℕ
  maxLog : ℕ
  baseValue : ℕ → ℕ
  nbAdditionalBits : ℕ → ℕ
  default : Distribution
  defaultTable : SeqTable
  symbol_le : maxSymbol ≤ 52
  log_ge : 7 ≤ maxLog
  log_le : maxLog ≤ 9
  default_le : default.tableLog ≤ 6 ∧ default.maxSymbolValue ≤ 52
  counts : ∀ s ≤ default.maxSymbolValue, default.nc s ≠ 0
  decoded : default.SeqDecodedBy baseValue nbAdditionalBits defaultTable

/-- Literal lengths: `MaxLL`, `LLFSELog`. -/
def llKind : SeqKind where
  maxSymbol := maxLL
  maxLog := 9
  baseValue := llBase
  nbAdditionalBits := llBits
  default := llDefault
  defaultTable := defaultDTable 6 llDefaultCells
  symbol_le := by decide
  log_ge := by decide
  log_le := le_rfl
  default_le := by decide
  counts := by decide
  decoded := Distribution.defaultDTables_spec.1

/-- Offsets: `MaxOff`, `OffFSELog`. -/
def ofKind : SeqKind where
  maxSymbol := maxOff
  maxLog := 8
  baseValue := ofBase
  nbAdditionalBits := ofBits
  default := ofDefault
  defaultTable := defaultDTable 5 ofDefaultCells
  symbol_le := by decide
  log_ge := by decide
  log_le := by decide
  default_le := by decide
  counts := by decide
  decoded := Distribution.defaultDTables_spec.2.1

/-- Match lengths: `MaxML`, `MLFSELog`. -/
def mlKind : SeqKind where
  maxSymbol := maxML
  maxLog := 9
  baseValue := mlBase
  nbAdditionalBits := mlBits
  default := mlDefault
  defaultTable := defaultDTable 6 mlDefaultCells
  symbol_le := by decide
  log_ge := by decide
  log_le := le_rfl
  default_le := by decide
  counts := by decide
  decoded := Distribution.defaultDTables_spec.2.2

/-- Where a table may be repeated, coder and decoder have tables of the same counts; a valid one counts
every code. -/
def Repeats (k : SeqKind) (repeatMode : FseRepeat) (ct : CTable) (slot : SeqSlot) : Prop :=
  repeatMode ≠ .none → ∃ d : Distribution, d.CodedBy ct ∧
    d.SeqDecodedBy k.baseValue k.nbAdditionalBits slot.ptr ∧ d.tableLog ≤ k.maxLog ∧
    (repeatMode = .valid → ∀ s ≤ k.maxSymbol, d.Counts s)

/-- The tables keep in step for the codes of a block. -/
def InStep (k : SeqKind) (codes : ℕ → ℕ) (nbSeq : ℕ) (ct : CTable) (slot : SeqSlot) : Prop :=
  ∃ (Counts : ℕ → Prop) (_ : Coding ct slot.ptr k.baseValue k.nbAdditionalBits k.maxLog Counts),
    ∀ n < nbSeq, Counts (codes n)

section Build

variable {k : SeqKind} {codes : ℕ → ℕ} {nbSeq : ℕ} {h : Histogram} {ct prevCTable nextCTable : CTable}
  {slot : SeqSlot} {wksp : EntropyWorkspace} {dst : Mem} {dstCapacity : ℕ} {repeatMode : FseRepeat}

/-- Tables of a distribution that counts every code. -/
theorem Distribution.inStep (d : Distribution) (hc : d.CodedBy ct)
    (hd : d.SeqDecodedBy k.baseValue k.nbAdditionalBits slot.ptr) (hlog : d.tableLog ≤ k.maxLog)
    (hcodes : ∀ n < nbSeq, d.Counts (codes n)) : InStep k codes nbSeq ct slot :=
  ⟨d.Counts, d.coding hlog (k.log_le.trans (by decide)) hc hd, hcodes⟩

/-- One occurrence less of a symbol that has more leaves more than one symbol. -/
theorem Mixed.decrement {count : ℕ → ℕ} {max total last : ℕ} (hm : Mixed count max total)
    (hlast : last ≤ max) (h1 : 1 < count last) :
    Mixed (Function.update count last (count last - 1)) max (total - 1) ∧
      ∀ s ≤ max, Function.update count last (count last - 1) s = 0 ↔ count s = 0 := by
  have hmem : last ∈ Finset.range (max + 1) := Finset.mem_range.mpr (by omega)
  have hsum := hm.sum_eq
  have hle : ∀ s ≤ max, s ≠ last → count s + count last ≤ total := fun s hs hne => by
    rw [← hsum, ← Finset.add_sum_erase _ _ hmem, Nat.add_comm]
    refine Nat.add_le_add_left (Finset.single_le_sum (f := count) (fun _ _ => Nat.zero_le _) ?_) _
    exact Finset.mem_erase.mpr ⟨hne, Finset.mem_range.mpr (by omega)⟩
  have hlastle : count last < total := lt_of_le_of_ne
    (hsum ▸ Finset.single_le_sum (f := count) (fun _ _ => Nat.zero_le _) hmem) (hm.ne last hlast)
  refine ⟨⟨?_, by omega, by have := hm.lt; omega, fun s hs heq => ?_⟩, fun s hs => ?_⟩
  · rw [Finset.sum_update_of_mem hmem, ← hsum, ← Finset.add_sum_erase _ _ hmem,
      Finset.sdiff_singleton_eq_erase]
    omega
  · rcases eq_or_ne s last with rfl | hne
    · rw [Function.update_self] at heq
      omega
    · rw [Function.update_of_ne hne] at heq
      have := hle s hs hne
      omega
  · rcases eq_or_ne s last with rfl | hne
    · rw [Function.update_self]
      omega
    · rw [Function.update_of_ne hne]

/-- **One symbol**, said by a byte. -/
theorem zstdBuildCTable_rle (nextCTable : CTable) (hh : Histogram.Of codes nbSeq k.maxSymbol h)
    (hn : 0 < nbSeq) (hall : h.largest = nbSeq) {src : Mem} {srcSize : ℕ}
    (hsrc : Agree src (store dst 0 (UInt8.ofNat (codes 0))) 1) (hsize : 1 ≤ srcSize) (norm : ℕ → ℤ)
    (spread : Mem) (flag : Bool) :
    ∃ slot', buildSeqTable slot .setRle k.maxSymbol k.maxLog src srcSize k.baseValue k.nbAdditionalBits
        k.defaultTable flag norm spread = .ok (1, slot') ∧
      InStep k codes nbSeq (buildCTableRle nextCTable (h.maxSymbolValue % 256)) slot' := by
  have h52 := k.symbol_le
  have hmax := hh.symbol_le
  -- every code is the last that occurs
  have hcodes : ∀ u < nbSeq, codes u = h.maxSymbolValue := by
    obtain ⟨s, -, hs⟩ := hh.largest.2
    have hsame := total_eq_iff.mp (hs.trans hall)
    obtain ⟨v, hv, hvmax⟩ := total_pos.mp (Nat.pos_of_ne_zero hh.last)
    intro u hu
    rw [hsame u hu, ← hvmax, hsame v hv]
  have h0 := hcodes 0 hn
  have hbyte : (src 0).toNat = h.maxSymbolValue := by
    rw [hsrc 0 (by decide), store_self, h0, UInt8.toNat_ofNat', Nat.mod_eq_of_lt (by omega)]
  set table := buildSeqTableRle slot.space (k.baseValue h.maxSymbolValue)
    (k.nbAdditionalBits h.maxSymbolValue)
  refine ⟨⟨table, table⟩, ?_, ?_⟩
  · rw [buildSeqTable, if_neg (by omega), if_neg (by omega), hbyte]
  · rw [Nat.mod_eq_of_lt (show h.maxSymbolValue < 256 by omega)]
    exact ⟨_, Coding.rle _ _ _ _ _ _, hcodes⟩

/-- **A table of its own**, of which the header is written, or for which there is no room. -/
theorem zstdBuildCTable_compressed (dst : Mem) (dstCapacity : ℕ) (nextCTable prevCTable : CTable)
    (slot : SeqSlot) (wksp : EntropyWorkspace) (hh : Histogram.Of codes nbSeq k.maxSymbol h) (hn : 0 < nbSeq)
    (hlt : nbSeq < 2 ^ 32) (hne : h.largest ≠ nbSeq) (defaultNorm : ℕ → ℤ)
    (defaultNormLog defaultMax : ℕ) :
    zstdBuildCTable dst dstCapacity nextCTable k.maxLog .setCompressed h.count h.maxSymbolValue codes nbSeq
        defaultNorm defaultNormLog defaultMax prevCTable wksp = .error .dstSizeTooSmall ∨
    ∃ size out ct, zstdBuildCTable dst dstCapacity nextCTable k.maxLog .setCompressed h.count
        h.maxSymbolValue codes nbSeq defaultNorm defaultNormLog defaultMax prevCTable wksp =
          .ok ((size, out), ct) ∧ size ≤ dstCapacity ∧
      ∀ (src : Mem) (srcSize : ℕ), Agree src out size → size ≤ srcSize →
        ∀ (norm : ℕ → ℤ) (spread : Mem) (flag : Bool), ∃ slot', buildSeqTable slot .setCompressed
            k.maxSymbol k.maxLog src srcSize k.baseValue k.nbAdditionalBits k.defaultTable flag norm
            spread = .ok (size, slot') ∧
          InStep k codes nbSeq ct slot' ∧ Repeats k .check ct slot' := by
  have h52 := k.symbol_le
  have h7 := k.log_ge
  have h9 := k.log_le
  have hmax := hh.symbol_le
  have hm := hh.mixed hn hlt hne
  have hlastle : codes (nbSeq - 1) ≤ h.maxSymbolValue := hh.below _ (by omega)
  rw [zstdBuildCTable]
  generalize hnb1 : (if 1 < h.count (codes (nbSeq - 1)) then nbSeq - 1 else nbSeq) = nbSeq1
  generalize hcount1 : (if 1 < h.count (codes (nbSeq - 1)) then
    Function.update h.count (codes (nbSeq - 1)) (h.count (codes (nbSeq - 1)) - 1) else h.count) = count1
  -- the same codes are counted, maybe the last one time less
  obtain ⟨hm1, hzero, hle⟩ : Mixed count1 h.maxSymbolValue nbSeq1 ∧
      (∀ s ≤ h.maxSymbolValue, count1 s = 0 ↔ h.count s = 0) ∧ nbSeq1 ≤ nbSeq := by
    rw [← hnb1, ← hcount1]
    split_ifs with h1
    · obtain ⟨hm', hz⟩ := hm.decrement hlastle h1
      exact ⟨hm', hz, Nat.sub_le _ _⟩
    · exact ⟨hm, fun _ _ => Iff.rfl, le_rfl⟩
  obtain ⟨h5, hloglef, -⟩ := optimalTableLog_spec nbSeq (hmax.trans h52) h7
    (h9.trans (by decide))
  obtain ⟨d, hnorm, hdmax, hdlog, hdzero⟩ := hm1.normalize (hmax.trans h52) h7 (h9.trans (by decide)) hle
    wksp.norm (useLowProbCount nbSeq1)
  have hcounts : ∀ n < nbSeq, d.Counts (codes n) := fun n hlt' => by
    have hle' := hh.below n hlt'
    refine ⟨hdmax ▸ hle', fun h0 => ?_⟩
    have hz := (hzero _ hle').mp ((hdzero _ hle').mp h0)
    rw [hh.count _ (hle'.trans hmax)] at hz
    exact absurd hz (total_pos.mpr ⟨n, hlt', rfl⟩).ne'
  have hlast : d.nc d.maxSymbolValue ≠ 0 := fun h0 => by
    rw [hdmax] at h0
    have hz := (hzero _ le_rfl).mp ((hdzero _ le_rfl).mp h0)
    rw [hh.count _ hmax] at hz
    exact hh.last hz
  have hlogk : d.tableLog ≤ k.maxLog := hdlog ▸ hloglef
  rw [hnorm]
  dsimp only
  rw [← hdlog, ← hdmax]
  cases hrun : writeNCount dst dstCapacity d.nc d.maxSymbolValue d.tableLog with
  | error e =>
    left
    rw [(writeNCount_error d (by omega) hrun).2]
  | ok w =>
    right
    obtain ⟨fs, hfs⟩ := d.exists_header
    obtain ⟨hn', hle', hval, -⟩ := writeNCount_header d hfs (n := w.1) hrun
    obtain ⟨ct, hct⟩ := d.buildCTable_ok nextCTable wksp.tableSymbol wksp.spread
      (show buildCTableWorkspaceSize d.maxSymbolValue d.tableLog ≤ buildCTableWkspSize by
        have hpow : 2 ^ d.tableLog ≤ 2 ^ 9 := Nat.pow_le_pow_right (by decide) (by omega)
        unfold buildCTableWorkspaceSize buildCTableWkspSize
        omega)
    rw [hct]
    refine ⟨w.1, w.2, ct, rfl, hle', fun src srcSize hsrc hsize norm spread flag => ?_⟩
    rw [hn'] at hval hsrc hsize ⊢
    obtain ⟨r, hread, hrec⟩ := readNCount_header norm d hfs (by omega)
      hsize ((leValue_congr fun i hi => hsrc _ (by omega)).trans hval)
      (hdmax ▸ hmax)
    have hdec := d.seqDecodedBy_of_recovers hrec hlast slot.space k.baseValue k.nbAdditionalBits spread
    set table := buildFSETable slot.space r.nc r.maxSymbolValue k.baseValue k.nbAdditionalBits r.tableLog
      spread with htable
    refine ⟨⟨table, table⟩, ?_, d.inStep (d.buildCTable_spec hct) hdec hlogk hcounts,
      fun _ => ⟨d, d.buildCTable_spec hct, hdec, hlogk, fun hv => absurd hv (by decide)⟩⟩
    rw [buildSeqTable]
    dsimp only
    rw [hread]
    dsimp only
    rw [if_neg (by rw [hrec.tableLog]; omega), hrec.size]

/-- **Whatever is selected**, the decoder gets a table that keeps in step with the coder's for the codes
of the block, and what may be repeated then can be; or there is no room. -/
theorem zstdBuildCTable_buildSeqTable (dst : Mem) (dstCapacity : ℕ) (nextCTable : CTable)
    {type : SymbolEncodingType} {repeatMode' : FseRepeat} {isDefaultAllowed flag : Bool}
    (hh : Histogram.Of codes nbSeq k.maxSymbol h) (hn : 0 < nbSeq) (hlt : nbSeq < 2 ^ 32)
    (hsel : Selects repeatMode h nbSeq prevCTable isDefaultAllowed type repeatMode')
    (hallowed : isDefaultAllowed = true → h.maxSymbolValue ≤ k.default.maxSymbolValue)
    (hrep : Repeats k repeatMode prevCTable slot) (hflag : repeatMode ≠ .none → flag = true)
    (hwksp : buildCTableWkspSize ≤ wksp.size) :
    zstdBuildCTable dst dstCapacity nextCTable k.maxLog type h.count h.maxSymbolValue codes nbSeq
        k.default.nc k.default.tableLog k.default.maxSymbolValue prevCTable wksp =
          .error .dstSizeTooSmall ∨
    ∃ size out ct, zstdBuildCTable dst dstCapacity nextCTable k.maxLog type h.count h.maxSymbolValue
        codes nbSeq k.default.nc k.default.tableLog k.default.maxSymbolValue prevCTable wksp =
          .ok ((size, out), ct) ∧ size ≤ dstCapacity ∧
      ∀ (src : Mem) (srcSize : ℕ), Agree src out size → size ≤ srcSize →
        ∀ (norm : ℕ → ℤ) (spread : Mem), ∃ slot', buildSeqTable slot type k.maxSymbol k.maxLog src srcSize
            k.baseValue k.nbAdditionalBits k.defaultTable flag norm spread = .ok (size, slot') ∧
          InStep k codes nbSeq ct slot' ∧ Repeats k repeatMode' ct slot' := by
  have h9 := k.log_le
  cases hsel with
  | basic hd =>
    right
    have hlog := k.default_le.1
    have h7 := k.log_ge
    obtain ⟨ct, hct⟩ := k.default.buildCTable_ok nextCTable wksp.tableSymbol wksp.spread
      (show buildCTableWorkspaceSize k.default.maxSymbolValue k.default.tableLog ≤ wksp.size by
        have hpow : 2 ^ k.default.tableLog ≤ 2 ^ 6 := Nat.pow_le_pow_right (by decide) hlog
        have h52 := k.default_le.2
        unfold buildCTableWkspSize at hwksp
        unfold buildCTableWorkspaceSize
        omega)
    refine ⟨0, dst, ct, ?_, Nat.zero_le _, fun src srcSize _ _ norm spread => ?_⟩
    · rw [zstdBuildCTable, hct]
    · refine ⟨{ slot with ptr := k.defaultTable }, rfl, ?_, fun hne => absurd rfl hne⟩
      refine k.default.inStep (k.default.buildCTable_spec hct) k.decoded (by omega) fun n hlt' => ?_
      have hle := (hh.below n hlt').trans (hallowed hd)
      exact ⟨hle, k.counts _ hle⟩
  | rle hall =>
    rw [zstdBuildCTable]
    split_ifs with hcap
    · exact .inl rfl
    · refine .inr ⟨1, _, _, rfl, by omega, fun src srcSize hsrc hsize norm spread => ?_⟩
      obtain ⟨slot', hrun, hin⟩ := zstdBuildCTable_rle nextCTable hh hn hall
        hsrc hsize norm spread flag
      exact ⟨slot', hrun, hin, fun hne => absurd rfl hne⟩
  | again hne hcost =>
    right
    obtain ⟨d, hc, hd, hlog, hvalid⟩ := hrep hne
    refine ⟨0, dst, prevCTable, rfl, Nat.zero_le _, fun src srcSize _ _ norm spread =>
      ⟨slot, ?_, d.inStep hc hd hlog fun n hlt' => ?_, hrep⟩⟩
    · rw [buildSeqTable, if_pos (hflag hne)]
    · have hle := hh.below n hlt'
      rcases hcost with hv | ⟨c, hcost⟩
      · exact hvalid hv _ (hle.trans hh.symbol_le)
      · obtain ⟨hmax, hcodes⟩ := fseBitCost_ok hc hcost
        refine ⟨hle.trans hmax, hcodes _ hle ?_⟩
        rw [hh.count _ (hle.trans hh.symbol_le)]
        exact (total_pos.mpr ⟨n, hlt', rfl⟩).ne'
  | compressed hne =>
    rcases zstdBuildCTable_compressed dst dstCapacity nextCTable prevCTable slot wksp hh hn hlt hne
      k.default.nc k.default.tableLog k.default.maxSymbolValue with he | ⟨size, out, ct, hrun, hle, hread⟩
    · exact .inl he
    · exact .inr ⟨size, out, ct, hrun, hle, fun src srcSize hsrc hsize norm spread =>
        hread src srcSize hsrc hsize norm spread flag⟩

end Build

end ZramUpgrade.Zstd
