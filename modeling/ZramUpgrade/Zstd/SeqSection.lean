import ZramUpgrade.Zstd.SeqBuild
import ZramUpgrade.Zstd.Sequences

/-!
# Zstd.SeqSection — the sequences section of a block

The number of sequences, how each kind of code is coded, the headers of the tables, and the stream.
Tables may be those of the block before: coder and decoder stay in sync (`InSync`), and a section that is
written is read for what was stored (`compressSequences_decode`).
-/

namespace ZramUpgrade.Zstd

open Lib

/-- `LONGNBSEQ`. -/
def longNbSeq : ℕ := 0x7F00

/-- The number of an encoding type. -/
def SymbolEncodingType.toNat : SymbolEncodingType → ℕ
  | .setBasic => 0
  | .setRle => 1
  | .setCompressed => 2
  | .setRepeat => 3

/-- `(SymbolEncodingType_e)` of a number. -/
def encodingType : ℕ → SymbolEncodingType
  | 0 => .setBasic
  | 1 => .setRle
  | 2 => .setCompressed
  | _ => .setRepeat

/-! ## The coder -/

/-- `ZSTD_fseCTables_t`. -/
structure FseCTables where
  offcodeCTable : CTable
  matchlengthCTable : CTable
  litlengthCTable : CTable
  offcodeRepeatMode : FseRepeat
  matchlengthRepeatMode : FseRepeat
  litlengthRepeatMode : FseRepeat

/-- `dst`, `op` and `lastCountSize` of `ZSTD_buildSequencesStatistics`. -/
structure StatsCursor where
  dst : Mem
  op : ℕ
  lastCountSize : ℕ

/-- What there is of one kind of code: the type, the repeat mode and the table. -/
structure KindStats where
  type : SymbolEncodingType
  repeatMode : FseRepeat
  cTable : CTable

/-- `ZSTD_buildSequencesStatistics` for one kind of code; `isDefaultAllowed` of the last code. -/
def buildKind (k : SeqKind) (isDefaultAllowed : ℕ → Bool) (codes : ℕ → ℕ) (nbSeq : ℕ)
    (repeatMode : FseRepeat) (prevCTable nextCTable : CTable) (strategy oend : ℕ) (count : ℕ → ℕ)
    (wksp : EntropyWorkspace) (c : StatsCursor) : Except ErrorCode (KindStats × StatsCursor) :=
  let h := histCountFast count k.maxSymbol codes nbSeq
  let (type, repeatMode) := selectEncodingType repeatMode h.count h.maxSymbolValue h.largest nbSeq
    k.maxLog prevCTable k.default.nc k.default.tableLog (isDefaultAllowed h.maxSymbolValue) strategy
  match zstdBuildCTable (fromOffset c.dst c.op) (oend - c.op) nextCTable k.maxLog type h.count
    h.maxSymbolValue codes nbSeq k.default.nc k.default.tableLog k.default.maxSymbolValue prevCTable
    wksp with
  | .error e => .error e
  | .ok ((countSize, out), cTable) =>
    .ok (⟨type, repeatMode, cTable⟩,
      { dst := withFrom c.dst c.op out, op := c.op + countSize
        lastCountSize := if type = .setCompressed then countSize else c.lastCountSize })

/-- `ZSTD_symbolEncodingTypeStats_t`, where `dst` stands and the next tables. -/
structure SeqStats where
  llType : SymbolEncodingType
  offType : SymbolEncodingType
  mlType : SymbolEncodingType
  cursor : StatsCursor
  nextEntropy : FseCTables

/-- `ZSTD_buildSequencesStatistics`, whose `op` is at the cursor. -/
def buildSequencesStatistics (s : SeqStore) (prev next : FseCTables) (strategy oend : ℕ)
    (count : ℕ → ℕ) (wksp : EntropyWorkspace) (c : StatsCursor) : Except ErrorCode SeqStats :=
  match buildKind llKind (fun _ => true) s.llCodeTable s.nbSeq prev.litlengthRepeatMode
    prev.litlengthCTable next.litlengthCTable strategy oend count wksp c with
  | .error e => .error e
  | .ok (ll, c) =>
    -- only the basic table has not all the offsets
    match buildKind ofKind (fun max => max ≤ 28) s.ofCodeTable s.nbSeq prev.offcodeRepeatMode
      prev.offcodeCTable next.offcodeCTable strategy oend count wksp c with
    | .error e => .error e
    | .ok (off, c) =>
      match buildKind mlKind (fun _ => true) s.mlCodeTable s.nbSeq prev.matchlengthRepeatMode
        prev.matchlengthCTable next.matchlengthCTable strategy oend count wksp c with
      | .error e => .error e
      | .ok (ml, c) =>
        .ok { llType := ll.type, offType := off.type, mlType := ml.type, cursor := c
              nextEntropy :=
                { offcodeCTable := off.cTable, matchlengthCTable := ml.cTable
                  litlengthCTable := ll.cTable, offcodeRepeatMode := off.repeatMode
                  matchlengthRepeatMode := ml.repeatMode, litlengthRepeatMode := ll.repeatMode } }

/-- The number of sequences: its size, and the buffer. -/
def writeNbSeq (dst : Mem) (nbSeq : ℕ) : ℕ × Mem :=
  if nbSeq < 128 then (1, store dst 0 (UInt8.ofNat nbSeq))
  else if nbSeq < longNbSeq then
    (2, store (store dst 0 (UInt8.ofNat ((nbSeq >>> 8) + 0x80))) 1 (UInt8.ofNat nbSeq))
  else (3, leStore (store dst 0 0xFF) 1 (nbSeq - longNbSeq) 2)

/-- `ZSTD_entropyCompressSeqStore_internal` from the sequences header on: the size, or 0 where the block
is not to be compressed, the buffer and the next tables. -/
def compressSequences (dst : Mem) (dstCapacity : ℕ) (s : SeqStore) (prev next : FseCTables)
    (strategy : ℕ) (count : ℕ → ℕ) (wksp : EntropyWorkspace) :
    Except ErrorCode (ℕ × Mem × FseCTables) :=
  if dstCapacity < 3 + 1 then .error .dstSizeTooSmall
  else
    let (seqHead, dst) := writeNbSeq dst s.nbSeq
    if s.nbSeq = 0 then .ok (seqHead, dst, prev)
    else
      match buildSequencesStatistics s prev next strategy dstCapacity count wksp
        ⟨dst, seqHead + 1, 0⟩ with
      | .error e => .error e
      | .ok stats =>
        let dst := store stats.cursor.dst seqHead (UInt8.ofNat
          ((stats.llType.toNat <<< 6) + (stats.offType.toNat <<< 4) + (stats.mlType.toNat <<< 2)))
        let op := stats.cursor.op
        let next := stats.nextEntropy
        match encodeSequences (fromOffset dst op) (dstCapacity - op)
          ⟨next.matchlengthCTable, s.mlCodeTable⟩ ⟨next.offcodeCTable, s.ofCodeTable⟩
          ⟨next.litlengthCTable, s.llCodeTable⟩ s.sequences s.nbSeq false with
        | .error e => .error e
        | .ok (bitstreamSize, out) =>
          -- a decoder of old would find less than 4 bytes for its last table
          if stats.cursor.lastCountSize ≠ 0 ∧ stats.cursor.lastCountSize + bitstreamSize < 4 then
            .ok (0, withFrom dst op out, next)
          else .ok (op + bitstreamSize, withFrom dst op out, next)

/-! ## The decoder -/

/-- What `ZSTD_DCtx` keeps for sequences. -/
structure SeqDCtx where
  ll : SeqSlot
  of : SeqSlot
  ml : SeqSlot
  fseEntropy : Bool
  rep : Reps

/-- The tables in use. -/
def SeqDCtx.tables (dctx : SeqDCtx) : SeqTables := ⟨dctx.ll.ptr, dctx.of.ptr, dctx.ml.ptr⟩

/-- What the workspace of `ZSTD_DCtx` holds. -/
structure SeqWorkspace where
  norm : ℕ → ℤ
  spread : Mem

/-- `ZSTD_buildSeqTable` of a kind of code. -/
def SeqKind.buildTable (k : SeqKind) (slot : SeqSlot) (type : SymbolEncodingType) (src : Mem)
    (srcSize : ℕ) (flagRepeatTable : Bool) (wksp : SeqWorkspace) : Except ErrorCode (ℕ × SeqSlot) :=
  buildSeqTable slot type k.maxSymbol k.maxLog src srcSize k.baseValue k.nbAdditionalBits k.defaultTable
    flagRepeatTable wksp.norm wksp.spread

/-- The number of sequences and its size. -/
def readNbSeq (src : Mem) (srcSize : ℕ) : Except ErrorCode (ℕ × ℕ) :=
  if srcSize < 1 then .error .srcSizeWrong
  else if (src 0).toNat ≤ 0x7F then .ok ((src 0).toNat, 1)
  else if (src 0).toNat = 0xFF then
    if srcSize < 1 + 2 then .error .srcSizeWrong else .ok (leValue src 1 2 + longNbSeq, 3)
  else if srcSize ≤ 1 then .error .srcSizeWrong
  else .ok (((src 0).toNat - 0x80) <<< 8 + (src 1).toNat, 2)

/-- The decoding tables, from `ip` on: where they end, and the context. -/
def buildDTables (dctx : SeqDCtx) (llType ofType mlType : SymbolEncodingType) (src : Mem)
    (srcSize ip : ℕ) (wksp : SeqWorkspace) : Except ErrorCode (ℕ × SeqDCtx) :=
  match llKind.buildTable dctx.ll llType (fromOffset src ip) (srcSize - ip) dctx.fseEntropy wksp with
  | .error _ => .error .corruptionDetected
  | .ok (llhSize, ll) =>
    let ip := ip + llhSize
    match ofKind.buildTable dctx.of ofType (fromOffset src ip) (srcSize - ip) dctx.fseEntropy wksp with
    | .error _ => .error .corruptionDetected
    | .ok (ofhSize, off) =>
      let ip := ip + ofhSize
      match mlKind.buildTable dctx.ml mlType (fromOffset src ip) (srcSize - ip) dctx.fseEntropy wksp with
      | .error _ => .error .corruptionDetected
      | .ok (mlhSize, ml) => .ok (ip + mlhSize, { dctx with ll := ll, of := off, ml := ml })

/-- `ZSTD_decodeSeqHeaders`: the size of the headers, the number of sequences, and the context. -/
def decodeSeqHeaders (dctx : SeqDCtx) (src : Mem) (srcSize : ℕ) (wksp : SeqWorkspace) :
    Except ErrorCode (ℕ × ℕ × SeqDCtx) :=
  match readNbSeq src srcSize with
  | .error e => .error e
  | .ok (nbSeq, ip) =>
    if nbSeq = 0 then if ip ≠ srcSize then .error .corruptionDetected else .ok (ip, 0, dctx)
    else if srcSize < ip + 1 then .error .srcSizeWrong
    else if (src ip).toNat &&& 3 ≠ 0 then .error .corruptionDetected
    else
      let llType := encodingType ((src ip).toNat >>> 6)
      let ofType := encodingType (((src ip).toNat >>> 4) &&& 3)
      let mlType := encodingType (((src ip).toNat >>> 2) &&& 3)
      match buildDTables dctx llType ofType mlType src srcSize (ip + 1) wksp with
      | .error e => .error e
      | .ok (ip, dctx) => .ok (ip, nbSeq, dctx)

/-! ## One kind of code -/

section Kind

variable {k : SeqKind} {isDefaultAllowed : ℕ → Bool} {codes : ℕ → ℕ} {nbSeq strategy oend : ℕ}
  {repeatMode : FseRepeat} {prevCTable nextCTable : CTable} {count : ℕ → ℕ} {wksp : EntropyWorkspace}
  {slot : SeqSlot} {flag : Bool}

/-- What is written for a kind of code is read for a table that keeps in step. -/
structure KindRead (k : SeqKind) (codes : ℕ → ℕ) (nbSeq : ℕ) (slot : SeqSlot) (flag : Bool)
    (st : KindStats) (dst : Mem) (op op' : ℕ) : Prop where
  read : ∀ (src : Mem) (srcSize : ℕ), (∀ i, op ≤ i → i < op' → src i = dst i) → op' ≤ srcSize →
    ∀ w : SeqWorkspace, ∃ slot', k.buildTable slot st.type (fromOffset src op) (srcSize - op) flag w =
        .ok (op' - op, slot') ∧
      InStep k codes nbSeq st.cTable slot' ∧ Repeats k st.repeatMode st.cTable slot'

theorem buildKind_spec (isDefaultAllowed : ℕ → Bool) (nextCTable : CTable) (strategy : ℕ)
    (count : ℕ → ℕ) (hn : 0 < nbSeq) (hlt : nbSeq < 2 ^ 32) (hcodes : ∀ n < nbSeq, codes n ≤ k.maxSymbol)
    (hallowed : ∀ max ≤ k.maxSymbol, isDefaultAllowed max = true → max ≤ k.default.maxSymbolValue)
    (hrep : Repeats k repeatMode prevCTable slot) (hflag : repeatMode ≠ .none → flag = true)
    (hwksp : buildCTableWkspSize ≤ wksp.size) {c : StatsCursor} (hop : c.op ≤ oend) :
    buildKind k isDefaultAllowed codes nbSeq repeatMode prevCTable nextCTable strategy oend count wksp c =
        .error .dstSizeTooSmall ∨
    ∃ st c', buildKind k isDefaultAllowed codes nbSeq repeatMode prevCTable nextCTable strategy oend count
        wksp c = .ok (st, c') ∧ c.op ≤ c'.op ∧ c'.op ≤ oend ∧ Agree c'.dst c.dst c.op ∧
      KindRead k codes nbSeq slot flag st c'.dst c.op c'.op := by
  have h52 := k.symbol_le
  have hh := histCountFast_spec count hn (show k.maxSymbol ≤ 255 by omega) hcodes
  have hsel := selectEncodingType_spec repeatMode prevCTable k.default.nc k.default.tableLog
    (isDefaultAllowed (histCountFast count k.maxSymbol codes nbSeq).maxSymbolValue) strategy hh h52 hn hlt
    k.log_ge (k.log_le.trans (by decide))
  rw [buildKind]
  dsimp only
  generalize histCountFast count k.maxSymbol codes nbSeq = h at hh hsel ⊢
  generalize selectEncodingType repeatMode h.count h.maxSymbolValue h.largest nbSeq k.maxLog prevCTable
    k.default.nc k.default.tableLog (isDefaultAllowed h.maxSymbolValue) strategy = sel at hsel ⊢
  obtain ⟨type, mode⟩ := sel
  rcases zstdBuildCTable_buildSeqTable (fromOffset c.dst c.op) (oend - c.op) nextCTable hh hn hlt hsel
    (hallowed _ hh.symbol_le) hrep hflag hwksp with
    he | ⟨size, out, ct, hrun, hle, hread⟩
  · left
    dsimp only
    rw [he]
  · right
    dsimp only
    rw [hrun]
    refine ⟨_, _, rfl, Nat.le_add_right _ _, by dsimp only; omega, agree_withFrom _ _ le_rfl,
      ⟨fun src srcSize hsrc hsize w => ?_⟩⟩
    dsimp only at hsrc hsize ⊢
    rw [Nat.add_sub_cancel_left]
    refine hread _ _ (fun i hi => ?_) (by omega) w.norm w.spread
    refine (hsrc _ (Nat.le_add_right _ _) (by omega)).trans ?_
    exact congrFun (fromOffset_withFrom c.dst c.op out) i

end Kind

/-! ## The headers -/

/-- The types of a section share a byte. -/
theorem seqHead_spec (ll off ml : SymbolEncodingType) :
    let head := (UInt8.ofNat ((ll.toNat <<< 6) + (off.toNat <<< 4) + (ml.toNat <<< 2))).toNat
    head &&& 3 = 0 ∧ encodingType (head >>> 6) = ll ∧ encodingType ((head >>> 4) &&& 3) = off ∧
      encodingType ((head >>> 2) &&& 3) = ml := by
  cases ll <;> cases off <;> cases ml <;> decide

/-- **The number of sequences** takes at most three bytes, and is read back. -/
theorem writeNbSeq_spec (dst : Mem) {nbSeq : ℕ} (h : nbSeq < longNbSeq + 2 ^ 16) :
    (writeNbSeq dst nbSeq).1 ≤ 3 ∧ 0 < (writeNbSeq dst nbSeq).1 ∧
      ∀ (src : Mem) (srcSize : ℕ), Agree src (writeNbSeq dst nbSeq).2 (writeNbSeq dst nbSeq).1 →
        (writeNbSeq dst nbSeq).1 ≤ srcSize →
        readNbSeq src srcSize = .ok (nbSeq, (writeNbSeq dst nbSeq).1) := by
  unfold writeNbSeq
  split_ifs with h128 hlong <;> dsimp only
  · refine ⟨by decide, by decide, fun src srcSize hsrc hsize => ?_⟩
    have h0 : (src 0).toNat = nbSeq := by
      rw [hsrc 0 (by decide), store_self, UInt8.toNat_ofNat']
      exact Nat.mod_eq_of_lt (h128.trans (by decide))
    rw [readNbSeq, if_neg (by omega), if_pos (by omega), h0]
  · refine ⟨by decide, by decide, fun src srcSize hsrc hsize => ?_⟩
    unfold longNbSeq at hlong
    have h0 : (src 0).toNat = nbSeq / 256 + 0x80 := by
      rw [hsrc 0 (by decide), store_ne _ _ (by decide), store_self, UInt8.toNat_ofNat',
        Nat.shiftRight_eq_div_pow, Nat.mod_eq_of_lt (by omega)]
    have h1 : (src 1).toNat = nbSeq % 256 := by
      rw [hsrc 1 (by decide), store_self, UInt8.toNat_ofNat']
    rw [readNbSeq, if_neg (by omega), if_neg (by omega), if_neg (by omega), if_neg (by omega), h0, h1,
      Nat.add_sub_cancel, Nat.shiftLeft_eq, show nbSeq / 256 * 2 ^ 8 + nbSeq % 256 = nbSeq by omega]
  · refine ⟨by decide, by decide, fun src srcSize hsrc hsize => ?_⟩
    have h0 : (src 0).toNat = 0xFF := by
      rw [hsrc 0 (by decide), leStore_out _ _ (by decide), store_self]
      rfl
    have h1 : leValue src 1 2 = nbSeq - longNbSeq := by
      have hbytes : leValue src 1 2 = leValue (leStore (store dst 0 0xFF) 1 (nbSeq - longNbSeq) 2) 1 2 :=
        leValue_congr fun k hk => hsrc _ (by omega)
      rw [hbytes, leValue_leStore]
      exact Nat.mod_eq_of_lt (by omega)
    rw [readNbSeq, if_neg (by omega), if_neg (by omega), if_pos h0, if_neg (by omega), h1,
      Nat.sub_add_cancel (by omega)]

/-! ## In sync -/

/-- The decoder has the tables of the block before, where they may be repeated. -/
structure InSync (prev : FseCTables) (dctx : SeqDCtx) : Prop where
  ll : Repeats llKind prev.litlengthRepeatMode prev.litlengthCTable dctx.ll
  of : Repeats ofKind prev.offcodeRepeatMode prev.offcodeCTable dctx.of
  ml : Repeats mlKind prev.matchlengthRepeatMode prev.matchlengthCTable dctx.ml
  flag : prev.litlengthRepeatMode ≠ .none ∨ prev.offcodeRepeatMode ≠ .none ∨
    prev.matchlengthRepeatMode ≠ .none → dctx.fseEntropy = true

/-- The tables of a block keep in step. -/
structure TablesInStep (s : SeqStore) (ct : FseCTables) (dctx : SeqDCtx) : Prop where
  ll : InStep llKind s.llCodeTable s.nbSeq ct.litlengthCTable dctx.ll
  of : InStep ofKind s.ofCodeTable s.nbSeq ct.offcodeCTable dctx.of
  ml : InStep mlKind s.mlCodeTable s.nbSeq ct.matchlengthCTable dctx.ml

section Section

variable {s : SeqStore} {prev next ct : FseCTables} {dctx : SeqDCtx} {dst : Mem}
  {strategy oend dstCapacity : ℕ} {count : ℕ → ℕ} {wksp : EntropyWorkspace} {c : StatsCursor}

theorem TablesInStep.coding (h : TablesInStep s ct dctx) (hs : s.Valid) :
    Nonempty (SeqCoding ⟨ct.matchlengthCTable, s.mlCodeTable⟩ ⟨ct.offcodeCTable, s.ofCodeTable⟩
      ⟨ct.litlengthCTable, s.llCodeTable⟩ s.sequences s.nbSeq dctx.tables) := by
  obtain ⟨llCounts, llc, hll⟩ := h.ll
  obtain ⟨ofCounts, ofc, hof⟩ := h.of
  obtain ⟨mlCounts, mlc, hml⟩ := h.ml
  exact ⟨⟨mlCounts, ofCounts, llCounts, mlc, ofc, llc,
    fun n hn => ⟨hml n hn, (hs.codes hn).2.2.2.1⟩, fun n hn => ⟨hof n hn, (hs.codes hn).2.2.2.2⟩,
    fun n hn => ⟨hll n hn, (hs.codes hn).2.2.1⟩⟩⟩

theorem SeqStore.Valid.says (hs : s.Valid) {n : ℕ} (hn : n < s.nbSeq) :
    Says ⟨ct.matchlengthCTable, s.mlCodeTable⟩ ⟨ct.offcodeCTable, s.ofCodeTable⟩
      ⟨ct.litlengthCTable, s.llCodeTable⟩ s.sequences n (s.sequence n) where
  litLength := (hs.codes hn).1
  matchLength := (hs.codes hn).2.1
  offBase := rfl
  ofCode := rfl
  pos := (hs.offBase_lt n hn).1
  lt := (hs.offBase_lt n hn).2

/-- **The tables of a block** are read as they are written, and stay in sync for the next. -/
theorem buildSequencesStatistics_spec (next : FseCTables) (strategy oend : ℕ) (count : ℕ → ℕ)
    (hs : s.Valid) (hn : 0 < s.nbSeq) (hlt : s.nbSeq < 2 ^ 32) (hsync : InSync prev dctx)
    (hwksp : buildCTableWkspSize ≤ wksp.size) (hop : c.op ≤ oend) :
    buildSequencesStatistics s prev next strategy oend count wksp c = .error .dstSizeTooSmall ∨
    ∃ stats, buildSequencesStatistics s prev next strategy oend count wksp c = .ok stats ∧
      c.op ≤ stats.cursor.op ∧ stats.cursor.op ≤ oend ∧ Agree stats.cursor.dst c.dst c.op ∧
      ∀ (src : Mem) (srcSize : ℕ),
        (∀ i, c.op ≤ i → i < stats.cursor.op → src i = stats.cursor.dst i) → stats.cursor.op ≤ srcSize →
        ∀ w, ∃ dctx', buildDTables dctx stats.llType stats.offType stats.mlType src srcSize c.op w =
            .ok (stats.cursor.op, dctx') ∧ dctx'.rep = dctx.rep ∧
          TablesInStep s stats.nextEntropy dctx' ∧
          InSync stats.nextEntropy { dctx' with fseEntropy := true } := by
  rw [buildSequencesStatistics]
  rcases buildKind_spec (k := llKind) (fun _ => true) next.litlengthCTable strategy count hn hlt
    (fun n hn => (hs.codes hn).2.2.1) (fun max hmax _ => hmax) hsync.ll
    (fun h => hsync.flag (.inl h)) hwksp hop with
    he | ⟨ll, c1, hrun1, hop1, hend1, hag1, hread1⟩
  · left
    rw [he]
  rw [hrun1]
  dsimp only
  rcases buildKind_spec (k := ofKind) (fun max => max ≤ 28) next.offcodeCTable strategy count hn hlt
    (fun n hn => (hs.codes hn).2.2.2.2) (fun max _ hmax => of_decide_eq_true hmax) hsync.of
    (fun h => hsync.flag (.inr (.inl h))) hwksp hend1 with
    he | ⟨off, c2, hrun2, hop2, hend2, hag2, hread2⟩
  · left
    rw [he]
  rw [hrun2]
  dsimp only
  rcases buildKind_spec (k := mlKind) (fun _ => true) next.matchlengthCTable strategy count hn hlt
    (fun n hn => (hs.codes hn).2.2.2.1) (fun max hmax _ => hmax) hsync.ml
    (fun h => hsync.flag (.inr (.inr h))) hwksp hend2 with
    he | ⟨ml, c3, hrun3, hop3, hend3, hag3, hread3⟩
  · left
    rw [he]
  rw [hrun3]
  right
  refine ⟨_, rfl, by dsimp only; omega, hend3, (hag3.mono (by omega)).trans ((hag2.mono hop1).trans hag1),
    fun src srcSize hsrc hsize w => ?_⟩
  dsimp only at hsrc hsize ⊢
  obtain ⟨sl, hr1, hstep1, hrep1⟩ := hread1.read src srcSize (fun i h1 h2 => by
    rw [hsrc i h1 (by omega), hag3 i (by omega), hag2 i h2]) (by omega) w
  obtain ⟨so, hr2, hstep2, hrep2⟩ := hread2.read src srcSize (fun i h1 h2 => by
    rw [hsrc i (by omega) (by omega), hag3 i h2]) (by omega) w
  obtain ⟨sm, hr3, hstep3, hrep3⟩ := hread3.read src srcSize (fun i h1 h2 => hsrc i (by omega) h2)
    hsize w
  refine ⟨{ dctx with ll := sl, of := so, ml := sm }, ?_, rfl, ⟨hstep1, hstep2, hstep3⟩,
    ⟨hrep1, hrep2, hrep3, fun _ => rfl⟩⟩
  rw [buildDTables, hr1]
  dsimp only
  rw [Nat.add_sub_cancel' hop1, hr2]
  dsimp only
  rw [Nat.add_sub_cancel' hop2, hr3]
  dsimp only
  rw [Nat.add_sub_cancel' hop3]

/-- What the stream at `ip` is decoded for. -/
structure DecodesTo (dctx : SeqDCtx) (src : Mem) (srcSize nbSeq : ℕ) (qs : List Seq) (rep : Reps) :
    Prop where
  decoded : ∃ bitD, initDStream src srcSize = .ok bitD ∧
    (decodeLoop dctx.tables src nbSeq (initSeqState dctx.tables src bitD dctx.rep)).1 = qs ∧
    (decodeLoop dctx.tables src nbSeq
      (initSeqState dctx.tables src bitD dctx.rep)).2.dStream.endOfDStream = true ∧
    (decodeLoop dctx.tables src nbSeq (initSeqState dctx.tables src bitD dctx.rep)).2.prevOffset = rep

/-- **A section is written in the room there is, or not at all; what is written is read back**: the
decoder gives the sequences of the store with their offsets, to the end of the section, and stays in sync
for the next block. -/
theorem compressSequences_decode (dst : Mem) (hs : s.Valid) (hlt : s.nbSeq < longNbSeq + 2 ^ 16)
    (hsync : InSync prev dctx) (hwksp : buildCTableWkspSize ≤ wksp.size) :
    compressSequences dst dstCapacity s prev next strategy count wksp = .error .dstSizeTooSmall ∨
    ∃ size out next', compressSequences dst dstCapacity s prev next strategy count wksp =
        .ok (size, out, next') ∧ size ≤ dstCapacity ∧
      (size ≠ 0 → ∀ src, Agree src out size → dctx.rep.Valid → Resolves dctx.rep s.toList → ∀ w,
        ∃ ip dctx', decodeSeqHeaders dctx src size w = .ok (ip, s.nbSeq, dctx') ∧ ip ≤ size ∧
          dctx'.rep = dctx.rep ∧
          (s.nbSeq = 0 → ip = size ∧ InSync next' dctx') ∧
          (s.nbSeq ≠ 0 → InSync next' { dctx' with fseEntropy := true } ∧
            DecodesTo dctx' (fromOffset src ip) (size - ip) s.nbSeq (resolveAll dctx.rep s.toList).1
              (resolveAll dctx.rep s.toList).2)) := by
  rw [compressSequences]
  by_cases hcap : dstCapacity < 3 + 1
  · exact .inl (if_pos hcap)
  rw [if_neg hcap]
  obtain ⟨hle3, hpos, hnb⟩ := writeNbSeq_spec dst hlt
  generalize writeNbSeq dst s.nbSeq = w at hle3 hpos hnb ⊢
  obtain ⟨seqHead, dst1⟩ := w
  dsimp only at hle3 hpos hnb ⊢
  by_cases h0 : s.nbSeq = 0
  · -- no sequence
    rw [if_pos h0]
    right
    refine ⟨seqHead, dst1, prev, rfl, by omega, fun _ src hsrc _ _ w => ?_⟩
    refine ⟨seqHead, dctx, ?_, le_rfl, rfl, fun _ => ⟨rfl, hsync⟩, fun hne => absurd h0 hne⟩
    rw [decodeSeqHeaders, hnb src seqHead hsrc le_rfl]
    dsimp only
    rw [if_pos h0, if_neg (not_not.mpr rfl), h0]
  rw [if_neg h0]
  rcases buildSequencesStatistics_spec next strategy dstCapacity count
    (c := ⟨dst1, seqHead + 1, 0⟩) hs (Nat.pos_of_ne_zero h0) (hlt.trans (by decide)) hsync hwksp
    (by dsimp only; omega) with he | ⟨stats, hrun, hop, hend, hag, hread⟩
  · left
    rw [he]
  rw [hrun]
  dsimp only at hop hag hread ⊢
  set head := UInt8.ofNat ((stats.llType.toNat <<< 6) + (stats.offType.toNat <<< 4) +
    (stats.mlType.toNat <<< 2)) with hhead
  set dst2 := store stats.cursor.dst seqHead head with hdst2
  obtain ⟨m, hm⟩ : ∃ m, s.nbSeq = m + 1 := ⟨s.nbSeq - 1, by omega⟩
  -- the tables do not depend on what is decoded
  obtain ⟨dctx0, -, -, hstep0, -⟩ := hread stats.cursor.dst stats.cursor.op (fun _ _ _ => rfl) le_rfl
    ⟨fun _ => 0, fun _ => 0⟩
  obtain ⟨hc0⟩ := hstep0.coding hs
  have hsays : ∀ n < m + 1, Says ⟨stats.nextEntropy.matchlengthCTable, s.mlCodeTable⟩
      ⟨stats.nextEntropy.offcodeCTable, s.ofCodeTable⟩ ⟨stats.nextEntropy.litlengthCTable, s.llCodeTable⟩
      s.sequences n (s.sequence n) := fun n hn => hs.says (by omega)
  rw [hm] at hc0 ⊢
  rcases encodeSequences_decode hc0 hsays (fromOffset dst2 stats.cursor.op)
    (dstCapacity - stats.cursor.op) false with he | ⟨size, out, henc, hsize, -, -⟩
  · left
    rw [he]
  rw [henc]
  dsimp only
  split_ifs with hold
  · exact .inr ⟨0, _, _, rfl, Nat.zero_le _, fun hne => absurd rfl hne⟩
  right
  refine ⟨_, _, _, rfl, by omega, fun _ src hsrc hrep hres w => ?_⟩
  -- where the bytes of the section come from
  have hhdr : ∀ i < stats.cursor.op, src i = dst2 i := fun i hi => by
    rw [hsrc i (by omega)]
    exact agree_withFrom dst2 out le_rfl i hi
  have hseqHead : src seqHead = head := by
    rw [hhdr _ (by omega), hdst2, store_self]
  have hnbSeq : readNbSeq src (stats.cursor.op + size) = .ok (s.nbSeq, seqHead) := by
    refine hnb src _ (fun i hi => ?_) (by omega)
    rw [hhdr i (by omega), hdst2, store_ne _ _ (by omega), hag i (by omega)]
  obtain ⟨dctx', htables, hrep', hstep, hsync'⟩ := hread src (stats.cursor.op + size) (fun i h1 h2 => by
    rw [hhdr i h2, hdst2, store_ne _ _ (by omega)]) (by omega) w
  obtain ⟨hres3, hll, hof, hml⟩ := seqHead_spec stats.llType stats.offType stats.mlType
  rw [← hhead] at hres3 hll hof hml
  refine ⟨stats.cursor.op, dctx', ?_, Nat.le_add_right _ _, hrep', fun h => h.elim,
    fun _ => ⟨hsync', ?_⟩⟩
  · rw [decodeSeqHeaders, hnbSeq]
    dsimp only
    rw [if_neg (by omega), if_neg (by omega), hseqHead, if_neg (not_not.mpr hres3), hll, hof, hml, htables]
    dsimp only
    rw [hm]
  · obtain ⟨hc⟩ := hstep.coding hs
    rw [hm] at hc
    have htoList : s.toList = (List.range (m + 1)).map s.sequence := by rw [SeqStore.toList, hm]
    rcases encodeSequences_decode hc hsays (fromOffset dst2 stats.cursor.op)
      (dstCapacity - stats.cursor.op) false with he | ⟨size', out', henc', -, -, hdec⟩
    · rw [henc] at he
      cases he
    rw [henc] at henc'
    obtain ⟨rfl, rfl⟩ := Prod.mk.inj (Except.ok.inj henc')
    rw [htoList] at hres ⊢
    rw [Nat.add_sub_cancel_left]
    refine ⟨?_⟩
    rw [hrep']
    refine hdec _ _ (fun i hi => ?_) hrep hres
    refine (hsrc _ (by omega)).trans ?_
    exact congrFun (fromOffset_withFrom dst2 stats.cursor.op out) i

end Section

end ZramUpgrade.Zstd
