import ZramUpgrade.Lib.Loop
import ZramUpgrade.Lz4.Primitives

/-!
# Lz4.Compress — the fast compressor (`lib/lz4.c`) as the driver calls it

`LZ4_compress_fast_extState_fastReset` down to `LZ4_compress_generic_validated`, for `noDict` and
the two output directives the driver reaches.  The `goto` program of the match finder is a step
function over its three program points (`Point`).  `ok` records whether every access so far stayed
inside `src` (`inputSize` bytes) and `dst` (`capacity` bytes); nothing depends on it, and where it holds
nothing depends on what lies behind `src` (`Lz4.SourceBytes`).
-/

namespace ZramUpgrade.Lz4

open Lib

/-! ## The stream -/

/-- `LZ4_stream_t_internal`, less `dictionary` and `dictCtx`, which stay `NULL`. -/
structure Stream where
  hashTable : HashTable
  currentOffset : ℕ
  tableType : TableType
  dictSize : ℕ

/-- The state `LZ4_initStream` writes. -/
def initStream : Stream where
  hashTable := fun _ => 0
  currentOffset := 0
  tableType := .clearedTable
  dictSize := 0

/-- The reset condition of `LZ4_prepareTable`. -/
def needsReset (cctx : Stream) (inputSize : ℕ) (tableType : TableType) : Prop :=
  cctx.tableType ≠ .clearedTable ∧
    (cctx.tableType ≠ tableType
      ∨ (tableType = .byU16 ∧ 0xFFFF ≤ cctx.currentOffset + inputSize)
      ∨ (tableType = .byU32 ∧ 2 ^ 30 < cctx.currentOffset)
      ∨ 4 * 2 ^ 10 ≤ inputSize)

instance (cctx : Stream) (inputSize : ℕ) (tableType : TableType) :
    Decidable (needsReset cctx inputSize tableType) := inferInstanceAs (Decidable (_ ∧ _))

def prepareTable (cctx : Stream) (inputSize : ℕ) (tableType : TableType) : Stream :=
  let cctx := if needsReset cctx inputSize tableType then
      { cctx with hashTable := fun _ => 0, currentOffset := 0, tableType := .clearedTable }
    else cctx
  let cctx := if cctx.currentOffset ≠ 0 ∧ tableType = .byU32 then
      { cctx with currentOffset := cctx.currentOffset + 64 * 2 ^ 10 }
    else cctx
  { cctx with dictSize := 0 }

/-! ## One call of `LZ4_compress_generic_validated` -/

inductive OutputDirective where
  | notLimited
  | limitedOutput
  deriving DecidableEq, Repr

inductive DictIssue where
  | noDictIssue
  | dictSmall
  deriving DecidableEq, Repr

/-- What is constant during one call.  `maxOutputSize` is `0` under `notLimited`, whatever room
`dst` has; `capacity` is that room. -/
structure Call where
  source : Mem
  inputSize : ℕ
  maxOutputSize : ℕ
  capacity : ℕ
  outputDirective : OutputDirective
  tableType : TableType
  dictIssue : DictIssue
  acceleration : ℕ
  startIndex : ℕ
  prefixIdxLimit : ℕ

/-- Program points: one round of the search for a match, `_next_match`, and `_last_literals`. -/
inductive Point where
  | search (forwardIp step searchMatchNb forwardH : ℕ)
  | nextMatch (matchPos token : ℕ)
  | lastLiterals

structure EState where
  point : Point
  ip : ℕ
  anchor : ℕ
  op : ℕ
  hashTable : HashTable
  dst : Mem
  ok : Bool

/-- The return value (`0` is failure) with the final memory. -/
structure EResult where
  ret : ℕ
  hashTable : HashTable
  dst : Mem
  ok : Bool

section Steps

variable (c : Call)

def Call.hashAt (p : ℕ) : ℕ := hashPosition c.source p c.tableType

/-- `n` bytes at `p` of `src` may be read. -/
def Call.readable (p n : ℕ) : Bool := p + n ≤ c.inputSize

/-- `n` bytes at `p` of `dst` may be written. -/
def Call.writable (p n : ℕ) : Bool := p + n ≤ c.capacity

/-- "Check output buffer overflow": `end_ > olimit` under `limitedOutput`. -/
def Call.overflows (end_ : ℕ) : Prop := c.outputDirective = .limitedOutput ∧ c.maxOutputSize < end_

instance (end_ : ℕ) : Decidable (c.overflows end_) := inferInstanceAs (Decidable (_ ∧ _))

/-- `base + matchIndex`; an index below `startIndex` points in front of `source`. -/
def Call.matchOf (matchIndex : ℕ) : ℕ := matchIndex - c.startIndex

/-- `p >= mflimitPlusOne` is `iend - MFLIMIT + 1 <= p`. -/
def Call.pastMflimit (p : ℕ) : Prop := c.inputSize + 1 ≤ p + MFLIMIT

instance (p : ℕ) : Decidable (c.pastMflimit p) := inferInstanceAs (Decidable (_ ≤ _))

/-- Return `0`: the output does not fit. -/
def EState.fail (st : EState) : Step EState EResult := .done ⟨0, st.hashTable, st.dst, st.ok⟩

/-- The `do … while` of "Catch up". -/
def catchUpLoop (anchor : ℕ) : ℕ → ℕ → ℕ × ℕ
  | ip, 0 => (ip, 0)
  | ip, matchPos + 1 =>
    let ip := ip - 1
    if anchor < ip ∧ 0 < matchPos ∧ c.source (ip - 1) = c.source (matchPos - 1) then
      catchUpLoop anchor ip matchPos
    else (ip, matchPos)

def catchUp (anchor ip matchPos : ℕ) : ℕ × ℕ :=
  if 0 < matchPos ∧ c.source (ip - 1) = c.source (matchPos - 1) then
    catchUpLoop c anchor ip matchPos
  else (ip, matchPos)

/-- `for(; len >= 255 ; len-=255) *op++ = 255; *op++ = (BYTE)len;` -/
def writeLength (dst : Mem) (op len : ℕ) : Mem × ℕ :=
  if 255 ≤ len then writeLength (store dst op 255) (op + 1) (len - 255)
  else (store dst op (UInt8.ofNat len), op + 1)
termination_by len
decreasing_by omega

/-- The token and length bytes of a literal run: the memory and the new `op`. -/
def writeRunLength (dst : Mem) (token op litLength : ℕ) : Mem × ℕ :=
  if RUN_MASK ≤ litLength then
    writeLength (store dst token (UInt8.ofNat (RUN_MASK * 16))) op (litLength - RUN_MASK)
  else (store dst token (UInt8.ofNat (litLength * 16)), op)

/-- Whether "Catch up" reads inside `src`: down from `ip - 1` and `matchPos - 1`, to `anchor` and `0`
at the lowest. -/
def Call.catchUpInside (ip matchPos : ℕ) : Bool :=
  matchPos == 0 || (decide (0 < ip) && c.readable (ip - 1) 1 && c.readable (matchPos - 1) 1)

/-- "Encode Literals", from the found match on. -/
def encodeLiterals (st : EState) (matchPos : ℕ) : Step EState EResult :=
  let st := { st with ok := st.ok && c.catchUpInside st.ip matchPos }
  let (ip, matchPos) := catchUp c st.anchor st.ip matchPos
  let litLength := ip - st.anchor
  let token := st.op
  let op := st.op + 1
  if c.overflows (op + litLength + (2 + 1 + LASTLITERALS) + litLength / 255) then st.fail
  else
    let (dst, op) := writeRunLength st.dst token op litLength
    let copied := wildCopyEnd op (op + litLength) - op
    .next { st with
      point := .nextMatch matchPos token
      ip := ip
      op := op + litLength
      dst := wildCopy8 (fun _ => c.source) dst op st.anchor (op + litLength)
      ok := st.ok && c.readable st.anchor copied && c.writable op copied }

/-- One round of the search loop: look at the entry of `ip`, then go on to `forwardIp`. -/
def searchStep (st : EState) (forwardIp step searchMatchNb forwardH : ℕ) : Step EState EResult :=
  let h := forwardH
  let current := c.startIndex + forwardIp
  let matchIndex := getIndexOnHash h st.hashTable c.tableType
  let ip := forwardIp
  let forwardIp := forwardIp + step
  let step := searchMatchNb >>> LZ4_skipTrigger
  let searchMatchNb := searchMatchNb + 1
  -- `forwardIp > mflimitPlusOne`
  if c.inputSize + 1 < forwardIp + MFLIMIT then
    .next { st with point := .lastLiterals, ip := ip }
  else
    let st := { st with
      point := .search forwardIp step searchMatchNb (c.hashAt forwardIp)
      ip := ip
      hashTable := putIndexOnHash current h st.hashTable c.tableType
      ok := st.ok && c.readable forwardIp (hashReadSize c.tableType) }
    -- match outside of valid area
    if c.dictIssue = .dictSmall ∧ matchIndex < c.prefixIdxLimit then .next st
    -- too far
    else if c.tableType ≠ .byU16 ∧ matchIndex + LZ4_DISTANCE_MAX < current then .next st
    else
      let matchPos := c.matchOf matchIndex
      let st := { st with
        ok := st.ok && decide (c.startIndex ≤ matchIndex) && c.readable matchPos 4
          && c.readable ip 4 }
      if read32 c.source matchPos = read32 c.source ip then encodeLiterals c st matchPos
      else .next st

/-- `while (matchCode >= 4*255)` over the `0xFFFFFFFF` fills: memory, `op` and the rest. -/
def writeFills (dst : Mem) (op matchCode : ℕ) : Mem × ℕ × ℕ :=
  if 4 * 255 ≤ matchCode then
    writeFills (write32 dst (op + 4) 0xFFFFFFFF) (op + 4) (matchCode - 4 * 255)
  else (dst, op, matchCode)
termination_by matchCode
decreasing_by omega

/-- "Encode MatchLength": the token's low bits and the length bytes. -/
def writeMatchLength (dst : Mem) (token op matchCode : ℕ) : Mem × ℕ :=
  if ML_MASK ≤ matchCode then
    let dst := store dst token (dst token + UInt8.ofNat ML_MASK)
    let (dst, op, matchCode) := writeFills (write32 dst op 0xFFFFFFFF) op (matchCode - ML_MASK)
    let op := op + matchCode / 255
    (store dst op (UInt8.ofNat (matchCode % 255)), op + 1)
  else (store dst token (dst token + UInt8.ofNat matchCode), op)

/-- The end of the bytes `writeMatchLength` touches: the last fill may pass the new `op`. -/
def matchLengthEnd (op matchCode : ℕ) : ℕ :=
  if ML_MASK ≤ matchCode then op + 4 * ((matchCode - ML_MASK) / (4 * 255) + 1) else op

/-- "Fill table" and "Test next position", after a match that ends at `ip`. -/
def afterMatch (st : EState) : Step EState EResult :=
  let ip := st.ip
  if c.pastMflimit ip then .next { st with point := .lastLiterals, anchor := ip }
  else
    let table := putIndexOnHash (c.startIndex + (ip - 2)) (c.hashAt (ip - 2)) st.hashTable c.tableType
    let h := c.hashAt ip
    let current := c.startIndex + ip
    let matchIndex := getIndexOnHash h table c.tableType
    let matchPos := c.matchOf matchIndex
    let inReach := (c.dictIssue = .dictSmall → c.prefixIdxLimit ≤ matchIndex)
      ∧ (c.tableType = .byU16 ∨ current ≤ matchIndex + LZ4_DISTANCE_MAX)
    let st := { st with
      anchor := ip
      hashTable := putIndexOnHash current h table c.tableType
      ok := st.ok && c.readable (ip - 2) (hashReadSize c.tableType)
        && c.readable ip (hashReadSize c.tableType)
        && (!decide inReach || decide (c.startIndex ≤ matchIndex) && c.readable matchPos 4) }
    if inReach ∧ read32 c.source matchPos = read32 c.source ip then
      .next { st with
        point := .nextMatch matchPos st.op
        op := st.op + 1
        dst := store st.dst st.op 0
        ok := st.ok && c.writable st.op 1 }
    else
      let ip := ip + 1
      .next { st with
        point := .search ip 1 (c.acceleration <<< LZ4_skipTrigger) (c.hashAt ip)
        ip := ip
        ok := st.ok && c.readable ip (hashReadSize c.tableType) }

/-- `_next_match`: offset, match length, and on to the next position. -/
def nextMatchStep (st : EState) (matchPos token : ℕ) : Step EState EResult :=
  let dst := writeLE16 st.dst st.op (st.ip - matchPos)
  let op := st.op + 2
  let matchlimit := c.inputSize - LASTLITERALS
  -- `LZ4_count` reads up to `matchlimit`, and as far from the match
  let counted := matchlimit - (st.ip + MINMATCH)
  let st := { st with
    dst := dst
    ok := st.ok && c.writable st.op 2 && c.readable (st.ip + MINMATCH) counted
      && c.readable (matchPos + MINMATCH) counted }
  let matchCode := count c.source (st.ip + MINMATCH) (matchPos + MINMATCH) matchlimit
  let ip := st.ip + (matchCode + MINMATCH)
  if c.overflows (op + (1 + LASTLITERALS) + (matchCode + 240) / 255) then st.fail
  else
    let fillEnd := matchLengthEnd op matchCode
    let (dst, op) := writeMatchLength dst token op matchCode
    afterMatch c { st with
      ip := ip
      op := op
      dst := dst
      ok := st.ok && c.writable op 0 && c.writable fillEnd 0 }

/-- `_last_literals`. -/
def lastLiteralsStep (st : EState) : Step EState EResult :=
  let lastRun := c.inputSize - st.anchor
  if c.overflows (st.op + lastRun + 1 + (lastRun + 255 - RUN_MASK) / 255) then st.fail
  else
    let (dst, op) := writeRunLength st.dst st.op (st.op + 1) lastRun
    .done ⟨op + lastRun, st.hashTable, memcpy c.source dst op st.anchor lastRun,
      st.ok && c.readable st.anchor lastRun && c.writable op lastRun⟩

def encodeStep (st : EState) : Step EState EResult :=
  match st.point with
  | .search forwardIp step searchMatchNb forwardH =>
    searchStep c st forwardIp step searchMatchNb forwardH
  | .nextMatch matchPos token => nextMatchStep c st matchPos token
  | .lastLiterals => lastLiteralsStep c st

/-- "First Byte", or straight to the last literals when the input is too small. -/
def encodeStart (table : HashTable) (dst : Mem) : EState :=
  let st : EState := ⟨.lastLiterals, 0, 0, 0, table, dst, true⟩
  if c.inputSize < LZ4_minLength then st
  else { st with
    point := .search 1 1 (c.acceleration <<< LZ4_skipTrigger) (c.hashAt 1)
    ip := 1
    hashTable := putIndexOnHash c.startIndex (c.hashAt 0) table c.tableType
    ok := c.readable 0 (hashReadSize c.tableType) && c.readable 1 (hashReadSize c.tableType) }

/-- More steps than the loops can take. -/
def encodeFuel : ℕ := (c.inputSize + 1) * (c.inputSize + 2)

end Steps

/-- The result of a compression call on a stream: return value, stream, destination. -/
structure CompressResult where
  ret : ℕ
  cctx : Stream
  dst : Mem
  ok : Bool

/-- `LZ4_compress_generic_validated`, with the arguments it is inlined at. -/
def compressGenericValidated (cctx : Stream) (source dst : Mem)
    (inputSize maxOutputSize capacity : ℕ) (outputDirective : OutputDirective)
    (tableType : TableType) (dictIssue : DictIssue) (acceleration : ℕ) : Option CompressResult :=
  let startIndex := cctx.currentOffset
  let c : Call := ⟨source, inputSize, maxOutputSize, capacity, outputDirective, tableType,
    dictIssue, acceleration, startIndex, startIndex - cctx.dictSize⟩
  let cctx := { cctx with
    dictSize := cctx.dictSize + inputSize
    currentOffset := cctx.currentOffset + inputSize
    tableType := tableType }
  (run (encodeStep c) (encodeFuel c) (encodeStart c cctx.hashTable dst)).map fun r =>
    ⟨r.ret, { cctx with hashTable := r.hashTable }, r.dst, r.ok⟩

def compressGeneric (cctx : Stream) (src dst : Mem) (srcSize dstCapacity capacity : ℕ)
    (outputDirective : OutputDirective) (tableType : TableType) (dictIssue : DictIssue)
    (acceleration : ℕ) : Option CompressResult :=
  if LZ4_MAX_INPUT_SIZE < srcSize then some ⟨0, cctx, dst, true⟩
  else if srcSize = 0 then
    if outputDirective ≠ .notLimited ∧ dstCapacity = 0 then some ⟨0, cctx, dst, true⟩
    else some ⟨1, cctx, store dst 0 0, decide (1 ≤ capacity)⟩
  else compressGenericValidated cctx src dst srcSize dstCapacity capacity outputDirective tableType
    dictIssue acceleration

def compressBound (isize : ℕ) : ℕ :=
  if LZ4_MAX_INPUT_SIZE < isize then 0 else isize + isize / 255 + 16

abbrev LZ4_ACCELERATION_DEFAULT : ℕ := 1
abbrev LZ4_ACCELERATION_MAX : ℕ := 65537

/-- `LZ4_compress_fast_extState_fastReset`; only a `byU16` table may keep old entries, behind
`dictSmall`. -/
def compressFastExtStateFastReset (ctx : Stream) (src dst : Mem) (srcSize dstCapacity : ℕ)
    (acceleration : ℕ) : Option CompressResult :=
  let acceleration := if acceleration < 1 then LZ4_ACCELERATION_DEFAULT else acceleration
  let acceleration := min acceleration LZ4_ACCELERATION_MAX
  if compressBound srcSize ≤ dstCapacity then
    if srcSize < LZ4_64Klimit then
      let ctx := prepareTable ctx srcSize .byU16
      if ctx.currentOffset ≠ 0 then
        compressGeneric ctx src dst srcSize 0 dstCapacity .notLimited .byU16 .dictSmall acceleration
      else
        compressGeneric ctx src dst srcSize 0 dstCapacity .notLimited .byU16 .noDictIssue acceleration
    else
      let ctx := prepareTable ctx srcSize .byU32
      compressGeneric ctx src dst srcSize 0 dstCapacity .notLimited .byU32 .noDictIssue acceleration
  else
    if srcSize < LZ4_64Klimit then
      let ctx := prepareTable ctx srcSize .byU16
      if ctx.currentOffset ≠ 0 then
        compressGeneric ctx src dst srcSize dstCapacity dstCapacity .limitedOutput .byU16 .dictSmall
          acceleration
      else
        compressGeneric ctx src dst srcSize dstCapacity dstCapacity .limitedOutput .byU16 .noDictIssue
          acceleration
    else
      let ctx := prepareTable ctx srcSize .byU32
      compressGeneric ctx src dst srcSize dstCapacity dstCapacity .limitedOutput .byU32 .noDictIssue
        acceleration

end ZramUpgrade.Lz4
