import ZramUpgrade.Zstd.SeqRun

/-!
# Zstd.SeqExec — `ZSTD_execSequence`

The bytes of a sequence are copied in blocks of 8 and 16 that may run over its end, up to
`WILDCOPY_OVERLENGTH` bytes, and near the end of the buffer with care.  Whichever copy is taken, the
literals and the match come out (`execSequence_spec`).  The literals may be stored in the buffer itself,
behind the longest block there can be.  Whatever the sequences are, nothing is written before the block or
past the buffer, on an error either (`decompressBlock_inside`).
-/

namespace ZramUpgrade.Zstd

open Lib

/-! ## Copies -/

/-- `COPY8` and the like, `n` bytes a turn, until `oend`: at least one turn. -/
def copyLoop (turn : Mem → ℕ → ℕ → Mem) (n : ℕ) : ℕ → Mem → ℕ → ℕ → ℕ → Mem
  | 0, m, _, _, _ => m
  | fuel + 1, m, op, ip, oend =>
    if op + n < oend then copyLoop turn n fuel (turn m op ip) (op + n) (ip + n) oend else turn m op ip

/-- Two `COPY16`, from what `rd` sees of the memory. -/
def copy16Twice (rd : Mem → Mem) (m : Mem) (op ip : ℕ) : Mem :=
  let m := memcpy (rd m) m op ip 16
  memcpy (rd m) m (op + 16) (ip + 16) 16

/-- `ZSTD_wildcopy`; `overlap` is `ZSTD_overlap_src_before_dst`. -/
def wildcopy (rd : Mem → Mem) (overlap : Bool) (m : Mem) (op ip length : ℕ) : Mem :=
  if overlap = true ∧ op < ip + 16 then
    -- short offsets
    copyLoop (fun m op ip => memcpy (rd m) m op ip 8) 8 (length + 1) m op ip (op + length)
  else
    let m := memcpy (rd m) m op ip 16
    if length ≤ 16 then m
    else copyLoop (copy16Twice rd) 32 (length + 1) m (op + 16) (ip + 16) (op + length)

/-- `while (op < oend) *op++ = *ip++`, for `n` bytes. -/
def copyEach (rd : Mem → Mem) : ℕ → Mem → ℕ → ℕ → Mem
  | 0, m, _, _ => m
  | n + 1, m, op, ip => copyEach rd n (store m op (rd m ip)) (op + 1) (ip + 1)

/-- `dec32table` of `ZSTD_overlapCopy8`. -/
def dec32table (offset : ℕ) : ℕ := [0, 1, 2, 1, 4, 4, 4, 4].getD offset 0

/-- `dec64table` of `ZSTD_overlapCopy8`. -/
def dec64table (offset : ℕ) : ℕ := [8, 8, 8, 7, 8, 9, 10, 11].getD offset 0

/-- `ZSTD_overlapCopy8`: the memory and the next `ip`. -/
def overlapCopy8 (m : Mem) (op ip offset : ℕ) : Mem × ℕ :=
  if offset < 8 then
    let m := copyEach id 4 m op ip
    let ip := ip + dec32table offset
    (memcpy m m (op + 4) ip 4, ip + 8 - dec64table offset)
  else (memcpy m m op ip 8, ip + 8)

/-- `ZSTD_safecopy`, after the first bytes of an overlap; `bufEnd` is 32 after `oend_w`. -/
def safecopyRest (rd : Mem → Mem) (overlap : Bool) (m : Mem) (op bufEnd ip length : ℕ) : Mem :=
  if op + length + 32 ≤ bufEnd then wildcopy rd overlap m op ip length
  else if op + 32 ≤ bufEnd then
    let n := bufEnd - 32 - op
    copyEach rd (length - n) (wildcopy rd overlap m op ip n) (op + n) (ip + n)
  else copyEach rd length m op ip

/-- `ZSTD_safecopy`. -/
def safecopy (rd : Mem → Mem) (overlap : Bool) (m : Mem) (op bufEnd ip length : ℕ) : Mem :=
  if length < 8 then copyEach rd length m op ip
  else if overlap = true then
    let (m, ip) := overlapCopy8 m op ip (op - ip)
    safecopyRest rd overlap m (op + 8) bufEnd ip (length - 8)
  else safecopyRest rd overlap m op bufEnd ip length

/-! ## The execution of a sequence -/

/-- The match of `ZSTD_execSequence`, with room to run over. -/
def copyMatch (m : Mem) (op offset matchLength : ℕ) : Mem :=
  if 16 ≤ offset then wildcopy id false m op (op - offset) matchLength
  else
    let (m, ip) := overlapCopy8 m op (op - offset) offset
    if 8 < matchLength then wildcopy id true m (op + 8) ip (matchLength - 8) else m

/-- A failure, and the memory it leaves. -/
abbrev Failure := ErrorCode × Mem

/-- `ZSTD_execSequenceEnd`: the size, the next literal and the memory. -/
def execSequenceEnd (lit m : Mem) (op oend : ℕ) (q : Seq) (litPtr litLimit : ℕ) :
    Except Failure (ℕ × ℕ × Mem) :=
  if oend - op < q.litLength + q.matchLength then .error (.dstSizeTooSmall, m)
  else if litLimit - litPtr < q.litLength then .error (.corruptionDetected, m)
  else
    let m := safecopy (fun _ => lit) false m op oend litPtr q.litLength
    let op' := op + q.litLength
    if op' < q.offset then .error (.corruptionDetected, m)
    else .ok (q.litLength + q.matchLength, litPtr + q.litLength,
      safecopy id true m op' oend (op' - q.offset) q.matchLength)

/-- `ZSTD_execSequence`, into a buffer that starts at offset 0 with the first byte a match may copy. -/
def execSequence (lit m : Mem) (op oend : ℕ) (q : Seq) (litPtr litLimit : ℕ) :
    Except Failure (ℕ × ℕ × Mem) :=
  let op' := op + q.litLength
  if litLimit < litPtr + q.litLength ∨ oend < op' + q.matchLength + 32 then
    execSequenceEnd lit m op oend q litPtr litLimit
  else
    let m := memcpy lit m op litPtr 16
    let m := if 16 < q.litLength then
      wildcopy (fun _ => lit) false m (op + 16) (litPtr + 16) (q.litLength - 16) else m
    if op' < q.offset then .error (.corruptionDetected, m)
    else .ok (q.litLength + q.matchLength, litPtr + q.litLength, copyMatch m op' q.offset q.matchLength)

/-! ## The literals of a block -/

/-- `ZSTD_LITBUFFEREXTRASIZE`. -/
def litBufferExtraSize : ℕ := 1 <<< 16

/-- What the section of the literals says, `cSize` bytes of the block: `inPlace` where they are used as they
lie in the block, `isError` where `HUF_isError` of them.  They fit in the extra buffer, so that they are
never split. -/
structure Literals where
  bytes : Mem
  size : ℕ
  cSize : ℕ
  inPlace : Bool
  isError : Bool
  size_le : size ≤ litBufferExtraSize

/-- The buffer that a frame is written into, up to `oend`, and `ZSTD_blockSizeMax`.  What is read lies
elsewhere, and the history is too short for the decoder that prefetches. -/
structure FrameBuffer where
  oend : ℕ
  blockSizeMax : ℕ
  oend_le : oend ≤ 1 <<< 24
  blockSizeMax_le : blockSizeMax ≤ 1 <<< 17

/-- `ZSTD_decodeLiteralsBlock` with `ZSTD_allocateLiteralsBuffer`, `not_streaming`: what `litPtr` sees, the
end of what the sequences may write, and the memory.  Literals that are stored in the buffer lie from that
end on, where no sequence writes (`execSequence_literals`). -/
def decodeLiteralsBlock (buf : FrameBuffer) (lit : Literals) (m : Mem) (op : ℕ) :
    Except Failure (Mem × ℕ × Mem) :=
  if buf.blockSizeMax < lit.size then .error (.corruptionDetected, m)
  else if min buf.blockSizeMax (buf.oend - op) < lit.size then .error (.dstSizeTooSmall, m)
  else if buf.blockSizeMax + 32 + lit.size + 32 < buf.oend - op ∧ lit.inPlace = false then
    -- `ZSTD_in_dst`
    let litBuffer := op + buf.blockSizeMax + 32
    let m := memcpy lit.bytes m litBuffer 0 lit.size
    if lit.isError = true then .error (.corruptionDetected, m)
    else .ok (fromOffset m litBuffer, litBuffer, m)
  else if lit.isError = true then .error (.corruptionDetected, m)
  else .ok (lit.bytes, buf.oend, m)

/-! ## A block -/

/-- The loop of `ZSTD_decompressSequences_body`: the state of the decoder, `op`, the next literal and the
memory. -/
def execLoop (t : SeqTables) (src lit : Mem) (oend litEnd : ℕ) :
    ℕ → SeqState → ℕ → ℕ → Mem → Except Failure (SeqState × ℕ × ℕ × Mem)
  | 0, st, op, litPtr, m => .ok (st, op, litPtr, m)
  | nbSeq + 1, st, op, litPtr, m => do
    let r := decodeSequence t src (nbSeq = 0) st
    let (oneSeqSize, litPtr, m) ← execSequence lit m op oend r.1 litPtr litEnd
    execLoop t src lit oend litEnd nbSeq r.2 (op + oneSeqSize) litPtr m

/-- The "last literal segment": `op` and the memory. -/
def lastLiterals (lit m : Mem) (op oend litPtr litEnd : ℕ) : Except Failure (ℕ × Mem) :=
  let lastLLSize := litEnd - litPtr
  if oend - op < lastLLSize then .error (.dstSizeTooSmall, m)
  else .ok (op + lastLLSize, memcpy lit m op litPtr lastLLSize)

/-- `ZSTD_decompressSequences_body`, which ends its writes at `oend`: the end of the block, the memory and
the context. -/
def decompressSequences (dctx : SeqDCtx) (lit : Mem) (litSize : ℕ) (m : Mem) (op oend : ℕ) (src : Mem)
    (srcSize nbSeq : ℕ) : Except Failure (ℕ × Mem × SeqDCtx) :=
  if nbSeq = 0 then do
    let (op, m) ← lastLiterals lit m op oend 0 litSize
    return (op, m, dctx)
  else
    match initDStream src srcSize with
    | .error _ => .error (.corruptionDetected, m)
    | .ok bitD => do
      let (st, op, litPtr, m) ← execLoop dctx.tables src lit oend litSize nbSeq
        (initSeqState dctx.tables src bitD dctx.rep) op 0 m
      if st.dStream.endOfDStream then
        let rep := ⟨st.prevOffset.r0 % 2 ^ 32, st.prevOffset.r1 % 2 ^ 32, st.prevOffset.r2 % 2 ^ 32⟩
        let (op, m) ← lastLiterals lit m op oend litPtr litSize
        return (op, m, { dctx with fseEntropy := true, rep })
      else .error (.corruptionDetected, m)

/-- `ZSTD_decompressBlock_internal`; `src` and `srcSize` are what follows the literals. -/
def decompressBlock (dctx : SeqDCtx) (buf : FrameBuffer) (lit : Literals) (m : Mem) (op : ℕ) (src : Mem)
    (srcSize : ℕ) (wksp : SeqWorkspace) : Except Failure (ℕ × Mem × SeqDCtx) :=
  if buf.blockSizeMax < lit.cSize + srcSize then .error (.srcSizeWrong, m)
  else do
    let (litPtr, oend, m) ← decodeLiteralsBlock buf lit m op
    match decodeSeqHeaders dctx src srcSize wksp with
    | .error e => .error (e, m)
    | .ok (ip, nbSeq, dctx) =>
      if buf.oend - op = 0 ∧ 0 < nbSeq then .error (.dstSizeTooSmall, m)
      else decompressSequences dctx litPtr lit.size m op oend (fromOffset src ip) (srcSize - ip) nbSeq

/-! ## Where a copy writes -/

/-- Nothing is written below `a`, nor from `e` on. -/
def Kept (m m' : Mem) (a e : ℕ) : Prop := ∀ i, i < a ∨ e ≤ i → m' i = m i

section Kept

variable {rd : Mem → Mem} {m m' m'' : Mem} {a a' e e' c bufEnd n : ℕ}

theorem Kept.refl (m : Mem) (a e : ℕ) : Kept m m a e := fun _ _ => rfl

theorem Kept.trans (h : Kept m m' a e) (h' : Kept m' m'' a e) : Kept m m'' a e :=
  fun i hi => (h' i hi).trans (h i hi)

theorem Kept.mono (h : Kept m m' a e) (ha : a' ≤ a) (he : e ≤ e') : Kept m m' a' e' :=
  fun i hi => h i (by omega)

theorem Kept.fromOffset_eq (h : Kept m m' a e) : fromOffset m' e = fromOffset m e :=
  funext fun k => h (e + k) (.inr (Nat.le_add_right e k))

theorem kept_memcpy (rd m : Mem) (d s n : ℕ) : Kept m (memcpy rd m d s n) d (d + n) :=
  fun _ hi => memcpy_out _ _ hi

theorem kept_copy16Twice (rd : Mem → Mem) (m : Mem) (op ip : ℕ) :
    Kept m (copy16Twice rd m op ip) op (op + 32) := by
  have h1 := kept_memcpy (rd m) m op ip 16
  have h2 := kept_memcpy (rd (memcpy (rd m) m op ip 16)) (memcpy (rd m) m op ip 16) (op + 16) (ip + 16) 16
  exact (h1.mono le_rfl (by omega)).trans (h2.mono (by omega) (by omega))

theorem kept_copyLoop {turn : Mem → ℕ → ℕ → Mem}
    (hturn : ∀ m op ip, Kept m (turn m op ip) op (op + c)) :
    ∀ fuel m op ip oend, op ≤ oend → Kept m (copyLoop turn c fuel m op ip oend) op (oend + c) := by
  intro fuel
  induction fuel with
  | zero => exact fun m op ip oend _ => .refl m op _
  | succ fuel ih =>
    intro m op ip oend hle
    have h1 := (hturn m op ip).mono le_rfl (Nat.add_le_add_right hle c)
    rw [copyLoop]
    by_cases hmore : op + c < oend
    · rw [if_pos hmore]
      exact h1.trans ((ih _ _ (ip + c) oend hmore.le).mono (by omega) le_rfl)
    · rw [if_neg hmore]
      exact h1

/-- The wild copy writes less than 32 bytes too many. -/
theorem kept_wildcopy (rd : Mem → Mem) (overlap : Bool) (m : Mem) (op ip n : ℕ) :
    Kept m (wildcopy rd overlap m op ip n) op (op + n + 32) := by
  rw [wildcopy]
  by_cases hshort : overlap = true ∧ op < ip + 16
  · rw [if_pos hshort]
    exact (kept_copyLoop (fun m op ip => kept_memcpy (rd m) m op ip 8) _ m op ip _
      (Nat.le_add_right _ _)).mono le_rfl (by omega)
  · rw [if_neg hshort]
    have h1 := kept_memcpy (rd m) m op ip 16
    dsimp only
    by_cases hle : n ≤ 16
    · rw [if_pos hle]
      exact h1.mono le_rfl (by omega)
    · rw [if_neg hle]
      have h2 := kept_copyLoop (kept_copy16Twice rd) (n + 1) (memcpy (rd m) m op ip 16) (op + 16) (ip + 16)
        (op + n) (by omega)
      exact (h1.mono le_rfl (by omega)).trans (h2.mono (by omega) le_rfl)

theorem kept_copyEach (rd : Mem → Mem) (n : ℕ) :
    ∀ m op ip, Kept m (copyEach rd n m op ip) op (op + n) := by
  induction n with
  | zero => exact fun m op _ => .refl m op _
  | succ n ih =>
    intro m op ip i hi
    rw [copyEach, ih _ _ _ i (by omega), store_ne _ _ (by omega)]

theorem kept_overlapCopy8 (m : Mem) (op ip off : ℕ) : Kept m (overlapCopy8 m op ip off).1 op (op + 8) := by
  rw [overlapCopy8]
  by_cases h8 : off < 8
  · rw [if_pos h8]
    have h1 := kept_copyEach id 4 m op ip
    have h2 := kept_memcpy (copyEach id 4 m op ip) (copyEach id 4 m op ip) (op + 4) (ip + dec32table off) 4
    exact (h1.mono le_rfl (by omega)).trans (h2.mono (by omega) (by omega))
  · rw [if_neg h8]
    exact kept_memcpy m m op ip 8

theorem kept_copyMatch (m : Mem) (op off n : ℕ) : Kept m (copyMatch m op off n) op (op + n + 32) := by
  rw [copyMatch]
  by_cases h16 : 16 ≤ off
  · rw [if_pos h16]
    exact kept_wildcopy id false m op _ n
  · rw [if_neg h16]
    have h1 := kept_overlapCopy8 m op (op - off) off
    generalize overlapCopy8 m op (op - off) off = r at h1 ⊢
    obtain ⟨m1, ip⟩ := r
    dsimp only at h1 ⊢
    by_cases hmore : 8 < n
    · rw [if_pos hmore]
      exact (h1.mono le_rfl (by omega)).trans
        ((kept_wildcopy id true m1 (op + 8) ip (n - 8)).mono (by omega) (by omega))
    · rw [if_neg hmore]
      exact h1.mono le_rfl (by omega)

theorem kept_safecopyRest (rd : Mem → Mem) (overlap : Bool) (m : Mem) {op : ℕ} (ip : ℕ)
    (hroom : op + n ≤ bufEnd) : Kept m (safecopyRest rd overlap m op bufEnd ip n) op bufEnd := by
  rw [safecopyRest]
  by_cases hall : op + n + 32 ≤ bufEnd
  · rw [if_pos hall]
    exact (kept_wildcopy rd overlap m op ip n).mono le_rfl hall
  · rw [if_neg hall]
    by_cases hsome : op + 32 ≤ bufEnd
    · rw [if_pos hsome]
      have h1 := kept_wildcopy rd overlap m op ip (bufEnd - 32 - op)
      have h2 := kept_copyEach rd (n - (bufEnd - 32 - op))
        (wildcopy rd overlap m op ip (bufEnd - 32 - op)) (op + (bufEnd - 32 - op)) (ip + (bufEnd - 32 - op))
      exact (h1.mono le_rfl (by omega)).trans (h2.mono (by omega) (by omega))
    · rw [if_neg hsome]
      exact (kept_copyEach rd n m op ip).mono le_rfl hroom

/-- The careful copy stays in the buffer. -/
theorem kept_safecopy (rd : Mem → Mem) (overlap : Bool) (m : Mem) {op : ℕ} (ip : ℕ)
    (hroom : op + n ≤ bufEnd) : Kept m (safecopy rd overlap m op bufEnd ip n) op bufEnd := by
  rw [safecopy]
  by_cases h8 : n < 8
  · rw [if_pos h8]
    exact (kept_copyEach rd n m op ip).mono le_rfl hroom
  · rw [if_neg h8]
    by_cases hover : overlap = true
    · rw [if_pos hover]
      have h1 := kept_overlapCopy8 m op ip (op - ip)
      generalize overlapCopy8 m op ip (op - ip) = r at h1 ⊢
      obtain ⟨m1, ip1⟩ := r
      have hroom1 : op + 8 + (n - 8) ≤ bufEnd := by omega
      exact (h1.mono le_rfl (by omega)).trans
        ((kept_safecopyRest rd overlap m1 ip1 hroom1).mono (by omega) le_rfl)
    · rw [if_neg hover]
      exact kept_safecopyRest rd overlap m ip hroom

/-- A step from `op` to `e` in a buffer up to `oend`: it ends in the buffer, and writes only there. -/
structure Inside (m m' : Mem) (op e oend : ℕ) : Prop where
  le : op ≤ e
  end_le : e ≤ oend
  kept : Kept m m' op oend

theorem Inside.trans {op oend : ℕ} (h : Inside m m' op e oend) (h' : Inside m' m'' e e' oend) :
    Inside m m'' op e' oend :=
  ⟨h.le.trans h'.le, h'.end_le, h.kept.trans (h'.kept.mono h.le le_rfl)⟩

theorem Inside.mono {op oend oend' : ℕ} (h : Inside m m' op e oend) (ho : oend ≤ oend') :
    Inside m m' op e oend' :=
  ⟨h.le, h.end_le.trans ho, h.kept.mono le_rfl ho⟩

/-- A failure of the next step is one of both. -/
theorem Inside.kept_trans {op oend : ℕ} (h : Inside m m' op e oend) (h' : Kept m' m'' e oend) :
    Kept m m'' op oend :=
  h.kept.trans (h'.mono h.le le_rfl)

section Inside

variable {lit : Mem} {op oend litPtr litEnd : ℕ}

/-- The literals of the fast path, of which 16 bytes are copied at once. -/
theorem kept_literals (lit m : Mem) (op litPtr n : ℕ) :
    Kept m (if 16 < n then wildcopy (fun _ => lit) false (memcpy lit m op litPtr 16) (op + 16) (litPtr + 16)
      (n - 16) else memcpy lit m op litPtr 16) op (op + n + 32) := by
  have h1 := (kept_memcpy lit m op litPtr 16).mono le_rfl (show op + 16 ≤ op + n + 32 by omega)
  by_cases hmore : 16 < n
  · rw [if_pos hmore]
    have h2 := kept_wildcopy (fun _ => lit) false (memcpy lit m op litPtr 16) (op + 16) (litPtr + 16) (n - 16)
    exact h1.trans (h2.mono (by omega) (by omega))
  · rw [if_neg hmore]
    exact h1

/-- **A sequence never leaves the buffer**, whatever it says. -/
theorem execSequence_inside (lit m : Mem) (q : Seq) (hop : op ≤ oend) (hlit : litPtr ≤ litEnd) :
    Leaves (fun r => Inside m r.2.2 op (op + r.1) oend ∧ r.2.1 ≤ litEnd) (Kept m · op oend)
      (execSequence lit m op oend q litPtr litEnd) := by
  rw [execSequence]
  by_cases hslow : litEnd < litPtr + q.litLength ∨ oend < op + q.litLength + q.matchLength + 32
  · rw [if_pos hslow, execSequenceEnd]
    by_cases h1 : oend - op < q.litLength + q.matchLength
    · rw [if_pos h1]
      exact .refl m op oend
    by_cases h2 : litEnd - litPtr < q.litLength
    · rw [if_neg h1, if_pos h2]
      exact .refl m op oend
    rw [if_neg h1, if_neg h2]
    have hl := kept_safecopy (fun _ => lit) false m litPtr (show op + q.litLength ≤ oend by omega)
    dsimp only
    by_cases h3 : op + q.litLength < q.offset
    · rw [if_pos h3]
      exact hl
    rw [if_neg h3]
    have hm := kept_safecopy id true (safecopy (fun _ => lit) false m op oend litPtr q.litLength)
      (op + q.litLength - q.offset) (show op + q.litLength + q.matchLength ≤ oend by omega)
    have hend : op + (q.litLength + q.matchLength) ≤ oend := by omega
    have hnext : litPtr + q.litLength ≤ litEnd := by omega
    exact ⟨⟨Nat.le_add_right _ _, hend, hl.trans (hm.mono (Nat.le_add_right _ _) le_rfl)⟩, hnext⟩
  · rw [if_neg hslow]
    have hl := (kept_literals lit m op litPtr q.litLength).mono le_rfl (show _ ≤ oend by omega)
    dsimp only
    by_cases h3 : op + q.litLength < q.offset
    · rw [if_pos h3]
      exact hl
    rw [if_neg h3]
    generalize (if 16 < q.litLength then _ else _) = m1 at hl ⊢
    have hm := (kept_copyMatch m1 (op + q.litLength) q.offset q.matchLength).mono
      (Nat.le_add_right _ _) (show _ ≤ oend by omega)
    have hend : op + (q.litLength + q.matchLength) ≤ oend := by omega
    have hnext : litPtr + q.litLength ≤ litEnd := by omega
    exact ⟨⟨Nat.le_add_right _ _, hend, hl.trans hm⟩, hnext⟩

/-- Literals that are stored from `oend` on stay what they were, so that the next sequence reads the same. -/
theorem execSequence_literals (lit m : Mem) (q : Seq) (hop : op ≤ oend) (hlit : litPtr ≤ litEnd) :
    Leaves (fun r => fromOffset r.2.2 oend = fromOffset m oend) (fromOffset · oend = fromOffset m oend)
      (execSequence lit m op oend q litPtr litEnd) :=
  (execSequence_inside lit m q hop hlit).mono (fun _ h => h.1.kept.fromOffset_eq) fun _ h => h.fromOffset_eq

theorem execLoop_inside (t : SeqTables) (src lit : Mem) (nbSeq : ℕ) :
    ∀ {st : SeqState} {op litPtr : ℕ} {m : Mem}, op ≤ oend → litPtr ≤ litEnd →
      Leaves (fun r => Inside m r.2.2.2 op r.2.1 oend ∧ r.2.2.1 ≤ litEnd) (Kept m · op oend)
        (execLoop t src lit oend litEnd nbSeq st op litPtr m) := by
  induction nbSeq with
  | zero => exact fun {st op litPtr m} hop hlit => ⟨⟨le_rfl, hop, .refl m op oend⟩, hlit⟩
  | succ n ih =>
    intro st op litPtr m hop hlit
    rw [execLoop]
    refine (execSequence_inside lit m _ hop hlit).bind ?_
    rintro ⟨size, litPtr1, m1⟩ ⟨h1, hlit1⟩
    exact (ih h1.end_le hlit1).mono (fun r h => ⟨h1.trans h.1, h.2⟩) fun m2 h => h1.kept_trans h

theorem lastLiterals_inside (lit m : Mem) (litPtr litEnd : ℕ) (hop : op ≤ oend) :
    Leaves (fun r => Inside m r.2 op r.1 oend) (Kept m · op oend)
      (lastLiterals lit m op oend litPtr litEnd) := by
  rw [lastLiterals]
  by_cases hroom : oend - op < litEnd - litPtr
  · rw [if_pos hroom]
    exact .refl m op oend
  · rw [if_neg hroom]
    have h1 := kept_memcpy lit m op litPtr (litEnd - litPtr)
    have hend : op + (litEnd - litPtr) ≤ oend := by omega
    exact ⟨Nat.le_add_right _ _, hend, h1.mono le_rfl hend⟩

theorem decompressSequences_inside (dctx : SeqDCtx) (lit : Mem) (litSize : ℕ) (m : Mem) (hop : op ≤ oend)
    (src : Mem) (srcSize nbSeq : ℕ) :
    Leaves (fun r => Inside m r.2.1 op r.1 oend) (Kept m · op oend)
      (decompressSequences dctx lit litSize m op oend src srcSize nbSeq) := by
  rw [decompressSequences]
  by_cases h0 : nbSeq = 0
  · rw [if_pos h0]
    exact (lastLiterals_inside lit m 0 litSize hop).bind fun r h => h
  rw [if_neg h0]
  cases initDStream src srcSize with
  | error e => exact .refl m op oend
  | ok bitD =>
    refine (execLoop_inside dctx.tables src lit nbSeq hop (Nat.zero_le litSize)).bind ?_
    rintro ⟨st, op1, litPtr, m1⟩ ⟨h1, -⟩
    dsimp only at h1 ⊢
    by_cases hend : st.dStream.endOfDStream = true
    · rw [if_pos hend]
      have h2 := (lastLiterals_inside lit m1 litPtr litSize h1.end_le).mono
        (fun r h => h1.trans h) fun m2 h => h1.kept_trans h
      exact h2.bind fun r h => h
    · rw [if_neg hend]
      exact h1.kept

/-- Literals that are stored in the buffer are inside. -/
theorem decodeLiteralsBlock_inside (buf : FrameBuffer) (lit : Literals) (m : Mem) (hop : op ≤ buf.oend) :
    Leaves (fun r => Inside m r.2.2 op op buf.oend ∧ op ≤ r.2.1 ∧ r.2.1 ≤ buf.oend) (Kept m · op buf.oend)
      (decodeLiteralsBlock buf lit m op) := by
  rw [decodeLiteralsBlock]
  by_cases hmax : buf.blockSizeMax < lit.size
  · rw [if_pos hmax]
    exact .refl m _ _
  by_cases hroom : min buf.blockSizeMax (buf.oend - op) < lit.size
  · rw [if_neg hmax, if_pos hroom]
    exact .refl m _ _
  rw [if_neg hmax, if_neg hroom]
  by_cases hdst : buf.blockSizeMax + 32 + lit.size + 32 < buf.oend - op ∧ lit.inPlace = false
  · rw [if_pos hdst]
    have hlow : op ≤ op + buf.blockSizeMax + 32 := by omega
    have hend : op + buf.blockSizeMax + 32 + lit.size ≤ buf.oend := by omega
    have h1 := (kept_memcpy lit.bytes m (op + buf.blockSizeMax + 32) 0 lit.size).mono hlow hend
    dsimp only
    by_cases herr : lit.isError = true
    · rw [if_pos herr]
      exact h1
    · rw [if_neg herr]
      exact ⟨⟨le_rfl, hop, h1⟩, hlow, (Nat.le_add_right _ _).trans hend⟩
  · rw [if_neg hdst]
    by_cases herr : lit.isError = true
    · rw [if_pos herr]
      exact .refl m _ _
    · rw [if_neg herr]
      exact ⟨⟨le_rfl, hop, .refl m _ _⟩, hop, le_rfl⟩

/-- **A block never leaves the buffer**, whatever its bytes are, and whether it fails or not. -/
theorem decompressBlock_inside (dctx : SeqDCtx) (buf : FrameBuffer) (lit : Literals) (m : Mem)
    (hop : op ≤ buf.oend) (src : Mem) (srcSize : ℕ) (w : SeqWorkspace) :
    Leaves (fun r => Inside m r.2.1 op r.1 buf.oend) (Kept m · op buf.oend)
      (decompressBlock dctx buf lit m op src srcSize w) := by
  rw [decompressBlock]
  by_cases hsize : buf.blockSizeMax < lit.cSize + srcSize
  · rw [if_pos hsize]
    exact .refl m _ _
  rw [if_neg hsize]
  refine (decodeLiteralsBlock_inside buf lit m hop).bind ?_
  rintro ⟨litPtr, oend, m1⟩ ⟨h1, hle, hend⟩
  dsimp only at h1 hle hend ⊢
  cases decodeSeqHeaders dctx src srcSize w with
  | error e => exact h1.kept
  | ok r =>
    obtain ⟨ip, nbSeq, dctx1⟩ := r
    dsimp only
    by_cases hdst : buf.oend - op = 0 ∧ 0 < nbSeq
    · rw [if_pos hdst]
      exact h1.kept
    · rw [if_neg hdst]
      have h2 := decompressSequences_inside dctx1 litPtr lit.size m1 hle (fromOffset src ip) (srcSize - ip)
        nbSeq
      exact h2.mono (fun r h => h1.trans (h.mono hend)) fun m2 h => h1.kept_trans (h.mono le_rfl hend)

end Inside

end Kept

/-! ## What a copy copies -/

/-- `n` bytes at `ip`, read in blocks of `c`, are those of the text `p` at `op`, by the time the text is
there up to the block. -/
def Feeds (rd : Mem → Mem) (p : Mem) (c ip op n : ℕ) : Prop :=
  ∀ (m : Mem) (k : ℕ), Agree m p (op + k) → ∀ j < c, k + j < n → rd m (ip + (k + j)) = p (op + (k + j))

section Copies

variable {rd : Mem → Mem} {m p lit : Mem} {c c' ip op k n : ℕ}

theorem feeds_lit (h : ∀ k < n, lit (ip + k) = p (op + k)) : Feeds (fun _ => lit) p c ip op n :=
  fun _ _ _ _ _ hlt => h _ hlt

theorem feeds_match (h : ∀ k, p (ip + k) = p (op + k)) (hc : ip + c ≤ op) : Feeds id p c ip op n := by
  intro m k hA j hj _
  show m (ip + (k + j)) = p (op + (k + j))
  rw [hA _ (by omega), h]

theorem Feeds.mono (h : Feeds rd p c ip op n) (hc : c' ≤ c) {n' : ℕ} (hn : n' ≤ n) :
    Feeds rd p c' ip op n' :=
  fun m k hA j hj hlt => h m k hA j (by omega) (by omega)

theorem Feeds.shift (h : Feeds rd p c ip op n) (t : ℕ) : Feeds rd p c (ip + t) (op + t) (n - t) := by
  intro m k hA j hj hlt
  rw [Nat.add_assoc] at hA ⊢
  rw [Nat.add_assoc, ← Nat.add_assoc t]
  exact h m (t + k) hA j hj (by omega)

/-- One block. -/
theorem Feeds.memcpy (h : Feeds rd p c ip op n) (hA : Agree m p (op + k)) (hk : k ≤ n) :
    Agree (memcpy (rd m) m (op + k) (ip + k) c) p (op + min (k + c) n) := by
  have hcopy : Agree (Lib.memcpy (rd m) m (op + k) (ip + k) c) p (op + k + min c (n - k)) :=
    hA.memcpy (fun j hj => by
      rw [Nat.add_assoc, Nat.add_assoc]
      exact h m k hA j (by omega) (by omega)) (min_le_left _ _)
  exact hcopy.mono (by omega)

theorem Feeds.copy16Twice (h : Feeds rd p 16 ip op n) (hA : Agree m p (op + k)) (hk : k ≤ n) :
    Agree (copy16Twice rd m (op + k) (ip + k)) p (op + min (k + 32) n) := by
  have h1 := h.memcpy hA hk
  rw [Zstd.copy16Twice]
  generalize Lib.memcpy (rd m) m (op + k) (ip + k) 16 = m1 at h1 ⊢
  rw [Nat.add_assoc op, Nat.add_assoc ip]
  by_cases hn : k + 16 ≤ n
  · exact (h.memcpy (k := k + 16) (h1.mono (by omega)) hn).mono (by omega)
  · -- all is there, and the second block starts past it
    exact (agree_memcpy (rd m1) m1 _ 16 (by omega)).trans (h1.mono (by omega))

/-- A loop of turns that copy `c` bytes each. -/
theorem copyLoop_spec {turn : Mem → ℕ → ℕ → Mem} (hc : 0 < c)
    (hturn : ∀ m k, k ≤ n → Agree m p (op + k) →
      Agree (turn m (op + k) (ip + k)) p (op + min (k + c) n)) :
    ∀ fuel m k, k ≤ n → n - k < fuel → Agree m p (op + k) →
      Agree (copyLoop turn c fuel m (op + k) (ip + k) (op + n)) p (op + n) := by
  intro fuel
  induction fuel with
  | zero => intro m k _ hlt; omega
  | succ fuel ih =>
    intro m k hk hlt hA
    have h1 := hturn m k hk hA
    rw [copyLoop]
    by_cases hmore : op + k + c < op + n
    · rw [if_pos hmore, Nat.add_assoc op k, Nat.add_assoc ip k]
      exact ih (turn m (op + k) (ip + k)) (k + c) (by omega) (by omega) (h1.mono (by omega))
    · rw [if_neg hmore]
      exact h1.mono (by omega)

/-- **The wild copy** writes what it is fed. -/
theorem wildcopy_spec (overlap : Bool) (h8 : overlap = true ∧ op < ip + 16 → Feeds rd p 8 ip op n)
    (h16 : ¬(overlap = true ∧ op < ip + 16) → Feeds rd p 16 ip op n) (hA : Agree m p op) :
    Agree (wildcopy rd overlap m op ip n) p (op + n) := by
  rw [wildcopy]
  by_cases hshort : overlap = true ∧ op < ip + 16
  · rw [if_pos hshort]
    have hloop : Agree (copyLoop (fun m op ip => Lib.memcpy (rd m) m op ip 8) 8 (n + 1) m (op + 0) (ip + 0)
        (op + n)) p (op + n) :=
      copyLoop_spec (by decide) (fun m k hk hA => (h8 hshort).memcpy hA hk) (n + 1) m 0 (Nat.zero_le _)
        (by omega) hA
    exact hloop
  · rw [if_neg hshort]
    have h1 : Agree (Lib.memcpy (rd m) m op ip 16) p (op + min (0 + 16) n) :=
      (h16 hshort).memcpy (k := 0) hA (Nat.zero_le _)
    dsimp only
    generalize Lib.memcpy (rd m) m op ip 16 = m1 at h1 ⊢
    by_cases hle : n ≤ 16
    · rw [if_pos hle]
      exact h1.mono (by omega)
    · rw [if_neg hle]
      exact copyLoop_spec (c := 32) (by omega) (fun m k hk hA => (h16 hshort).copy16Twice hA hk)
        (n + 1) m1 16 (by omega) (by omega) (h1.mono (by omega))

theorem copyEach_spec (h : Feeds rd p 1 ip op n) : ∀ l m k, k + l ≤ n → Agree m p (op + k) →
    Agree (copyEach rd l m (op + k) (ip + k)) p (op + (k + l)) := by
  intro l
  induction l with
  | zero => exact fun m k _ hA => hA
  | succ l ih =>
    intro m k hk hA
    have hbyte : rd m (ip + k) = p (op + k) := h m k hA 0 (by omega) (by omega)
    have h1 := ih (store m (op + k) (rd m (ip + k))) (k + 1) (by omega) (hA.store hbyte)
    rw [copyEach, Nat.add_assoc op, Nat.add_assoc ip]
    rwa [Nat.add_right_comm, Nat.add_assoc] at h1

/-- Up to 32 bytes before the end of the buffer in blocks, from there byte by byte. -/
theorem safecopyRest_spec (overlap : Bool) {bufEnd : ℕ}
    (h8 : overlap = true ∧ op < ip + 16 → Feeds rd p 8 ip op n)
    (h16 : ¬(overlap = true ∧ op < ip + 16) → Feeds rd p 16 ip op n)
    (h1 : Feeds rd p 1 ip op n) (hA : Agree m p op) :
    Agree (safecopyRest rd overlap m op bufEnd ip n) p (op + n) := by
  rw [safecopyRest]
  by_cases hall : op + n + 32 ≤ bufEnd
  · rw [if_pos hall]
    exact wildcopy_spec overlap h8 h16 hA
  · rw [if_neg hall]
    by_cases hsome : op + 32 ≤ bufEnd
    · rw [if_pos hsome]
      have hle : bufEnd - 32 - op ≤ n := by omega
      have hwild := wildcopy_spec overlap (n := bufEnd - 32 - op) (fun h => (h8 h).mono le_rfl hle)
        (fun h => (h16 h).mono le_rfl hle) hA
      have hrest := copyEach_spec h1 (n - (bufEnd - 32 - op))
        (wildcopy rd overlap m op ip (bufEnd - 32 - op)) (bufEnd - 32 - op) (by omega) hwild
      exact hrest.mono (by omega)
    · rw [if_neg hsome]
      exact (copyEach_spec h1 n m 0 (by omega) hA).mono (by omega)

end Copies

/-! ## Matches -/

section Match

variable {m p : Mem} {b off op oend n : ℕ}

/-- `ZSTD_overlapCopy8` spreads the offset: both steps are whole multiples of it. -/
theorem dec_tables (h0 : 0 < off) (h8 : off < 8) :
    ∃ r q, dec32table off ≤ off ∧ dec32table off + r * off = 4 + off ∧
      8 ≤ q * off ∧ q * off + dec32table off = off + dec64table off ∧ q * off ≤ 8 + off := by
  interval_cases off
  · exact ⟨4, 8, by decide⟩
  · exact ⟨2, 4, by decide⟩
  · exact ⟨2, 3, by decide⟩
  · exact ⟨1, 2, by decide⟩
  · exact ⟨1, 2, by decide⟩
  · exact ⟨1, 2, by decide⟩
  · exact ⟨1, 2, by decide⟩

/-- The text of a match is the last `off` bytes again and again. -/
theorem extend_back (h0 : 0 < off) (hb : off ≤ op) {s i : ℕ} (q : ℕ) (hs : op - off ≤ s) (hi : op ≤ i)
    (h : s + q * off = i) : extend p op off s = extend p op off i := by
  obtain rfl : s = i - q * off := by omega
  exact (extend_period p h0 hb hi hs (by omega)).symm

/-- The first 8 bytes of a match, and where the next come from: at least 8 back. -/
theorem overlapCopy8_spec (h0 : 0 < off) (hb : off ≤ op) (hA : Agree m (extend p op off) op) :
    ∃ m' ip, overlapCopy8 m op (op - off) off = (m', ip) ∧ Agree m' (extend p op off) (op + 8) ∧
      ip + 8 ≤ op + 8 ∧ ∀ k, extend p op off (ip + k) = extend p op off (op + 8 + k) := by
  have hback : ∀ k, extend p op off (op - off + k) = extend p op off (op + k) := fun k =>
    extend_back h0 hb 1 (by omega) (by omega) (by omega)
  rw [overlapCopy8]
  by_cases h8 : off < 8
  · rw [if_pos h8]
    obtain ⟨r, q, hle, hr, hq8, hq, hq15⟩ := dec_tables h0 h8
    have h4 := copyEach_spec (feeds_match (c := 1) (n := 4) hback (by omega)) 4 m 0 (by omega) hA
    rw [Nat.add_zero, Nat.add_zero] at h4
    dsimp only
    generalize copyEach id 4 m op (op - off) = m1 at h4 ⊢
    refine ⟨_, _, rfl, ?_, by omega, fun k => ?_⟩
    · refine h4.memcpy (n := 4) (fun k hk => ?_) le_rfl
      rw [h4 _ (by omega)]
      exact extend_back h0 hb r (by omega) (by omega) (by omega)
    · exact extend_back h0 hb q (by omega) (by omega) (by omega)
  · rw [if_neg h8]
    have h1 := (feeds_match (c := 8) (n := 8) hback (by omega)).memcpy (k := 0) hA (by omega)
    refine ⟨_, _, rfl, h1, by omega, fun k => ?_⟩
    exact extend_back h0 hb 1 (by omega) (by omega) (by omega)

/-- The match of the fast path. -/
theorem copyMatch_spec (h0 : 0 < off) (hb : off ≤ op) (hA : Agree m (extend p op off) op) :
    Agree (copyMatch m op off n) (extend p op off) (op + n) := by
  rw [copyMatch]
  by_cases h16 : 16 ≤ off
  · rw [if_pos h16]
    have hback : ∀ k, extend p op off (op - off + k) = extend p op off (op + k) := fun k =>
      extend_back h0 hb 1 (by omega) (by omega) (by omega)
    exact wildcopy_spec false (fun h => absurd h.1 (by decide)) (fun _ => feeds_match hback (by omega)) hA
  · rw [if_neg h16]
    obtain ⟨m1, ip, hrun, h1, hip, hback⟩ := overlapCopy8_spec h0 hb hA
    rw [hrun]
    dsimp only
    by_cases hmore : 8 < n
    · rw [if_pos hmore]
      have h2 := wildcopy_spec true (n := n - 8) (fun _ => feeds_match hback hip)
        (fun h => feeds_match hback (not_lt.mp (not_and.mp h rfl))) h1
      exact h2.mono (by omega)
    · rw [if_neg hmore]
      exact h1.mono (by omega)

/-- The match near the end of the buffer. -/
theorem safecopy_match (h0 : 0 < off) (hb : off ≤ op) (hA : Agree m (extend p op off) op) :
    Agree (safecopy id true m op oend (op - off) n) (extend p op off) (op + n) := by
  have hback : ∀ k, extend p op off (op - off + k) = extend p op off (op + k) := fun k =>
    extend_back h0 hb 1 (by omega) (by omega) (by omega)
  rw [safecopy]
  by_cases h8 : n < 8
  · rw [if_pos h8]
    have h1 := copyEach_spec (feeds_match (c := 1) (n := n) hback (by omega)) n m 0 (by omega) hA
    exact h1.mono (by omega)
  · obtain ⟨m1, ip, hrun, h1, hip, hback⟩ := overlapCopy8_spec h0 hb hA
    rw [if_neg h8, if_pos rfl, Nat.sub_sub_self hb, hrun]
    have h2 : Agree (safecopyRest id true m1 (op + 8) oend ip (n - 8)) (extend p op off) (op + 8 + (n - 8)) :=
      safecopyRest_spec true (fun _ => feeds_match hback hip)
        (fun h => feeds_match hback (not_lt.mp (not_and.mp h rfl))) (feeds_match hback (by omega)) h1
    exact h2.mono (by omega)

end Match

/-! ## One sequence -/

/-- A copy that ends well: the text is there up to `op`, and nothing is written from `e` on. -/
structure Copied (m p : Mem) (op e : ℕ) (m' : Mem) : Prop where
  agree : Agree m' p op
  out : ∀ i, e ≤ i → m' i = m i

theorem Copied.trans {m m' m'' p : Mem} {op op' e : ℕ} (h : Copied m p op e m') (h' : Copied m' p op' e m'') :
    Copied m p op' e m'' :=
  ⟨h'.agree, fun i hi => (h'.out i hi).trans (h.out i hi)⟩

section Exec

variable {lit m p : Mem} {op oend litPtr litLimit : ℕ} {q : Seq}

/-- What a sequence is told to write: literals, then a match that repeats the text so far. -/
structure Seq.Writes (q : Seq) (lit p : Mem) (op litPtr : ℕ) : Prop where
  literals : ∀ k < q.litLength, lit (litPtr + k) = p (op + k)
  offset_pos : 0 < q.offset
  offset_le : q.offset ≤ op + q.litLength
  matchLength_pos : 0 < q.matchLength
  back : ∀ k < q.matchLength, p (op + q.litLength + k) = p (op + q.litLength + k - q.offset)

/-- **A sequence** is written as it is told, with room for its bytes and no more. -/
theorem execSequence_spec (hq : q.Writes lit p op litPtr) (hA : Agree m p op)
    (hroom : op + q.litLength + q.matchLength ≤ oend) (hlit : litPtr + q.litLength ≤ litLimit) :
    ∃ m', execSequence lit m op oend q litPtr litLimit =
        .ok (q.litLength + q.matchLength, litPtr + q.litLength, m') ∧
      Copied m p (op + (q.litLength + q.matchLength)) oend m' := by
  have hfeed : ∀ c, Feeds (fun _ => lit) p c litPtr op q.litLength := fun c => feeds_lit hq.literals
  have hoff : ¬op + q.litLength < q.offset := not_lt.mpr hq.offset_le
  have htext := extend_agree hq.offset_pos hq.offset_le hq.back
  -- over the literals the text is its own extension
  have hext : ∀ m', Agree m' p (op + q.litLength) →
      Agree m' (extend p (op + q.litLength) q.offset) (op + q.litLength) := fun m' h i hi => by
    rw [extend_below p hi]
    exact h i hi
  have hwrites : ∃ m', execSequence lit m op oend q litPtr litLimit =
        .ok (q.litLength + q.matchLength, litPtr + q.litLength, m') ∧
      Agree m' p (op + q.litLength + q.matchLength) := by
    rw [execSequence]
    by_cases hslow : litLimit < litPtr + q.litLength ∨ oend < op + q.litLength + q.matchLength + 32
    · rw [if_pos hslow, execSequenceEnd, if_neg (by omega), if_neg (by omega), if_neg hoff]
      have h1 : Agree (safecopy (fun _ => lit) false m op oend litPtr q.litLength) p
          (op + q.litLength) := by
        rw [safecopy]
        by_cases h8 : q.litLength < 8
        · rw [if_pos h8]
          exact (copyEach_spec (hfeed 1) q.litLength m 0 (by omega) hA).mono (by omega)
        · rw [if_neg h8, if_neg (by decide)]
          exact safecopyRest_spec false (fun h => absurd h.1 (by decide)) (fun _ => hfeed 16) (hfeed 1) hA
      exact ⟨_, rfl, (safecopy_match hq.offset_pos hq.offset_le (hext _ h1)).trans htext⟩
    · rw [if_neg hslow, if_neg hoff]
      have h16 : Agree (memcpy lit m op litPtr 16) p (op + min (0 + 16) q.litLength) :=
        (hfeed 16).memcpy (k := 0) hA (Nat.zero_le _)
      generalize memcpy lit m op litPtr 16 = m1 at h16 ⊢
      have h1 : Agree (if 16 < q.litLength then
          wildcopy (fun _ => lit) false m1 (op + 16) (litPtr + 16) (q.litLength - 16) else m1) p
          (op + q.litLength) := by
        by_cases hmore : 16 < q.litLength
        · rw [if_pos hmore]
          have h2 := wildcopy_spec false (fun h => absurd h.1 (by decide)) (fun _ => (hfeed 16).shift 16)
            (h16.mono (by omega))
          exact h2.mono (by omega)
        · rw [if_neg hmore]
          exact h16.mono (by omega)
      exact ⟨_, rfl, (copyMatch_spec hq.offset_pos hq.offset_le (hext _ h1)).trans htext⟩
  obtain ⟨m', hrun, h⟩ := hwrites
  rw [Nat.add_assoc] at h
  have hop : op ≤ oend := by omega
  have hle : litPtr ≤ litLimit := by omega
  have hin := execSequence_inside lit m q hop hle
  rw [hrun] at hin
  exact ⟨m', hrun, h, fun i hi => hin.1.kept i (.inr hi)⟩

/-! ## The sequences of a block -/

/-- The literals of the sequences. -/
def litsOf (qs : List Seq) : ℕ := (qs.map Seq.litLength).sum

/-- The bytes of the sequences. -/
def bytesOf (qs : List Seq) : ℕ := (qs.map fun q => q.litLength + q.matchLength).sum

/-- The text that the sequences are told to write, one after the other. -/
def Covers (lit p : Mem) : ℕ → ℕ → List Seq → Prop
  | _, _, [] => True
  | op, litPtr, q :: qs =>
    q.Writes lit p op litPtr ∧ Covers lit p (op + (q.litLength + q.matchLength)) (litPtr + q.litLength) qs

theorem Covers.bytes_pos {t : SeqTables} {src : Mem} {st : SeqState} {nbSeq : ℕ} (hn : nbSeq ≠ 0)
    (h : Covers lit p op litPtr (decodeLoop t src nbSeq st).1) :
    0 < bytesOf (decodeLoop t src nbSeq st).1 := by
  obtain ⟨n, rfl⟩ := Nat.exists_eq_succ_of_ne_zero hn
  have hpos := h.1.matchLength_pos
  rw [decodeLoop, bytesOf, List.map_cons, List.sum_cons]
  omega

theorem litsOf_le_bytesOf (qs : List Seq) : litsOf qs ≤ bytesOf qs :=
  List.sum_le_sum fun q _ => Nat.le_add_right q.litLength q.matchLength

/-- Only the literals of the sequences count. -/
theorem Covers.congr {lit' : Mem} : ∀ {qs : List Seq} {op litPtr : ℕ}, Covers lit p op litPtr qs →
    Agree lit lit' (litPtr + litsOf qs) → Covers lit' p op litPtr qs := by
  intro qs
  induction qs with
  | nil => exact fun _ _ => trivial
  | cons q qs ih =>
    intro op litPtr h hA
    rw [litsOf, List.map_cons, List.sum_cons, ← litsOf, ← Nat.add_assoc] at hA
    obtain ⟨hq, hqs⟩ := h
    refine ⟨{ hq with literals := fun k hk => ?_ }, ih hqs hA⟩
    rw [← hA _ (by omega)]
    exact hq.literals k hk

/-- The loop decodes as `decodeLoop` does, and writes what the sequences are told to. -/
theorem execLoop_spec (t : SeqTables) (src : Mem) :
    ∀ (nbSeq : ℕ) (st : SeqState) (op litPtr : ℕ) (m : Mem),
    Covers lit p op litPtr (decodeLoop t src nbSeq st).1 → Agree m p op →
    op + bytesOf (decodeLoop t src nbSeq st).1 ≤ oend →
    litPtr + litsOf (decodeLoop t src nbSeq st).1 ≤ litLimit →
    ∃ m', execLoop t src lit oend litLimit nbSeq st op litPtr m =
        .ok ((decodeLoop t src nbSeq st).2, op + bytesOf (decodeLoop t src nbSeq st).1,
          litPtr + litsOf (decodeLoop t src nbSeq st).1, m') ∧
      Copied m p (op + bytesOf (decodeLoop t src nbSeq st).1) oend m' := by
  intro nbSeq
  induction nbSeq with
  | zero => exact fun st op litPtr m _ hA _ _ => ⟨m, rfl, hA, fun _ _ => rfl⟩
  | succ n ih =>
    intro st op litPtr m hcov hA hroom hlit
    rw [execLoop]
    rw [decodeLoop] at hcov hroom hlit ⊢
    dsimp only at hcov hroom hlit ⊢
    generalize decodeSequence t src (n = 0) st = r at hcov hroom hlit ⊢
    obtain ⟨q, st'⟩ := r
    dsimp only at hcov hroom hlit ⊢
    obtain ⟨hq, hcov⟩ := hcov
    rw [bytesOf, List.map_cons, List.sum_cons, ← bytesOf] at hroom ⊢
    rw [litsOf, List.map_cons, List.sum_cons, ← litsOf] at hlit ⊢
    have hroom1 : op + q.litLength + q.matchLength ≤ oend := by omega
    have hlit1 : litPtr + q.litLength ≤ litLimit := by omega
    obtain ⟨m1, hrun, h1⟩ := execSequence_spec hq hA hroom1 hlit1
    obtain ⟨m2, hrest, h2⟩ := ih st' _ _ m1 hcov h1.agree (by omega) (by omega)
    rw [Nat.add_assoc op] at hrest h2
    rw [hrun, ← Nat.add_assoc litPtr]
    exact ⟨m2, hrest, h1.trans h2⟩

theorem lastLiterals_spec {litSize : ℕ} (hlast : ∀ k < litSize - litPtr, lit (litPtr + k) = p (op + k))
    (hA : Agree m p op) (hroom : op + (litSize - litPtr) ≤ oend) :
    ∃ m', lastLiterals lit m op oend litPtr litSize = .ok (op + (litSize - litPtr), m') ∧
      Copied m p (op + (litSize - litPtr)) oend m' := by
  refine ⟨_, if_neg (by omega), hA.memcpy hlast le_rfl, fun i hi => memcpy_out _ _ (by omega)⟩

/-- The literals, where they are stored, leave the text and the room for the block. -/
theorem decodeLiteralsBlock_spec {buf : FrameBuffer} {lit : Literals} {size : ℕ} (hok : lit.isError = false)
    (hA : Agree m p op) (hlit : lit.size ≤ size) (hmax : size ≤ buf.blockSizeMax)
    (hroom : op + size ≤ buf.oend) :
    ∃ litPtr oend m', decodeLiteralsBlock buf lit m op = .ok (litPtr, oend, m') ∧
      Agree lit.bytes litPtr lit.size ∧ op + size ≤ oend ∧ oend ≤ buf.oend ∧ Copied m p op buf.oend m' := by
  rw [decodeLiteralsBlock, if_neg (by omega), if_neg (by omega)]
  have herr : ¬lit.isError = true := by
    rw [hok]
    decide
  by_cases hdst : buf.blockSizeMax + 32 + lit.size + 32 < buf.oend - op ∧ lit.inPlace = false
  · rw [if_pos hdst]
    dsimp only
    rw [if_neg herr]
    have hbytes : Agree lit.bytes (fromOffset (memcpy lit.bytes m (op + buf.blockSizeMax + 32) 0 lit.size)
        (op + buf.blockSizeMax + 32)) lit.size := fun k hk => by
      rw [fromOffset, memcpy_in _ _ (by omega) (by omega), Nat.add_sub_cancel_left, Nat.zero_add]
    have hagree := (agree_memcpy lit.bytes m 0 lit.size (show op ≤ op + buf.blockSizeMax + 32 by omega)).trans
      hA
    exact ⟨_, _, _, rfl, hbytes, by omega, by omega, hagree, fun i hi => memcpy_out _ _ (by omega)⟩
  · rw [if_neg hdst, if_neg herr]
    exact ⟨_, _, _, rfl, .refl _ _, hroom, le_rfl, hA, fun _ _ => rfl⟩

/-- After the headers, the sequences are decoded as `decodeSection` does, and the text is written. -/
theorem decompressSequences_spec {dctx dctx1 dctx' : SeqDCtx} {src : Mem} {srcSize litSize ip nbSeq : ℕ}
    {w : SeqWorkspace} {qs : List Seq} (hhead : decodeSeqHeaders dctx src srcSize w = .ok (ip, nbSeq, dctx1))
    (hdec : decodeSection dctx src srcSize w = .ok (qs, dctx')) (hcov : Covers lit p op 0 qs)
    (hle : litsOf qs ≤ litSize)
    (hlast : ∀ k < litSize - litsOf qs, lit (litsOf qs + k) = p (op + bytesOf qs + k))
    (hA : Agree m p op) (hroom : op + bytesOf qs + (litSize - litsOf qs) ≤ oend) :
    (nbSeq ≠ 0 → 0 < bytesOf qs) ∧
    ∃ m', decompressSequences dctx1 lit litSize m op oend (fromOffset src ip) (srcSize - ip) nbSeq =
        .ok (op + bytesOf qs + (litSize - litsOf qs), m', dctx') ∧
      Copied m p (op + bytesOf qs + (litSize - litsOf qs)) oend m' := by
  unfold decodeSection at hdec
  rw [hhead] at hdec
  dsimp only at hdec
  unfold decompressSequences
  by_cases h0 : nbSeq = 0
  · rw [if_pos h0] at hdec
    obtain ⟨rfl, rfl⟩ := Prod.mk.inj (Except.ok.inj hdec)
    have hlast0 : ∀ k < litSize - 0, lit (0 + k) = p (op + k) := hlast
    obtain ⟨m', hrun, h1⟩ := lastLiterals_spec hlast0 hA (show op + (litSize - 0) ≤ oend from hroom)
    rw [if_pos h0, hrun]
    exact ⟨fun h => absurd h0 h, m', rfl, h1⟩
  · rw [if_neg h0] at hdec
    cases hopen : initDStream (fromOffset src ip) (srcSize - ip) with
    | error e =>
      rw [hopen] at hdec
      cases hdec
    | ok bitD =>
      rw [hopen] at hdec
      dsimp only at hdec ⊢
      by_cases hend : (decodeLoop dctx1.tables (fromOffset src ip) nbSeq
          (initSeqState dctx1.tables (fromOffset src ip) bitD dctx1.rep)).2.dStream.endOfDStream = true
      · rw [if_pos hend] at hdec
        obtain ⟨rfl, rfl⟩ := Prod.mk.inj (Except.ok.inj hdec)
        have hlit := (Nat.zero_add _).trans_le hle
        obtain ⟨m1, hrun, h1⟩ := execLoop_spec _ _ _ _ op 0 m hcov hA (show _ ≤ oend by omega) hlit
        rw [Nat.zero_add] at hrun
        obtain ⟨m2, hrest, h2⟩ := lastLiterals_spec hlast h1.agree hroom
        refine ⟨fun _ => hcov.bytes_pos h0, m2, ?_, h1.trans h2⟩
        rw [if_neg h0, hrun]
        show (if _ then _ else _) = _
        rw [if_pos hend, hrest]
        rfl
      · rw [if_neg hend] at hdec
        cases hdec

/-- **A block**: where its sequences are decoded, the text is written, and nothing past the buffer. -/
theorem decompressBlock_spec {dctx dctx' : SeqDCtx} {buf : FrameBuffer} {lit : Literals} {src : Mem}
    {srcSize : ℕ} {w : SeqWorkspace} {qs : List Seq}
    (hdec : decodeSection dctx src srcSize w = .ok (qs, dctx')) (hok : lit.isError = false)
    (hcov : Covers lit.bytes p op 0 qs) (hle : litsOf qs ≤ lit.size)
    (hlast : ∀ k < lit.size - litsOf qs, lit.bytes (litsOf qs + k) = p (op + bytesOf qs + k))
    (hA : Agree m p op) (hsrc : lit.cSize + srcSize ≤ buf.blockSizeMax)
    (hmax : bytesOf qs + (lit.size - litsOf qs) ≤ buf.blockSizeMax)
    (hroom : op + (bytesOf qs + (lit.size - litsOf qs)) ≤ buf.oend) :
    ∃ m', decompressBlock dctx buf lit m op src srcSize w =
        .ok (op + (bytesOf qs + (lit.size - litsOf qs)), m', dctx') ∧
      Copied m p (op + (bytesOf qs + (lit.size - litsOf qs))) buf.oend m' := by
  have hlit : lit.size ≤ bytesOf qs + (lit.size - litsOf qs) := by
    have := litsOf_le_bytesOf qs
    omega
  obtain ⟨litPtr, oend, m1, hlits, hbytes, hroom1, hend, h1⟩ :=
    decodeLiteralsBlock_spec hok hA hlit hmax hroom
  rw [decompressBlock, if_neg (not_lt.mpr hsrc), hlits]
  cases hhead : decodeSeqHeaders dctx src srcSize w with
  | error e =>
    rw [decodeSection, hhead] at hdec
    cases hdec
  | ok r =>
    obtain ⟨ip, nbSeq, dctx1⟩ := r
    have hcov1 := hcov.congr (hbytes.mono ((Nat.zero_add _).trans_le hle))
    have hlast1 : ∀ k < lit.size - litsOf qs, litPtr (litsOf qs + k) = p (op + bytesOf qs + k) :=
      fun k hk => (hbytes _ (by omega)).symm.trans (hlast k hk)
    rw [← Nat.add_assoc] at hroom1
    obtain ⟨hpos, m2, hrun, h2⟩ := decompressSequences_spec hhead hdec hcov1 hle hlast1 h1.agree hroom1
    have hdst : ¬(buf.oend - op = 0 ∧ 0 < nbSeq) := fun h => by
      have := hpos h.2.ne'
      omega
    rw [← Nat.add_assoc]
    refine ⟨m2, (if_neg hdst).trans hrun, h1.trans ⟨h2.agree, fun i hi => h2.out i (hend.trans hi)⟩⟩

end Exec

end ZramUpgrade.Zstd
