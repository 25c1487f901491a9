import ZramUpgrade.Zstd.SeqTable

/-!
# Zstd.Sequences — `ZSTD_encodeSequences` and `ZSTD_decodeSequence`

Three states are coded in one stream, from the last sequence to the first: offset, match length and
literal length, each followed by the bits that its code leaves out.  The coder flushes just in time for
its register of 64 bits, and the decoder reloads just in time for its own (`SeqEncInv.encode`,
`SeqDecInv.decode`).  What is decoded is what was stored, and the decoder's repeat offsets are the
coder's (`encodeSequences_decode`).
-/

namespace ZramUpgrade.Zstd

open Lib

/-! ## The coder -/

/-- A coding table, and the codes of the sequences. -/
structure SymbolCoder where
  table : CTable
  codes : ℕ → ℕ

/-- The state of sequence `n` if it is the last. -/
def SymbolCoder.first (c : SymbolCoder) (n : ℕ) : ℕ := c.table.firstState (c.codes n)

/-- The bits from state `x` for sequence `n`. -/
def SymbolCoder.nbBits (c : SymbolCoder) (x n : ℕ) : ℕ := c.table.nbBitsOut x (c.codes n)

/-- The state from state `x` for sequence `n`. -/
def SymbolCoder.next (c : SymbolCoder) (x n : ℕ) : ℕ := c.table.nextState x (c.codes n)

/-- The locals of `ZSTD_encodeSequences_body`. -/
structure SeqEncoder where
  blockStream : CStream
  stateMatchLength : ℕ
  stateOffsetBits : ℕ
  stateLitLength : ℕ

/-- The bits of `offBase`; `STREAM_ACCUMULATOR_MIN` is 57. -/
def CStream.addOffset (longOffsets : Bool) (c : CStream) (offBase ofBits : ℕ) : CStream :=
  if longOffsets then
    let extraBits := ofBits - min ofBits (57 - 1)
    let c := if extraBits ≠ 0 then (c.addBits offBase extraBits).flushBits else c
    c.addBits (offBase >>> extraBits) (ofBits - extraBits)
  else c.addBits offBase ofBits

namespace SeqEncoder

variable (ml of ll : SymbolCoder) (sequences : ℕ → SeqDef) (longOffsets : Bool)

/-- First symbols, those of the last sequence `n`. -/
def init (n : ℕ) (c : CStream) : SeqEncoder :=
  let c := c.addBits (sequences n).litLength (llBits (ll.codes n))
  let c := c.addBits (sequences n).mlBase (mlBits (ml.codes n))
  let c := c.addOffset longOffsets (sequences n).offBase (of.codes n)
  { blockStream := c.flushBits
    stateMatchLength := ml.first n, stateOffsetBits := of.first n, stateLitLength := ll.first n }

/-- Sequence `n`. -/
def encode (n : ℕ) (e : SeqEncoder) : SeqEncoder :=
  let llBits := llBits (ll.codes n)
  let ofBits := of.codes n
  let mlBits := mlBits (ml.codes n)
  let (c, stateOffsetBits) := encodeSymbol of.table e.blockStream e.stateOffsetBits (of.codes n)
  let (c, stateMatchLength) := encodeSymbol ml.table c e.stateMatchLength (ml.codes n)
  let (c, stateLitLength) := encodeSymbol ll.table c e.stateLitLength (ll.codes n)
  -- `64-7-(LLFSELog+MLFSELog+OffFSELog)`
  let c := if 64 - 7 - (9 + 9 + 8) ≤ ofBits + mlBits + llBits then c.flushBits else c
  let c := c.addBits (sequences n).litLength llBits
  let c := c.addBits (sequences n).mlBase mlBits
  let c := if 56 < ofBits + mlBits + llBits then c.flushBits else c
  let c := c.addOffset longOffsets (sequences n).offBase ofBits
  { blockStream := c.flushBits, stateMatchLength, stateOffsetBits, stateLitLength }

/-- The sequences before `n`, from the last. -/
def loop : ℕ → SeqEncoder → SeqEncoder
  | 0, e => e
  | n + 1, e => loop n (e.encode ml of ll sequences longOffsets n)

end SeqEncoder

/-- `ZSTD_encodeSequences`: the size and the buffer. -/
def encodeSequences (dst : Mem) (dstCapacity : ℕ) (ml of ll : SymbolCoder) (sequences : ℕ → SeqDef)
    (nbSeq : ℕ) (longOffsets : Bool) : Except ErrorCode (ℕ × Mem) :=
  match initCStream dst dstCapacity with
  | .error _ => .error .dstSizeTooSmall
  | .ok c =>
    let e := SeqEncoder.init ml of ll sequences longOffsets (nbSeq - 1) c
    let e := e.loop ml of ll sequences longOffsets (nbSeq - 1)
    let c := flushCState ml.table e.blockStream e.stateMatchLength
    let c := flushCState of.table c e.stateOffsetBits
    let c := flushCState ll.table c e.stateLitLength
    let (streamSize, dst) := c.close
    if streamSize = 0 then .error .dstSizeTooSmall else .ok (streamSize, dst)

/-! ## The decoder -/

/-- `seq_t`. -/
@[ext] structure Seq where
  litLength : ℕ
  matchLength : ℕ
  offset : ℕ

/-- `seqState_t`. -/
structure SeqState where
  dStream : DStream
  stateLL : ℕ
  stateOffb : ℕ
  stateML : ℕ
  prevOffset : Reps

/-- The tables of `ZSTD_DCtx`: `LLTptr`, `OFTptr` and `MLTptr`. -/
structure SeqTables where
  ll : SeqTable
  of : SeqTable
  ml : SeqTable

/-- `ZSTD_initFseState`. -/
def initFseState (src : Mem) (dt : SeqTable) (bitD : DStream) : ℕ × DStream :=
  ((bitD.readBits dt.tableLog).1, (DStream.reload src (bitD.readBits dt.tableLog).2).2)

/-- The offset, and the offsets that may be repeated from then on. -/
def decodeOffset (ofDInfo : SeqSymbol) (ll0 : ℕ) (bitD : DStream) (prevOffset : Reps) :
    ℕ × DStream × Reps :=
  if 1 < ofDInfo.nbAdditionalBits then
    let (bits, bitD) := bitD.readBitsFast ofDInfo.nbAdditionalBits
    let offset := ofDInfo.baseValue + bits
    (offset, bitD, ⟨offset, prevOffset.r0, prevOffset.r1⟩)
  else if ofDInfo.nbAdditionalBits = 0 then
    let offset := prevOffset.get ll0
    (offset, bitD, ⟨offset, prevOffset.get (1 - ll0), prevOffset.r2⟩)
  else
    let (bit, bitD) := bitD.readBitsFast 1
    let offset := ofDInfo.baseValue + ll0 + bit
    let temp := if offset = 3 then (prevOffset.r0 + (2 ^ 64 - 1)) % 2 ^ 64 else prevOffset.get offset
    -- `temp -= !temp`
    let temp := if temp = 0 then 2 ^ 64 - 1 else temp
    (temp, bitD, ⟨temp, prevOffset.r0, if offset ≠ 1 then prevOffset.r1 else prevOffset.r2⟩)

/-- Bits that are read if there are any. -/
def DStream.readExtra (bitD : DStream) (nbBits : ℕ) : ℕ × DStream :=
  if 0 < nbBits then bitD.readBitsFast nbBits else (0, bitD)

/-- `ZSTD_updateFseStateWithDInfo`. -/
def updateFseState (dInfo : SeqSymbol) (bitD : DStream) : ℕ × DStream :=
  (dInfo.nextState + (bitD.readBits dInfo.nbBits).1, (bitD.readBits dInfo.nbBits).2)

/-- The first half of `ZSTD_decodeSequence`, with 64 bits: the sequence. -/
def decodeFields (t : SeqTables) (src : Mem) (st : SeqState) : Seq × DStream × Reps :=
  let llDInfo := t.ll.cells st.stateLL
  let mlDInfo := t.ml.cells st.stateML
  let ofDInfo := t.of.cells st.stateOffb
  let totalBits :=
    (llDInfo.nbAdditionalBits + mlDInfo.nbAdditionalBits + ofDInfo.nbAdditionalBits) % 256
  let (offset, bitD, prevOffset) :=
    decodeOffset ofDInfo (if llDInfo.baseValue = 0 then 1 else 0) st.dStream st.prevOffset
  let (mlExtra, bitD) := bitD.readExtra mlDInfo.nbAdditionalBits
  -- `STREAM_ACCUMULATOR_MIN_64-(LLFSELog+MLFSELog+OffFSELog)`
  let bitD := if 57 - (9 + 9 + 8) ≤ totalBits then (DStream.reload src bitD).2 else bitD
  let (llExtra, bitD) := bitD.readExtra llDInfo.nbAdditionalBits
  (⟨llDInfo.baseValue + llExtra, mlDInfo.baseValue + mlExtra, offset⟩, bitD, prevOffset)

/-- The second half: the states of the next sequence. -/
def updateStates (t : SeqTables) (src : Mem) (st : SeqState) (bitD : DStream) (prevOffset : Reps) :
    SeqState :=
  let (stateLL, bitD) := updateFseState (t.ll.cells st.stateLL) bitD
  let (stateML, bitD) := updateFseState (t.ml.cells st.stateML) bitD
  let (stateOffb, bitD) := updateFseState (t.of.cells st.stateOffb) bitD
  { dStream := (DStream.reload src bitD).2, stateLL, stateOffb, stateML, prevOffset }

/-- `ZSTD_decodeSequence`. -/
def decodeSequence (t : SeqTables) (src : Mem) (isLastSeq : Bool) (st : SeqState) : Seq × SeqState :=
  let (seq, bitD, prevOffset) := decodeFields t src st
  if isLastSeq then (seq, { st with dStream := bitD, prevOffset })
  else (seq, updateStates t src st bitD prevOffset)

/-- `for ( ; nbSeq ; nbSeq--)`: the sequences and the last state. -/
def decodeLoop (t : SeqTables) (src : Mem) : ℕ → SeqState → List Seq × SeqState
  | 0, st => ([], st)
  | nbSeq + 1, st =>
    let r := decodeSequence t src (nbSeq = 0) st
    let rest := decodeLoop t src nbSeq r.2
    (r.1 :: rest.1, rest.2)

/-- The start of `ZSTD_decompressSequences_body`. -/
def initSeqState (t : SeqTables) (src : Mem) (bitD : DStream) (rep : Reps) : SeqState :=
  let (stateLL, bitD) := initFseState src t.ll bitD
  let (stateOffb, bitD) := initFseState src t.of bitD
  let (stateML, bitD) := initFseState src t.ml bitD
  { dStream := bitD, stateLL, stateOffb, stateML, prevOffset := rep }

/-! ## Three states -/

section States

variable (ml of ll : SymbolCoder) (sequences : ℕ → SeqDef) (nbSeq : ℕ)

/-- The bits that the codes of sequence `n` leave out. -/
def pushExtra (n : ℕ) (b : BitStack) : BitStack :=
  ((b.push (llBits (ll.codes n)) (sequences n).litLength).push (mlBits (ml.codes n))
    (sequences n).mlBase).push (of.codes n) (sequences n).offBase

/-- What the coder has in hand over the sequences from `n` on: the states of match length, offset and
literal length, and the bits given out. -/
inductive SeqStates : ℕ → ℕ → ℕ → ℕ → BitStack → Prop where
  | last {n : ℕ} (h : n + 1 = nbSeq) :
      SeqStates n (ml.first n) (of.first n) (ll.first n) (pushExtra ml of ll sequences n .empty)
  | turn {n x y z : ℕ} {b : BitStack} (h : SeqStates (n + 1) x y z b) :
      SeqStates n (ml.next x n) (of.next y n) (ll.next z n)
        (pushExtra ml of ll sequences n
          (((b.push (of.nbBits y n) y).push (ml.nbBits x n) x).push (ll.nbBits z n) z))

end States

/-- Tables that keep in step for the codes of the sequences, which hold what the codes leave out. -/
structure SeqCoding (ml of ll : SymbolCoder) (sequences : ℕ → SeqDef) (nbSeq : ℕ) (t : SeqTables) where
  mlCounts : ℕ → Prop
  ofCounts : ℕ → Prop
  llCounts : ℕ → Prop
  mlc : Coding ml.table t.ml mlBase mlBits 9 mlCounts
  ofc : Coding of.table t.of ofBase ofBits 8 ofCounts
  llc : Coding ll.table t.ll llBase llBits 9 llCounts
  mlCode : ∀ n < nbSeq, mlCounts (ml.codes n) ∧ ml.codes n ≤ maxML
  ofCode : ∀ n < nbSeq, ofCounts (of.codes n) ∧ of.codes n ≤ maxOff
  llCode : ∀ n < nbSeq, llCounts (ll.codes n) ∧ ll.codes n ≤ maxLL

section Coder

variable {ml of ll : SymbolCoder} {sequences : ℕ → SeqDef} {nbSeq n x y z : ℕ} {t : SeqTables}
  {b : BitStack} {dst : Mem} {cap : ℕ} {c : CStream} {e : SeqEncoder} {longOffsets : Bool}

theorem SeqStates.lt (h : SeqStates ml of ll sequences nbSeq n x y z b) : n < nbSeq := by
  induction h with
  | last h => omega
  | turn _ ih => omega

/-- The states are states, whose cells are those of the codes. -/
theorem SeqStates.states (h : SeqStates ml of ll sequences nbSeq n x y z b)
    (hc : SeqCoding ml of ll sequences nbSeq t) :
    hc.mlc.State x ∧ hc.ofc.State y ∧ hc.llc.State z ∧
      (t.ml.cells (x % 2 ^ ml.table.tableLog)).Names mlBase mlBits (ml.codes n) ∧
      (t.of.cells (y % 2 ^ of.table.tableLog)).Names ofBase ofBits (of.codes n) ∧
      (t.ll.cells (z % 2 ^ ll.table.tableLog)).Names llBase llBits (ll.codes n) := by
  induction h with
  | @last n h =>
    have hm := hc.mlc.first (hc.mlCode n (by omega)).1
    have ho := hc.ofc.first (hc.ofCode n (by omega)).1
    have hl := hc.llc.first (hc.llCode n (by omega)).1
    exact ⟨hm.1, ho.1, hl.1, hm.2, ho.2, hl.2⟩
  | @turn n x y z b h ih =>
    have hn := h.lt
    have hm := hc.mlc.step (hc.mlCode n (by omega)).1 ih.1
    have ho := hc.ofc.step (hc.ofCode n (by omega)).1 ih.2.1
    have hl := hc.llc.step (hc.llCode n (by omega)).1 ih.2.2.1
    exact ⟨hm.1, ho.1, hl.1, hm.2.2.1, ho.2.2.1, hl.2.2.1⟩

/-- With 64 bits no offset is long. -/
theorem addOffset_eq (longOffsets : Bool) {offBase ofBits : ℕ} (h : ofBits ≤ 56) :
    c.addOffset longOffsets offBase ofBits = c.addBits offBase ofBits := by
  rw [CStream.addOffset, Nat.min_eq_left h, Nat.sub_self]
  cases longOffsets <;> rfl

/-- A flush that is made if `p`. -/
theorem holds_flushIf (h : c.Holds dst cap b) (p : Prop) [Decidable p] :
    (if p then c.flushBits else c).Holds dst cap b ∧
      (if p then c.flushBits else c).bitPos ≤ if p then 7 else c.bitPos := by
  split_ifs
  · exact ⟨h.flushBits, Nat.le_of_lt_succ c.flushBits_pos⟩
  · exact ⟨h, le_rfl⟩

/-- The coder has done the sequences from `n` on. -/
structure SeqEncInv (ml of ll : SymbolCoder) (sequences : ℕ → SeqDef) (nbSeq : ℕ) (dst : Mem) (cap n : ℕ)
    (e : SeqEncoder) (b : BitStack) : Prop where
  states : SeqStates ml of ll sequences nbSeq n e.stateMatchLength e.stateOffsetBits e.stateLitLength b
  holds : e.blockStream.Holds dst cap b
  pos : e.blockStream.bitPos < 8

/-- **The last sequence** fits an empty register. -/
theorem SeqEncInv.init (longOffsets : Bool) (hc : SeqCoding ml of ll sequences nbSeq t) (hn : n + 1 = nbSeq)
    (h : c.Holds dst cap .empty) (hpos : c.bitPos = 0) :
    ∃ b, SeqEncInv ml of ll sequences nbSeq dst cap n
      (SeqEncoder.init ml of ll sequences longOffsets n c) b := by
  have hl := llBits_le (hc.llCode n (by omega)).2
  have hm := mlBits_le (hc.mlCode n (by omega)).2
  have ho := (hc.ofCode n (by omega)).2
  unfold maxOff at ho
  have h1 := h.addBits ((sequences n).litLength) (llBits (ll.codes n)) (by omega)
  have h2 := h1.addBits ((sequences n).mlBase) (mlBits (ml.codes n))
    (by show c.bitPos + _ + _ < 64; omega)
  have h3 := h2.addBits ((sequences n).offBase) (of.codes n)
    (by show c.bitPos + _ + _ + _ < 64; omega)
  rw [← addOffset_eq longOffsets (by omega)] at h3
  exact ⟨_, .last hn, h3.flushBits, CStream.flushBits_pos _⟩

/-- **A sequence** fits the register with the flushes there are. -/
theorem SeqEncInv.encode (h : SeqEncInv ml of ll sequences nbSeq dst cap (n + 1) e b) (longOffsets : Bool)
    (hc : SeqCoding ml of ll sequences nbSeq t) :
    ∃ b', SeqEncInv ml of ll sequences nbSeq dst cap n
      (e.encode ml of ll sequences longOffsets n) b' := by
  have hn := h.states.lt
  have hpos := h.pos
  obtain ⟨hx, hy, hz, -, -, -⟩ := h.states.states hc
  have hl := llBits_le (hc.llCode n (by omega)).2
  have hm := mlBits_le (hc.mlCode n (by omega)).2
  have ho := (hc.ofCode n (by omega)).2
  unfold maxOff at ho
  -- what the states give out
  have hnbm := (hc.mlc.step (hc.mlCode n (by omega)).1 hx).2.1
  have hnbo := (hc.ofc.step (hc.ofCode n (by omega)).1 hy).2.1
  have hnbl := (hc.llc.step (hc.llCode n (by omega)).1 hz).2.1
  have hlogm := hc.mlc.log_le
  have hlogo := hc.ofc.log_le
  have hlogl := hc.llc.log_le
  have h1 := h.holds.addBits e.stateOffsetBits
    (of.table.nbBitsOut e.stateOffsetBits (of.codes n)) (by omega)
  have h2 := h1.addBits e.stateMatchLength
    (ml.table.nbBitsOut e.stateMatchLength (ml.codes n))
    (by show e.blockStream.bitPos + _ + _ < 64; omega)
  have h3 := h2.addBits e.stateLitLength
    (ll.table.nbBitsOut e.stateLitLength (ll.codes n))
    (by show e.blockStream.bitPos + _ + _ + _ < 64; omega)
  obtain ⟨h4, hp4⟩ := holds_flushIf h3
    (64 - 7 - (9 + 9 + 8) ≤ of.codes n + mlBits (ml.codes n) + llBits (ll.codes n))
  have hp3 : (((e.blockStream.addBits e.stateOffsetBits
      (of.table.nbBitsOut e.stateOffsetBits (of.codes n))).addBits e.stateMatchLength
      (ml.table.nbBitsOut e.stateMatchLength (ml.codes n))).addBits e.stateLitLength
      (ll.table.nbBitsOut e.stateLitLength (ll.codes n))).bitPos ≤ 33 := by
    show e.blockStream.bitPos + _ + _ + _ ≤ 33
    omega
  generalize hc4 : (if 64 - 7 - (9 + 9 + 8) ≤ of.codes n + mlBits (ml.codes n) + llBits (ll.codes n)
    then _ else _ : CStream) = c4 at h4 hp4
  have hp4 : c4.bitPos + llBits (ll.codes n) + mlBits (ml.codes n) < 64 ∧
      (of.codes n + mlBits (ml.codes n) + llBits (ll.codes n) ≤ 56 →
        c4.bitPos + llBits (ll.codes n) + mlBits (ml.codes n) + of.codes n < 64) := by
    split_ifs at hp4 <;> omega
  have h5 := h4.addBits ((sequences n).litLength) (llBits (ll.codes n)) (by omega)
  have h6 := h5.addBits ((sequences n).mlBase) (mlBits (ml.codes n))
    (by show c4.bitPos + _ + _ < 64; omega)
  obtain ⟨h7, hp7⟩ := holds_flushIf h6 (56 < of.codes n + mlBits (ml.codes n) + llBits (ll.codes n))
  have hp6 : ((c4.addBits (sequences n).litLength (llBits (ll.codes n))).addBits (sequences n).mlBase
      (mlBits (ml.codes n))).bitPos = c4.bitPos + llBits (ll.codes n) + mlBits (ml.codes n) := rfl
  generalize hc7 : (if 56 < of.codes n + mlBits (ml.codes n) + llBits (ll.codes n)
    then _ else _ : CStream) = c7 at h7 hp7
  have hp7 : c7.bitPos + of.codes n < 64 := by
    split_ifs at hp7 <;> omega
  have h8 := h7.addBits ((sequences n).offBase) (of.codes n) hp7
  rw [← addOffset_eq longOffsets (by omega)] at h8
  refine ⟨_, .turn h.states, ?_, CStream.flushBits_pos _⟩
  show ((_ : CStream).addOffset _ _ _).flushBits.Holds dst cap _
  rw [hc4, hc7]
  exact h8.flushBits

/-- **The loop of the coder** codes every sequence. -/
theorem SeqEncInv.loop (longOffsets : Bool) (hc : SeqCoding ml of ll sequences nbSeq t) :
    ∀ {n : ℕ} {e : SeqEncoder} {b : BitStack}, SeqEncInv ml of ll sequences nbSeq dst cap n e b →
      ∃ b', SeqEncInv ml of ll sequences nbSeq dst cap 0 (e.loop ml of ll sequences longOffsets n) b' := by
  intro n
  induction n with
  | zero => exact fun h => ⟨_, h⟩
  | succ n ih =>
    intro e b h
    obtain ⟨b', h'⟩ := h.encode longOffsets hc
    exact ih h'

end Coder

/-! ## What a sequence stands for -/

/-- The offset, once repeat codes are resolved, and the lengths. -/
def Sequence.resolve (q : Sequence) (rep : Reps) : Reps := rep.update q.offBase (if q.litLength = 0 then 1 else 0)

/-- The sequences with their offsets, and the repeat offsets after them. -/
def resolveAll : Reps → List Sequence → List Seq × Reps
  | rep, [] => ([], rep)
  | rep, q :: qs =>
    (⟨q.litLength, q.matchLength, (q.resolve rep).r0⟩ :: (resolveAll (q.resolve rep) qs).1,
      (resolveAll (q.resolve rep) qs).2)

/-- Repeat offsets are not 0. -/
structure Reps.Valid (rep : Reps) : Prop where
  pos : 0 < rep.r0 ∧ 0 < rep.r1 ∧ 0 < rep.r2
  lt : rep.r0 < 2 ^ 32 ∧ rep.r1 < 2 ^ 32 ∧ rep.r2 < 2 ^ 32

/-- No repeat code stands for an offset of 0. -/
def Resolves : Reps → List Sequence → Prop
  | _, [] => True
  | rep, q :: qs => (q.resolve rep).r0 ≠ 0 ∧ Resolves (q.resolve rep) qs

section Offsets

variable {rep : Reps} {offBase ll0 : ℕ}

theorem Reps.Valid.update (h : rep.Valid) (hoff : offBase < 2 ^ 32)
    (hne : (rep.update offBase ll0).r0 ≠ 0) : (rep.update offBase ll0).Valid := by
  obtain ⟨⟨p0, p1, p2⟩, ⟨l0, l1, l2⟩⟩ := h
  have hget : ∀ k, rep.get k < 2 ^ 32 := fun k => by
    unfold Reps.get
    split <;> assumption
  unfold Reps.update at hne ⊢
  dsimp only at hne ⊢
  split_ifs at hne ⊢ with h3 hpos hthree hge
  · exact ⟨⟨Nat.pos_of_ne_zero hne, p0, p1⟩, ⟨by dsimp only; omega, l0, l1⟩⟩
  · exact ⟨⟨Nat.pos_of_ne_zero hne, p0, p1⟩, ⟨Nat.mod_lt _ (by decide), l0, l1⟩⟩
  · exact ⟨⟨Nat.pos_of_ne_zero hne, p0, p2⟩, ⟨Nat.mod_lt _ (by decide), l0, l2⟩⟩
  · exact ⟨⟨Nat.pos_of_ne_zero hne, p0, p1⟩, ⟨hget _, l0, l1⟩⟩
  · exact ⟨⟨Nat.pos_of_ne_zero hne, p0, p2⟩, ⟨hget _, l0, l2⟩⟩
  · exact ⟨⟨p0, p1, p2⟩, ⟨l0, l1, l2⟩⟩

end Offsets

section Decoder

variable {src : Mem} {srcSize p k n : ℕ} {d : DStream} {b : BitStack}

/-- **Extra bits** are the field on top. -/
theorem readExtra_spec {v : ℕ} (h : d.Holds src srcSize (b.push n v) p) (hr : d.Ready (b.push n v) k)
    (hn : n ≤ k) :
    (d.readExtra n).1 = v % 2 ^ n ∧ (d.readExtra n).2.Holds src srcSize b p ∧
      (d.readExtra n).2.Ready b (k - n) := by
  have hb : n ≤ (b.push n v).len := by
    rw [BitStack.push_len]
    exact Nat.le_add_left _ _
  unfold DStream.readExtra
  split_ifs with h0
  · obtain ⟨hv, hh, hr'⟩ := h.readBits hr hn hb
    rw [h.readBitsFast hr hn hb h0]
    rw [BitStack.top_push] at hv
    rw [BitStack.pop_push] at hh hr'
    exact ⟨hv, hh, hr'⟩
  · obtain rfl : n = 0 := by omega
    rw [BitStack.push_zero] at h hr
    exact ⟨by rw [Nat.pow_zero, Nat.mod_one], h, hr⟩

/-- **The decoder's repeat offsets** are the coder's. -/
theorem decodeOffset_spec (ll0 : ℕ) {rep : Reps} {offBase : ℕ} {cell : SeqSymbol}
    (hcell : cell.Names ofBase ofBits (highbit32 offBase))
    (h : d.Holds src srcSize (b.push (highbit32 offBase) offBase) p)
    (hr : d.Ready (b.push (highbit32 offBase) offBase) k) (hk : 31 ≤ k) (hrep : rep.Valid)
    (h0 : 0 < offBase) (hoff : offBase < 2 ^ 32) (hll : ll0 ≤ 1)
    (hne : (rep.update offBase ll0).r0 ≠ 0) :
    ∃ d', decodeOffset cell ll0 d rep = ((rep.update offBase ll0).r0, d', rep.update offBase ll0) ∧
      d'.Holds src srcSize b p ∧ d'.Ready b (k - highbit32 offBase) := by
  obtain ⟨hbase, hbits⟩ := hcell
  have hcode : highbit32 offBase < 32 := (Nat.log2_lt (by omega)).mpr hoff
  have hsplit := offBase_split (show offBase ≠ 0 by omega)
  obtain ⟨hv, hh, hr'⟩ := readExtra_spec h hr (by omega)
  unfold ofBits at hbits
  unfold decodeOffset
  rw [hbase, hbits]
  by_cases h2 : 1 < highbit32 offBase
  · -- an offset
    have hof := ofBase_spec (k := highbit32 offBase) h2 (by unfold maxOff; omega)
    have hbig : 2 ^ 2 ≤ 2 ^ highbit32 offBase := Nat.pow_le_pow_right (by decide) h2
    have hupd : rep.update offBase ll0 = ⟨offBase - 3, rep.r0, rep.r1⟩ := by
      rw [Reps.update, if_pos (by omega)]
    unfold DStream.readExtra at hv hh hr'
    rw [if_pos (by omega)] at hv hh hr'
    rw [if_pos h2, hupd]
    dsimp only
    rw [hv, show ofBase (highbit32 offBase) + offBase % 2 ^ highbit32 offBase = offBase - 3 by omega]
    exact ⟨_, rfl, hh, hr'⟩
  · rw [if_neg h2]
    by_cases hz : highbit32 offBase = 0
    · -- the first repeat code
      obtain rfl : offBase = 1 := by
        rw [hz, Nat.pow_zero, Nat.mod_one] at hsplit
        omega
      unfold DStream.readExtra at hh hr'
      rw [hz, if_neg (by omega)] at hh hr'
      rw [hz, if_pos rfl]
      dsimp only
      obtain rfl | rfl : ll0 = 0 ∨ ll0 = 1 := by omega
      · exact ⟨_, rfl, hh, hr'⟩
      · exact ⟨_, rfl, hh, hr'⟩
    · -- the other two
      have h1 : highbit32 offBase = 1 := by omega
      rw [h1] at hsplit
      unfold DStream.readExtra at hv hh hr'
      rw [h1, if_pos (by omega)] at hv hh hr'
      rw [h1, if_neg (by decide)]
      dsimp only
      rw [hv]
      have hidx : ofBase 1 + ll0 + offBase % 2 ^ 1 = offBase - 1 + ll0 := by
        rw [show ofBase 1 = 1 from rfl]
        omega
      have hupd : rep.update offBase ll0 =
          ⟨if offBase - 1 + ll0 = 3 then (rep.r0 + (2 ^ 32 - 1)) % 2 ^ 32 else rep.get (offBase - 1 + ll0),
            rep.r0, if 2 ≤ offBase - 1 + ll0 then rep.r1 else rep.r2⟩ := by
        rw [Reps.update, if_neg (by omega)]
        dsimp only
        rw [if_pos (by omega)]
      obtain ⟨⟨p0, -, -⟩, ⟨l0, -, -⟩⟩ := hrep
      have htemp : (if offBase - 1 + ll0 = 3 then (rep.r0 + (2 ^ 64 - 1)) % 2 ^ 64
            else rep.get (offBase - 1 + ll0)) = (rep.update offBase ll0).r0 := by
        rw [hupd]
        dsimp only
        split_ifs
        · omega
        · rfl
      rw [hidx, htemp, if_neg hne]
      refine ⟨_, Prod.ext rfl (Prod.ext rfl ?_), hh, hr'⟩
      dsimp only
      rw [hupd]
      dsimp only
      rw [Reps.mk.injEq]
      refine ⟨rfl, rfl, ?_⟩
      split_ifs <;> first | rfl | omega

/-- What the codes of sequence `n` and the bits they leave out say. -/
structure Says (ml of ll : SymbolCoder) (sequences : ℕ → SeqDef) (n : ℕ) (q : Sequence) : Prop where
  litLength : llBase (ll.codes n) + (sequences n).litLength % 2 ^ llBits (ll.codes n) = q.litLength
  matchLength : mlBase (ml.codes n) + (sequences n).mlBase % 2 ^ mlBits (ml.codes n) = q.matchLength
  offBase : (sequences n).offBase = q.offBase
  ofCode : of.codes n = highbit32 q.offBase
  pos : 0 < q.offBase
  lt : q.offBase < 2 ^ 32

/-- Only the code of an empty run of literals has the base 0. -/
theorem Says.ll0 {ml of ll : SymbolCoder} {sequences : ℕ → SeqDef} {q : Sequence}
    (h : Says ml of ll sequences n q) (hle : ll.codes n ≤ maxLL) :
    llBase (ll.codes n) = 0 ↔ q.litLength = 0 := by
  have hlit := h.litLength
  have hbase : ∀ c ≤ maxLL, llBase c = 0 → llBits c = 0 := by decide
  constructor
  · intro h0
    rw [h0, hbase _ hle h0, Nat.pow_zero, Nat.mod_one] at hlit
    omega
  · omega

variable {ml of ll : SymbolCoder} {sequences : ℕ → SeqDef} {nbSeq x y z : ℕ} {t : SeqTables}
  {st : SeqState} {q : Sequence}

/-- The decoder is at sequence `n`. -/
structure SeqDecInv (ml of ll : SymbolCoder) (sequences : ℕ → SeqDef) (nbSeq : ℕ) (src : Mem)
    (srcSize n : ℕ) (st : SeqState) : Prop where
  states : ∃ x y z b, SeqStates ml of ll sequences nbSeq n x y z b ∧
    st.stateML = x % 2 ^ ml.table.tableLog ∧ st.stateOffb = y % 2 ^ of.table.tableLog ∧
    st.stateLL = z % 2 ^ ll.table.tableLog ∧ (∃ p, st.dStream.Holds src srcSize b p) ∧
    st.dStream.Ready b 57
  rep : st.prevOffset.Valid

/-- **The fields of a sequence** are read in time, and leave what the states need. -/
theorem decodeFields_spec (hc : SeqCoding ml of ll sequences nbSeq t) (hn : n < nbSeq)
    (hq : Says ml of ll sequences n q)
    (hml : (t.ml.cells st.stateML).Names mlBase mlBits (ml.codes n))
    (hof : (t.of.cells st.stateOffb).Names ofBase ofBits (of.codes n))
    (hll : (t.ll.cells st.stateLL).Names llBase llBits (ll.codes n))
    (h : st.dStream.Holds src srcSize (pushExtra ml of ll sequences n b) p)
    (hr : st.dStream.Ready (pushExtra ml of ll sequences n b) 57) (hrep : st.prevOffset.Valid)
    (hne : (q.resolve st.prevOffset).r0 ≠ 0) :
    ∃ d' p', decodeFields t src st = (⟨q.litLength, q.matchLength, (q.resolve st.prevOffset).r0⟩, d',
        q.resolve st.prevOffset) ∧ d'.Holds src srcSize b p' ∧ d'.Ready b 26 := by
  have hlb := llBits_le (hc.llCode n hn).2
  have hmb := mlBits_le (hc.mlCode n hn).2
  have hob : highbit32 q.offBase < 32 := (Nat.log2_lt (by have := hq.pos; omega)).mpr hq.lt
  have hll0 := hq.ll0 (hc.llCode n hn).2
  unfold pushExtra at h hr
  rw [hq.offBase, hq.ofCode] at h hr
  rw [hq.ofCode] at hof
  -- the offset
  obtain ⟨d1, hoffset, h1, hr1⟩ := decodeOffset_spec (if q.litLength = 0 then 1 else 0) hof h hr
    (by omega) hrep hq.pos hq.lt (by split_ifs <;> omega) hne
  -- the match length
  obtain ⟨hv2, h2, hr2⟩ := readExtra_spec h1 hr1 (by omega)
  -- a reload, if the three are long
  obtain ⟨p3, h3, hr3⟩ : ∃ p3, (if 57 - (9 + 9 + 8) ≤
        (llBits (ll.codes n) + mlBits (ml.codes n) + highbit32 q.offBase) % 256
        then (DStream.reload src (d1.readExtra (mlBits (ml.codes n))).2).2
        else (d1.readExtra (mlBits (ml.codes n))).2).Holds src srcSize
          (b.push (llBits (ll.codes n)) (sequences n).litLength) p3 ∧
      (if 57 - (9 + 9 + 8) ≤ (llBits (ll.codes n) + mlBits (ml.codes n) + highbit32 q.offBase) % 256
        then (DStream.reload src (d1.readExtra (mlBits (ml.codes n))).2).2
        else (d1.readExtra (mlBits (ml.codes n))).2).Ready
          (b.push (llBits (ll.codes n)) (sequences n).litLength) (26 + llBits (ll.codes n)) := by
    split_ifs with hlong
    · obtain ⟨⟨p3, h3⟩, hr3, -, -⟩ := h2.reload
      refine ⟨p3, h3, ?_⟩
      unfold DStream.Ready at hr3 ⊢
      omega
    · refine ⟨p, h2, ?_⟩
      unfold DStream.Ready at hr2 ⊢
      omega
  obtain ⟨hv4, h4, hr4⟩ := readExtra_spec h3 hr3 (by omega)
  rw [Nat.add_sub_cancel] at hr4
  refine ⟨_, p3, ?_, h4, hr4⟩
  unfold decodeFields
  dsimp only
  rw [hll.1, hll.2, hml.1, hml.2, hof.2]
  simp only [hll0]
  rw [hoffset]
  dsimp only
  unfold ofBits
  rw [hv2, hv4, hq.litLength, hq.matchLength]
  rfl

/-- A state of the next sequence is its state of the coder. -/
theorem updateFseState_spec {ct : CTable} {dt : SeqTable} {base add : ℕ → ℕ} {maxLog code x y : ℕ}
    {Counts : ℕ → Prop} (hc : Coding ct dt base add maxLog Counts) (hcode : Counts code)
    (hx : hc.State x) (hy : y = ct.nextState x code % 2 ^ ct.tableLog)
    (h : d.Holds src srcSize (b.push (ct.nbBitsOut x code) x) p)
    (hr : d.Ready (b.push (ct.nbBitsOut x code) x) k) (hk : maxLog ≤ k) :
    (updateFseState (dt.cells y) d).1 = x % 2 ^ ct.tableLog ∧
      (updateFseState (dt.cells y) d).2.Holds src srcSize b p ∧
      (updateFseState (dt.cells y) d).2.Ready b (k - maxLog) := by
  obtain ⟨-, hle, -, hnb, hback⟩ := hc.step hcode hx
  have hlog := hc.log_le
  rw [← hy] at hnb hback
  obtain ⟨hv, hh, hr'⟩ := h.readBits (n := ct.nbBitsOut x code) hr (by omega)
    (by rw [BitStack.push_len]; exact Nat.le_add_left _ _)
  rw [BitStack.top_push] at hv
  rw [BitStack.pop_push] at hh hr'
  unfold updateFseState
  rw [hnb, hv]
  refine ⟨hback, hh, ?_⟩
  unfold DStream.Ready at hr' ⊢
  dsimp only
  omega

/-- **A sequence** is decoded for what it stands for, and the decoder is at the next. -/
theorem SeqDecInv.decode (h : SeqDecInv ml of ll sequences nbSeq src srcSize n st)
    (hc : SeqCoding ml of ll sequences nbSeq t) (hq : Says ml of ll sequences n q)
    (hne : (q.resolve st.prevOffset).r0 ≠ 0) (hn : n + 1 < nbSeq) :
    (decodeSequence t src false st).1 = ⟨q.litLength, q.matchLength, (q.resolve st.prevOffset).r0⟩ ∧
      SeqDecInv ml of ll sequences nbSeq src srcSize (n + 1) (decodeSequence t src false st).2 ∧
      (decodeSequence t src false st).2.prevOffset = q.resolve st.prevOffset := by
  obtain ⟨x, y, z, b, hst, hx, hy, hz, ⟨p, hh⟩, hr⟩ := h.states
  obtain ⟨-, -, -, hml, hof, hll⟩ := hst.states hc
  rw [← hx] at hml
  rw [← hy] at hof
  rw [← hz] at hll
  cases hst with
  | last hlast => omega
  | @turn _ x y z b hst =>
    obtain ⟨hsx, hsy, hsz, -, -, -⟩ := hst.states hc
    obtain ⟨d1, p1, hfields, h1, hr1⟩ := decodeFields_spec hc (by omega) hq hml hof hll hh hr h.rep hne
    obtain ⟨hv2, h2, hr2⟩ := updateFseState_spec hc.llc (hc.llCode n (by omega)).1 hsz hz h1 hr1 (by omega)
    obtain ⟨hv3, h3, hr3⟩ := updateFseState_spec hc.mlc (hc.mlCode n (by omega)).1 hsx hx h2 hr2 (by omega)
    obtain ⟨hv4, h4, hr4⟩ := updateFseState_spec hc.ofc (hc.ofCode n (by omega)).1 hsy hy h3 hr3 (by omega)
    obtain ⟨h5, hr5, -, -⟩ := h4.reload
    rw [decodeSequence, hfields]
    exact ⟨rfl, ⟨⟨x, y, z, b, hst, hv3, hv4, hv2, h5, hr5⟩,
      h.rep.update hq.lt hne⟩, rfl⟩

/-- **The last sequence** ends the stream. -/
theorem SeqDecInv.last (h : SeqDecInv ml of ll sequences nbSeq src srcSize n st)
    (hc : SeqCoding ml of ll sequences nbSeq t) (hq : Says ml of ll sequences n q)
    (hne : (q.resolve st.prevOffset).r0 ≠ 0) (hn : n + 1 = nbSeq) :
    (decodeSequence t src true st).1 = ⟨q.litLength, q.matchLength, (q.resolve st.prevOffset).r0⟩ ∧
      (decodeSequence t src true st).2.dStream.endOfDStream = true ∧
      (decodeSequence t src true st).2.prevOffset = q.resolve st.prevOffset := by
  obtain ⟨x, y, z, b, hst, hx, hy, hz, ⟨p, hh⟩, hr⟩ := h.states
  obtain ⟨-, -, -, hml, hof, hll⟩ := hst.states hc
  rw [← hx] at hml
  rw [← hy] at hof
  rw [← hz] at hll
  cases hst with
  | turn hst =>
    have := hst.lt
    omega
  | last hlast =>
    obtain ⟨d1, p1, hfields, h1, -⟩ := decodeFields_spec hc (by omega) hq hml hof hll hh hr h.rep hne
    rw [decodeSequence, hfields]
    exact ⟨rfl, h1.end_iff.mpr rfl, rfl⟩

/-- **The loop of the decoder** decodes the sequences from `n` on, and ends the stream. -/
theorem SeqDecInv.loop (hc : SeqCoding ml of ll sequences nbSeq t) {qs : ℕ → Sequence}
    (hq : ∀ n < nbSeq, Says ml of ll sequences n (qs n)) (m : ℕ) :
    ∀ {n : ℕ} {st : SeqState}, n + m + 1 = nbSeq →
      SeqDecInv ml of ll sequences nbSeq src srcSize n st →
      Resolves st.prevOffset ((List.range' n (m + 1)).map qs) →
      (decodeLoop t src (m + 1) st).1 = (resolveAll st.prevOffset ((List.range' n (m + 1)).map qs)).1 ∧
        (decodeLoop t src (m + 1) st).2.dStream.endOfDStream = true ∧
        (decodeLoop t src (m + 1) st).2.prevOffset =
          (resolveAll st.prevOffset ((List.range' n (m + 1)).map qs)).2 := by
  induction m with
  | zero =>
    intro n st hn h hres
    obtain ⟨hseq, hend, hrep⟩ := h.last hc (hq n (by omega)) hres.1 (by omega)
    rw [decodeLoop, decodeLoop]
    refine ⟨?_, hend, hrep⟩
    show [(decodeSequence t src true st).1] = _
    rw [hseq]
    rfl
  | succ m ih =>
    intro n st hn h hres
    rw [List.range'_succ, List.map_cons] at hres ⊢
    obtain ⟨hseq, hnext, hrep⟩ := h.decode hc (hq n (by omega)) hres.1 (by omega)
    obtain ⟨hrest, hend, hlast⟩ := ih (n := n + 1) (by omega) hnext (by rw [hrep]; exact hres.2)
    rw [hrep] at hrest hlast
    rw [decodeLoop, show decide (m + 1 = 0) = false from rfl]
    dsimp only
    rw [resolveAll]
    exact ⟨by rw [hseq, hrest], hend, hlast⟩

end Decoder

/-! ## The round trip -/

/-- **Sequences are coded in the room there is, or not at all; what is coded is decoded.**  Over tables
that keep in step and codes that say the lengths, the decoder gives the sequences with their offsets
and ends at the end of the stream, with the coder's repeat offsets; no repeat code may stand for 0. -/
theorem encodeSequences_decode {ml of ll : SymbolCoder} {sequences : ℕ → SeqDef} {m : ℕ} {t : SeqTables}
    (hc : SeqCoding ml of ll sequences (m + 1) t) {qs : ℕ → Sequence}
    (hq : ∀ n < m + 1, Says ml of ll sequences n (qs n)) (dst : Mem) (cap : ℕ) (longOffsets : Bool) :
    encodeSequences dst cap ml of ll sequences (m + 1) longOffsets = .error .dstSizeTooSmall ∨
    ∃ size out, encodeSequences dst cap ml of ll sequences (m + 1) longOffsets = .ok (size, out) ∧
      size ≤ cap ∧ (∀ j, cap ≤ j → out j = dst j) ∧
      ∀ (src : Mem) (rep : Reps), Agree src out size → rep.Valid →
        Resolves rep ((List.range (m + 1)).map qs) →
        ∃ bitD, initDStream src size = .ok bitD ∧
          (decodeLoop t src (m + 1) (initSeqState t src bitD rep)).1 =
            (resolveAll rep ((List.range (m + 1)).map qs)).1 ∧
          (decodeLoop t src (m + 1) (initSeqState t src bitD rep)).2.dStream.endOfDStream = true ∧
          (decodeLoop t src (m + 1) (initSeqState t src bitD rep)).2.prevOffset =
            (resolveAll rep ((List.range (m + 1)).map qs)).2 := by
  by_cases hcap : 8 < cap
  swap
  · left
    rw [encodeSequences, initCStream, if_pos (by omega)]
  obtain ⟨c, hinit, hc0, hpos0⟩ := CStream.init_holds dst hcap
  obtain ⟨b0, hinv0⟩ := SeqEncInv.init longOffsets (n := m) hc rfl hc0 hpos0
  obtain ⟨b, hinv⟩ := SeqEncInv.loop longOffsets hc hinv0
  set e := (SeqEncoder.init ml of ll sequences longOffsets m c).loop ml of ll sequences longOffsets m
  have hlogm := hc.mlc.log_le
  have hlogo := hc.ofc.log_le
  have hlogl := hc.llc.log_le
  have hpos := hinv.pos
  -- the states are flushed
  have h1 := (hinv.holds.addBits e.stateMatchLength ml.table.tableLog
    (by omega)).flushBits
  have h2 := (h1.addBits e.stateOffsetBits of.table.tableLog
    (by have := CStream.flushBits_pos (e.blockStream.addBits e.stateMatchLength ml.table.tableLog)
        omega)).flushBits
  have h3 := (h2.addBits e.stateLitLength ll.table.tableLog
    (by have := CStream.flushBits_pos (CStream.addBits (CStream.flushBits (e.blockStream.addBits
          e.stateMatchLength ml.table.tableLog)) e.stateOffsetBits of.table.tableLog)
        omega)).flushBits
  obtain ⟨hsize, hval, hkept⟩ := h3.close (by
    have := CStream.flushBits_pos (CStream.addBits (CStream.flushBits (CStream.addBits
      (CStream.flushBits (e.blockStream.addBits e.stateMatchLength ml.table.tableLog))
      e.stateOffsetBits of.table.tableLog)) e.stateLitLength ll.table.tableLog)
    omega)
  have hrun : encodeSequences dst cap ml of ll sequences (m + 1) longOffsets =
      if (flushCState ll.table (flushCState of.table (flushCState ml.table e.blockStream
          e.stateMatchLength) e.stateOffsetBits) e.stateLitLength).close.1 = 0
      then .error .dstSizeTooSmall
      else .ok (flushCState ll.table (flushCState of.table (flushCState ml.table e.blockStream
        e.stateMatchLength) e.stateOffsetBits) e.stateLitLength).close := by
    rw [encodeSequences, hinit]
    rfl
  rw [hrun]
  by_cases hfit : (flushCState ll.table (flushCState of.table (flushCState ml.table e.blockStream
    e.stateMatchLength) e.stateOffsetBits) e.stateLitLength).close.1 = 0
  · exact .inl (if_pos hfit)
  right
  unfold flushCState at hfit ⊢
  rw [if_neg hfit]
  set w := (CStream.flushBits (CStream.addBits (CStream.flushBits (CStream.addBits
    (CStream.flushBits (e.blockStream.addBits e.stateMatchLength ml.table.tableLog))
    e.stateOffsetBits of.table.tableLog)) e.stateLitLength ll.table.tableLog)).close with hw
  set bs := ((b.push ml.table.tableLog e.stateMatchLength).push of.table.tableLog
    e.stateOffsetBits).push ll.table.tableLog e.stateLitLength with hbs
  have hsz : w.1 = bs.len / 8 + 1 ∧ (bs.len + 1) / 8 + 8 < cap := by
    rw [hsize] at hfit ⊢
    split_ifs at hfit ⊢ with hroom
    · exact ⟨rfl, hroom⟩
    · exact absurd rfl hfit
  refine ⟨w.1, w.2, rfl, by omega, hkept, fun src rep hagree hrep hres => ?_⟩
  have hbytes : leValue src 0 w.1 = leValue w.2 0 w.1 :=
    leValue_congr fun k hk => by rw [Nat.zero_add]; exact hagree k hk
  obtain ⟨hmark, hstack⟩ := DStream.stackOf_mark hsz.1 (hbytes.trans (hval hfit))
  obtain ⟨bitD, p, hopen, hh, hr⟩ := DStream.init_holds (by omega) hmark
  rw [hstack] at hh hr
  -- the states are read off the top
  obtain ⟨hv1, hh1, -⟩ := hh.readBits (n := ll.table.tableLog) hr (by omega)
    (by rw [hbs, BitStack.push_len]; exact Nat.le_add_left _ _)
  rw [hbs, BitStack.top_push] at hv1
  rw [hbs, BitStack.pop_push] at hh1
  obtain ⟨⟨p1, hh1⟩, hr1, -, -⟩ := hh1.reload
  obtain ⟨hv2, hh2, -⟩ := hh1.readBits (n := of.table.tableLog) hr1 (by omega)
    (by rw [BitStack.push_len]; exact Nat.le_add_left _ _)
  rw [BitStack.top_push] at hv2
  rw [BitStack.pop_push] at hh2
  obtain ⟨⟨p2, hh2⟩, hr2, -, -⟩ := hh2.reload
  obtain ⟨hv3, hh3, -⟩ := hh2.readBits (n := ml.table.tableLog) hr2 (by omega)
    (by rw [BitStack.push_len]; exact Nat.le_add_left _ _)
  rw [BitStack.top_push] at hv3
  rw [BitStack.pop_push] at hh3
  obtain ⟨⟨p3, hh3⟩, hr3, -, -⟩ := hh3.reload
  have hstate : initSeqState t src bitD rep =
      { dStream := (DStream.reload src ((DStream.reload src ((DStream.reload src
          (bitD.readBits ll.table.tableLog).2).2.readBits of.table.tableLog).2).2.readBits
            ml.table.tableLog).2).2
        stateLL := e.stateLitLength % 2 ^ ll.table.tableLog
        stateOffb := e.stateOffsetBits % 2 ^ of.table.tableLog
        stateML := e.stateMatchLength % 2 ^ ml.table.tableLog, prevOffset := rep } := by
    unfold initSeqState initFseState
    dsimp only
    rw [hc.llc.log_eq, hc.ofc.log_eq, hc.mlc.log_eq, hv1, hv2, hv3]
  have hdec : SeqDecInv ml of ll sequences (m + 1) src w.1 0 (initSeqState t src bitD rep) := by
    rw [hstate]
    exact ⟨⟨_, _, _, b, hinv.states, rfl, rfl, rfl, ⟨p3, hh3⟩, hr3⟩, hrep⟩
  have hrep0 : (initSeqState t src bitD rep).prevOffset = rep := by rw [hstate]
  rw [List.range_eq_range'] at hres ⊢
  have hloop := hdec.loop hc hq m (by omega) (by rw [hrep0]; exact hres)
  rw [hrep0] at hloop
  exact ⟨bitD, hopen, hloop⟩

end ZramUpgrade.Zstd
