import ZramUpgrade.Zstd.SeqExec

/-!
# Zstd.Frame — the blocks of a frame

A block is sent as it is, as one byte and a count, or as literals and a section of sequences.  Over any
run of blocks that tell a text, in whatever way each is sent, the decoder writes the text and nothing past
its buffer (`frame_roundTrip`).  Over any run of blocks at all, what it writes is in the buffer, up to the
block that fails if one does (`decompressFrame_inside`).  Block headers and how the section of the literals
is read are left out.
-/

namespace ZramUpgrade.Zstd

open Lib

/-! ## The coder -/

/-- A block of the text: what is stored of it, its literals, its size, and whether it is one byte again
and again. -/
structure TextBlock where
  input : BlockInput
  lit : Literals
  size : ℕ
  isRLE : Bool

/-- A block that is sent: `bt_raw`, `bt_rle` or `bt_compressed`. -/
inductive SentBlock where
  | raw (size : ℕ)
  | rle (size : ℕ)
  | compressed (sec : SeqSection) (lit : Literals) (size : ℕ)

/-- `ZSTD_minGain`; 8 is `ZSTD_btultra`. -/
def minGain (srcSize strategy : ℕ) : ℕ := srcSize >>> (if 8 ≤ strategy then strategy - 1 else 6) + 2

/-- The blocks of a frame, as `ZSTD_compressBlock_internal` decides on each: only one that is compressed
leaves its tables to the next. -/
def compressFrame : FseCTables → List TextBlock → List SentBlock
  | _, [] => []
  | prev, b :: bs =>
    if b.isRLE then .rle b.size :: compressFrame prev bs
    else
      match compressSequences b.input.dst b.input.dstCapacity b.input.store prev b.input.next
          b.input.strategy b.input.count b.input.wksp with
      | .error _ => .raw b.size :: compressFrame prev bs
      | .ok (size, out, next) =>
        let maxCSize := b.size - minGain b.size b.input.strategy
        if size = 0 ∨ b.input.gains = false ∨ maxCSize ≤ b.lit.cSize + size then
          .raw b.size :: compressFrame prev bs
        else .compressed ⟨b.input.store, size, out⟩ b.lit b.size :: compressFrame next bs

/-! ## The decoder -/

/-- A block that is received. -/
inductive ReceivedBlock where
  | raw (src : Mem) (size : ℕ)
  | rle (byte : UInt8) (size : ℕ)
  | compressed (lit : Literals) (src : Mem) (srcSize : ℕ)

/-- `ZSTD_copyRawBlock`; `ZSTD_setRleBlock` where `src` is one byte everywhere. -/
def copyRawBlock (m : Mem) (op oend : ℕ) (src : Mem) (size : ℕ) : Except Failure (ℕ × Mem) :=
  if oend - op < size then .error (.dstSizeTooSmall, m) else .ok (op + size, memcpy src m op 0 size)

/-- One turn of `ZSTD_decompressFrame`: `op`, the memory and the context. -/
def receiveBlock (dctx : SeqDCtx) (m : Mem) (op : ℕ) (buf : FrameBuffer) (w : SeqWorkspace) :
    ReceivedBlock → Except Failure (ℕ × Mem × SeqDCtx)
  | .raw src size => do
    let (op, m) ← copyRawBlock m op buf.oend src size
    return (op, m, dctx)
  | .rle byte size => do
    let (op, m) ← copyRawBlock m op buf.oend (fun _ => byte) size
    return (op, m, dctx)
  | .compressed lit src srcSize => decompressBlock dctx buf lit m op src srcSize w

/-- The loop of `ZSTD_decompressFrame`. -/
def decompressFrame (buf : FrameBuffer) (w : SeqWorkspace) :
    List ReceivedBlock → SeqDCtx → ℕ → Mem → Except Failure (ℕ × Mem × SeqDCtx)
  | [], dctx, op, m => .ok (op, m, dctx)
  | b :: bs, dctx, op, m => do
    let (op, m, dctx) ← receiveBlock dctx m op buf w b
    decompressFrame buf w bs dctx op m

/-! ## The text -/

/-- The sequences `l` and the literals tell `size` bytes of the text at `op`. -/
structure Tells (p : Mem) (rep : Reps) (op : ℕ) (l : List Sequence) (lit : Literals) (size : ℕ) : Prop where
  lits_ok : lit.isError = false
  resolves : Resolves rep l
  covers : Covers lit.bytes p op 0 (resolveAll rep l).1
  lits_le : litsOf (resolveAll rep l).1 ≤ lit.size
  last : ∀ k < lit.size - litsOf (resolveAll rep l).1,
    lit.bytes (litsOf (resolveAll rep l).1 + k) = p (op + bytesOf (resolveAll rep l).1 + k)
  size_eq : bytesOf (resolveAll rep l).1 + (lit.size - litsOf (resolveAll rep l).1) = size

/-- The blocks tell the text from `op` on; a block that is not compressed leaves the repeat offsets. -/
inductive TellsText (p : Mem) : Reps → ℕ → List SentBlock → Prop where
  | nil (rep : Reps) (op : ℕ) : TellsText p rep op []
  | raw {rep : Reps} {op size : ℕ} {bs : List SentBlock} (hs : TellsText p rep (op + size) bs) :
      TellsText p rep op (.raw size :: bs)
  | rle {rep : Reps} {op size : ℕ} {bs : List SentBlock} (h : ∀ k < size, p (op + k) = p op)
      (hs : TellsText p rep (op + size) bs) : TellsText p rep op (.rle size :: bs)
  | compressed {rep : Reps} {op : ℕ} {sec : SeqSection} {lit : Literals} {size : ℕ}
      {bs : List SentBlock} (h : Tells p rep op sec.store.toList lit size)
      (hs : TellsText p (resolveAll rep sec.store.toList).2 (op + size) bs) :
      TellsText p rep op (.compressed sec lit size :: bs)

/-- The blocks arrive: the bytes of the text, the one byte, or the bytes of the section and whatever
follows them. -/
inductive Arrives (p : Mem) : ℕ → List SentBlock → List ReceivedBlock → Prop where
  | nil (op : ℕ) : Arrives p op [] []
  | raw {op size : ℕ} {src : Mem} {bs : List SentBlock} {rs : List ReceivedBlock}
      (h : ∀ k < size, src (0 + k) = p (op + k)) (hs : Arrives p (op + size) bs rs) :
      Arrives p op (.raw size :: bs) (.raw src size :: rs)
  | rle {op size : ℕ} {bs : List SentBlock} {rs : List ReceivedBlock} (hs : Arrives p (op + size) bs rs) :
      Arrives p op (.rle size :: bs) (.rle (p op) size :: rs)
  | compressed {op : ℕ} {sec : SeqSection} {lit : Literals} {src : Mem} {size : ℕ} {bs : List SentBlock}
      {rs : List ReceivedBlock} (h : Agree src sec.out sec.size) (hs : Arrives p (op + size) bs rs) :
      Arrives p op (.compressed sec lit size :: bs) (.compressed lit src sec.size :: rs)

/-! ## The run -/

/-- The bytes of the blocks. -/
def sizeAll (bs : List TextBlock) : ℕ := (bs.map TextBlock.size).sum

/-- What becomes of a block: one that is compressed is shorter than its text. -/
theorem compressFrame_cons (prev : FseCTables) (b : TextBlock) (bs : List TextBlock) :
    (b.isRLE = true ∧ compressFrame prev (b :: bs) = .rle b.size :: compressFrame prev bs) ∨
    compressFrame prev (b :: bs) = .raw b.size :: compressFrame prev bs ∨
    b.input.gains = true ∧ ∃ size out next, size ≠ 0 ∧ b.lit.cSize + size ≤ b.size ∧
      compressSequences b.input.dst b.input.dstCapacity b.input.store prev b.input.next
        b.input.strategy b.input.count b.input.wksp = .ok (size, out, next) ∧
      compressFrame prev (b :: bs) =
        .compressed ⟨b.input.store, size, out⟩ b.lit b.size :: compressFrame next bs := by
  rw [compressFrame]
  by_cases hrle : b.isRLE = true
  · exact .inl ⟨hrle, if_pos hrle⟩
  rw [if_neg hrle]
  cases hrun : compressSequences b.input.dst b.input.dstCapacity b.input.store prev b.input.next
      b.input.strategy b.input.count b.input.wksp with
  | error e => exact .inr (.inl rfl)
  | ok r =>
    obtain ⟨size, out, next⟩ := r
    dsimp only
    by_cases hskip : size = 0 ∨ b.input.gains = false ∨
        b.size - minGain b.size b.input.strategy ≤ b.lit.cSize + size
    · rw [if_pos hskip]
      exact .inr (.inl rfl)
    · rw [if_neg hskip]
      obtain ⟨hsize, hskip⟩ := not_or.mp hskip
      obtain ⟨hgains, hless⟩ := not_or.mp hskip
      have hshort : b.lit.cSize + size ≤ b.size := by omega
      exact .inr (.inr ⟨Bool.not_eq_false _ ▸ hgains, size, out, next, hsize, hshort, rfl, rfl⟩)

section Run

variable {m m' p : Mem} {op size n : ℕ} {buf : FrameBuffer} {w : SeqWorkspace} {dctx dctx' : SeqDCtx}
  {r : ReceivedBlock} {rs : List ReceivedBlock}

/-- The blocks are decoded for the text up to `e`. -/
def WritesText (p : Mem) (buf : FrameBuffer) (w : SeqWorkspace) (rs : List ReceivedBlock) (dctx : SeqDCtx)
    (op : ℕ) (m : Mem) (e : ℕ) : Prop :=
  ∃ m' dctx', decompressFrame buf w rs dctx op m = .ok (e, m', dctx') ∧ Copied m p e buf.oend m'

theorem WritesText.cons (hrun : receiveBlock dctx m op buf w r = .ok (op + size, m', dctx'))
    (h : Copied m p (op + size) buf.oend m')
    (hrest : WritesText p buf w rs dctx' (op + size) m' (op + size + n)) :
    WritesText p buf w (r :: rs) dctx op m (op + (size + n)) := by
  obtain ⟨m2, dctx2, hrun2, h2⟩ := hrest
  rw [Nat.add_assoc] at hrun2 h2
  refine ⟨m2, dctx2, ?_, h.trans h2⟩
  rw [decompressFrame, hrun]
  exact hrun2

theorem copyRawBlock_spec {oend : ℕ} (src : Mem) (hA : Agree m p op)
    (h : ∀ k < size, src (0 + k) = p (op + k)) (hroom : op + size ≤ oend) :
    ∃ m', copyRawBlock m op oend src size = .ok (op + size, m') ∧ Copied m p (op + size) oend m' :=
  ⟨_, if_neg (by omega), hA.memcpy h le_rfl, fun i hi => memcpy_out _ _ (by omega)⟩

theorem copyRawBlock_inside {oend : ℕ} (m src : Mem) (size : ℕ) (hop : op ≤ oend) :
    Leaves (fun r => Inside m r.2 op r.1 oend) (Kept m · op oend) (copyRawBlock m op oend src size) := by
  rw [copyRawBlock]
  by_cases hroom : oend - op < size
  · rw [if_pos hroom]
    exact .refl m op oend
  · rw [if_neg hroom]
    have hend : op + size ≤ oend := by omega
    exact ⟨Nat.le_add_right _ _, hend, (kept_memcpy src m op 0 size).mono le_rfl hend⟩

theorem receiveBlock_inside (dctx : SeqDCtx) (m : Mem) (w : SeqWorkspace) (r : ReceivedBlock)
    (hop : op ≤ buf.oend) :
    Leaves (fun r => Inside m r.2.1 op r.1 buf.oend) (Kept m · op buf.oend)
      (receiveBlock dctx m op buf w r) := by
  cases r with
  | raw src size => exact (copyRawBlock_inside m src size hop).bind fun r h => h
  | rle byte size => exact (copyRawBlock_inside m (fun _ => byte) size hop).bind fun r h => h
  | compressed lit src srcSize => exact decompressBlock_inside dctx buf lit m hop src srcSize w

/-- The run from any state in which the two are in sync. -/
theorem decompressFrame_spec (p : Mem) (buf : FrameBuffer) (w : SeqWorkspace) (bs : List TextBlock) :
    ∀ (prev : FseCTables) (dctx : SeqDCtx) (op : ℕ) (m : Mem) (rs : List ReceivedBlock),
      (∀ b ∈ bs, b.input.Valid ∧ b.size ≤ buf.blockSizeMax) → InSync prev dctx → dctx.rep.Valid →
      TellsText p dctx.rep op (compressFrame prev bs) → Arrives p op (compressFrame prev bs) rs →
      Agree m p op → op + sizeAll bs ≤ buf.oend →
      WritesText p buf w rs dctx op m (op + sizeAll bs) := by
  induction bs with
  | nil =>
    intro prev dctx op m rs _ _ _ _ harr hA _
    cases harr
    exact ⟨m, dctx, rfl, hA, fun _ _ => rfl⟩
  | cons b bs ih =>
    intro prev dctx op m rs hall hsync hrep htext harr hA hroom
    obtain ⟨⟨hb, hmax⟩, hbs⟩ := List.forall_mem_cons.mp hall
    rw [sizeAll, List.map_cons, List.sum_cons, ← sizeAll] at hroom ⊢
    have hle : op + b.size ≤ buf.oend := by omega
    have hroom' : op + b.size + sizeAll bs ≤ buf.oend := by omega
    rcases compressFrame_cons prev b bs with ⟨-, hx⟩ | hx | ⟨-, size, out, next, hsize, hshort, hrun, hx⟩
    · rw [hx] at htext harr
      cases htext with
      | rle h htext =>
        cases harr with
        | rle harr =>
          have hbyte : ∀ k < b.size, (fun _ => p op) (0 + k) = p (op + k) := fun k hk => (h k hk).symm
          obtain ⟨m1, hcopy, h1⟩ := copyRawBlock_spec (fun _ => p op) hA hbyte hle
          exact .cons (by rw [receiveBlock, hcopy]; rfl) h1
            (ih prev dctx _ m1 _ hbs hsync hrep htext harr h1.agree hroom')
    · rw [hx] at htext harr
      cases htext with
      | raw htext =>
        cases harr with
        | raw h harr =>
          obtain ⟨m1, hcopy, h1⟩ := copyRawBlock_spec _ hA h hle
          exact .cons (by rw [receiveBlock, hcopy]; rfl) h1
            (ih prev dctx _ m1 _ hbs hsync hrep htext harr h1.agree hroom')
    · rw [hx] at htext harr
      cases htext with
      | compressed h htext =>
        cases harr with
        | compressed hsrc harr =>
          obtain ⟨dctx1, hdec, hsync1, hrep1⟩ := decodeSection_spec hb.store hb.nbSeq_lt hsync
            hb.buildCTable_le hrun hsize hsrc hrep h.resolves w
          have hvalid := hrep.resolveAll hb.store.offBase_lt_of_mem h.resolves
          have hsize_eq := h.size_eq
          obtain ⟨m1, hblock, h1⟩ := decompressBlock_spec hdec h.lits_ok h.covers h.lits_le h.last hA
            (hshort.trans hmax) (hsize_eq.trans_le hmax) (hsize_eq ▸ hle)
          rw [hsize_eq] at hblock h1
          rw [← hrep1] at hvalid htext
          exact .cons hblock h1 (ih next dctx1 _ m1 _ hbs hsync1 hvalid htext harr h1.agree hroom')

end Run

/-- **A frame is decoded for its text.**  However the blocks that tell a text are sent, whichever tables
they select and repeat, and wherever their literals are stored, the decoder writes the text from a fresh
start, in a buffer that has the room for it and no more, and nothing past the buffer. -/
theorem frame_roundTrip (t : FseCTables) (dctx : SeqDCtx) (buf : FrameBuffer) (bs : List TextBlock)
    (hbs : ∀ b ∈ bs, b.input.Valid ∧ b.size ≤ buf.blockSizeMax) (p : Mem)
    (htext : TellsText p repStartValue 0 (compressFrame t.reset bs)) (rs : List ReceivedBlock)
    (harr : Arrives p 0 (compressFrame t.reset bs) rs) (m : Mem) (hroom : sizeAll bs ≤ buf.oend)
    (w : SeqWorkspace) :
    ∃ m' dctx', decompressFrame buf w rs dctx.decompressBegin 0 m = .ok (sizeAll bs, m', dctx') ∧
      Agree m' p (sizeAll bs) ∧ ∀ i, buf.oend ≤ i → m' i = m i := by
  have hstart : repStartValue.Valid := ⟨by decide, by decide⟩
  have hrun := decompressFrame_spec p buf w bs t.reset dctx.decompressBegin 0 m rs hbs
    (inSync_reset t _) hstart htext harr (fun i hi => absurd hi (Nat.not_lt_zero i))
    ((Nat.zero_add _).trans_le hroom)
  rw [Nat.zero_add] at hrun
  obtain ⟨m', dctx', hrun, h⟩ := hrun
  exact ⟨m', dctx', hrun, h.agree, h.out⟩

/-- **Nothing makes the decoder leave its buffer.**  Whatever blocks arrive, with whatever bytes, literals
and sizes, and in whatever state the decoder is, the run writes neither before its start nor past the
buffer, up to where it fails if it does, and where it does not, it ends in the buffer. -/
theorem decompressFrame_inside (buf : FrameBuffer) (w : SeqWorkspace) (rs : List ReceivedBlock) :
    ∀ (dctx : SeqDCtx) {op : ℕ} (m : Mem), op ≤ buf.oend →
      Leaves (fun r => Inside m r.2.1 op r.1 buf.oend) (Kept m · op buf.oend)
        (decompressFrame buf w rs dctx op m) := by
  induction rs with
  | nil => exact fun dctx op m hop => ⟨le_rfl, hop, .refl m op buf.oend⟩
  | cons r rs ih =>
    intro dctx op m hop
    rw [decompressFrame]
    refine (receiveBlock_inside dctx m w r hop).bind ?_
    rintro ⟨op1, m1, dctx1⟩ h1
    exact (ih dctx1 m1 h1.end_le).mono (fun r h => h1.trans h) fun m2 h => h1.kept_trans h

/-- A buffer with room for literals behind its first block, and for blocks of 17 bytes. -/
def smallBuffer : FrameBuffer := ⟨100, 17, by decide, by decide⟩

/-- Seven literals, sent in 8 bytes. -/
def sevenLiterals (bytes : Mem) : Literals := ⟨bytes, 7, 8, false, false, by decide⟩

/-- Three literals. -/
def threeLiterals : Literals := ⟨fun _ => 9, 3, 4, false, false, by decide⟩

/-- A section of five literals and a match of ten bytes, four back. -/
def fiveTen : Mem := fun i => [1, 0, 111, 78, 11].getD i 0

/-- Three bytes, and a section that has its literals in the buffer. -/
def twoBlocks : List ReceivedBlock :=
  [.raw (fun _ => 5) 3, .compressed (sevenLiterals fun k => UInt8.ofNat k) fiveTen 5]

/-- A run that ends, and one that fails after the literals were stored: there are too few. -/
theorem decompressFrame_inside_two :
    (∃ m' dctx', decompressFrame smallBuffer ⟨fun _ => 0, fun _ => 0⟩ twoBlocks
        freshDCtx.decompressBegin 0 (fun _ => 0) = .ok (20, m', dctx') ∧ Inside (fun _ => 0) m' 0 20 100) ∧
      ∃ m', decompressFrame smallBuffer ⟨fun _ => 0, fun _ => 0⟩ [.compressed threeLiterals fiveTen 5]
        freshDCtx.decompressBegin 0 (fun _ => 0) = .error (.corruptionDetected, m') ∧ m' 49 = 9 ∧
        Kept (fun _ => 0) m' 0 100 := by
  constructor
  · have hsize : (decompressFrame smallBuffer ⟨fun _ => 0, fun _ => 0⟩ twoBlocks
        freshDCtx.decompressBegin 0 (fun _ => 0)).toOption.map Prod.fst = some 20 := by decide +kernel
    have h := decompressFrame_inside smallBuffer ⟨fun _ => 0, fun _ => 0⟩ twoBlocks
      freshDCtx.decompressBegin (fun _ => 0) (Nat.zero_le _)
    cases hrun : decompressFrame smallBuffer ⟨fun _ => 0, fun _ => 0⟩ twoBlocks
        freshDCtx.decompressBegin 0 (fun _ => 0) with
    | error e =>
      rw [hrun] at hsize
      cases hsize
    | ok r =>
      obtain ⟨e, m', dctx'⟩ := r
      rw [hrun] at hsize h
      obtain rfl : e = 20 := Option.some.inj hsize
      exact ⟨m', dctx', rfl, h⟩
  · have herr : (match decompressFrame smallBuffer ⟨fun _ => 0, fun _ => 0⟩
        [.compressed threeLiterals fiveTen 5] freshDCtx.decompressBegin 0 (fun _ => 0) with
        | .error (e, m') => some (e, m' 49)
        | .ok _ => none) = some (ErrorCode.corruptionDetected, 9) := by decide +kernel
    have h := decompressFrame_inside smallBuffer ⟨fun _ => 0, fun _ => 0⟩
      [.compressed threeLiterals fiveTen 5] freshDCtx.decompressBegin (fun _ => 0) (Nat.zero_le _)
    cases hrun : decompressFrame smallBuffer ⟨fun _ => 0, fun _ => 0⟩ [.compressed threeLiterals fiveTen 5]
        freshDCtx.decompressBegin 0 (fun _ => 0) with
    | error e =>
      obtain ⟨e, m'⟩ := e
      rw [hrun] at herr h
      obtain ⟨rfl, hbyte⟩ := Prod.mk.inj (Option.some.inj herr)
      exact ⟨m', rfl, hbyte, h⟩
    | ok r =>
      rw [hrun] at herr
      cases herr

/-- What arrives when nothing follows the sections. -/
def deliver (p : Mem) : ℕ → List SentBlock → List ReceivedBlock
  | _, [] => []
  | op, .raw size :: bs => .raw (fromOffset p op) size :: deliver p (op + size) bs
  | op, .rle size :: bs => .rle (p op) size :: deliver p (op + size) bs
  | op, .compressed sec lit size :: bs => .compressed lit sec.out sec.size :: deliver p (op + size) bs

theorem arrives_deliver (p : Mem) (bs : List SentBlock) : ∀ op, Arrives p op bs (deliver p op bs) := by
  induction bs with
  | nil => exact fun op => .nil op
  | cons b bs ih =>
    intro op
    cases b with
    | raw size =>
      refine .raw (fun k _ => ?_) (ih _)
      rw [Nat.zero_add, fromOffset]
    | rle size => exact .rle (ih _)
    | compressed sec lit size => exact .compressed (Agree.refl _ _) (ih _)

/-- A text that repeats four bytes five times, then zeros. -/
def shortText : Mem := fun i => if i < 20 then UInt8.ofNat (i % 4) else 0

/-- `oneMatch` at `op` of the text, with two more literals. -/
def matchBlock (op : ℕ) : TextBlock where
  input := oneMatch
  lit := sevenLiterals fun k => if k < 5 then shortText (op + k) else shortText (op + 10 + k)
  size := 17
  isRLE := false

/-- A block that is not compressed. -/
def plainBlock (size : ℕ) (isRLE : Bool) : TextBlock where
  input := { oneMatch with gains := false }
  lit := threeLiterals
  size := size
  isRLE := isRLE

theorem matchBlock_tells (rep : Reps) {op : ℕ}
    (hback : ∀ k < 10, shortText (op + 5 + k) = shortText (op + 5 + k - 4)) :
    Tells shortText rep op oneMatch.store.toList (matchBlock op).lit 17 := by
  have hlist : oneMatch.store.toList = [⟨5, 7, 10⟩] := by decide
  have hres : resolveAll rep [⟨5, 7, 10⟩] = ([⟨5, 10, 4⟩], ⟨4, rep.r0, rep.r1⟩) := rfl
  rw [hlist]
  have hne : (4 : ℕ) ≠ 0 := by decide
  refine ⟨rfl, ⟨hne, trivial⟩, ?_, ?_, ?_, ?_⟩ <;> rw [hres]
  · refine ⟨⟨fun k hk => ?_, by decide, Nat.le_add_left 4 (op + 1), by decide, hback⟩, trivial⟩
    rw [Nat.zero_add]
    exact if_pos hk
  · show 5 ≤ 7
    decide
  · intro k _
    show (if 5 + k < 5 then _ else shortText (op + 10 + (5 + k))) = shortText (op + 15 + k)
    rw [if_neg (by omega)]
    congr 1
    omega
  · rfl

/-- Compressed or not, such a block tells its text. -/
theorem matchBlock_text {rep : Reps} {op : ℕ} {prev : FseCTables} {bs : List TextBlock}
    (hback : ∀ k < 10, shortText (op + 5 + k) = shortText (op + 5 + k - 4))
    (h : ∀ prev' rep', TellsText shortText rep' (op + 17) (compressFrame prev' bs)) :
    TellsText shortText rep op (compressFrame prev (matchBlock op :: bs)) := by
  rcases compressFrame_cons prev (matchBlock op) bs with ⟨hrle, -⟩ | hx | ⟨-, _, _, next, -, -, -, hx⟩
  · cases hrle
  · rw [hx]
    exact .raw (h _ _)
  · rw [hx]
    exact .compressed (matchBlock_tells rep hback) (h _ _)

/-- Four blocks: the first has its literals in the buffer, the last has not. -/
theorem frame_roundTrip_four :
    ∃ m' dctx', decompressFrame smallBuffer ⟨fun _ => 0, fun _ => 0⟩
        (deliver shortText 0 (compressFrame noTables.reset
          [matchBlock 0, plainBlock 3 false, plainBlock 8 true, matchBlock 28]))
        freshDCtx.decompressBegin 0 (fun _ => 0) = .ok (45, m', dctx') ∧
      Agree m' shortText 45 ∧ ∀ i, 100 ≤ i → m' i = 0 := by
  have hplain : ∀ size ≤ 17, ∀ isRLE, (plainBlock size isRLE).input.Valid ∧
      (plainBlock size isRLE).size ≤ smallBuffer.blockSizeMax := fun _ hsize _ =>
    ⟨⟨oneMatch_valid.store, oneMatch_valid.nbSeq_lt, oneMatch_valid.wksp⟩, hsize⟩
  have hmatch : ∀ op, (matchBlock op).input.Valid ∧ (matchBlock op).size ≤ smallBuffer.blockSizeMax :=
    fun _ => ⟨oneMatch_valid, le_refl 17⟩
  have hvalid : ∀ b ∈ [matchBlock 0, plainBlock 3 false, plainBlock 8 true, matchBlock 28],
      b.input.Valid ∧ b.size ≤ smallBuffer.blockSizeMax :=
    List.forall_mem_cons.mpr ⟨hmatch 0, List.forall_mem_cons.mpr ⟨hplain 3 (by decide) _,
      List.forall_mem_cons.mpr ⟨hplain 8 (by decide) _, List.forall_mem_cons.mpr ⟨hmatch 28,
        List.forall_mem_nil _⟩⟩⟩⟩
  have htext : TellsText shortText repStartValue 0 (compressFrame noTables.reset
      [matchBlock 0, plainBlock 3 false, plainBlock 8 true, matchBlock 28]) := by
    refine matchBlock_text (by decide) fun prev rep => ?_
    rcases compressFrame_cons prev (plainBlock 3 false) [plainBlock 8 true, matchBlock 28] with
      ⟨hrle, -⟩ | hx | ⟨hgains, -⟩
    · cases hrle
    · have hrle : (plainBlock 8 true).isRLE = true := rfl
      rw [hx, compressFrame, if_pos hrle]
      have hzeros : ∀ k < 8, shortText (0 + 17 + 3 + k) = shortText (0 + 17 + 3) := by decide
      exact .raw (.rle hzeros (matchBlock_text (by decide) fun prev' rep' => .nil rep' 45))
    · cases hgains
  exact frame_roundTrip noTables freshDCtx smallBuffer _ hvalid shortText htext _ (arrives_deliver _ _ 0)
    (fun _ => 0) (by decide) ⟨fun _ => 0, fun _ => 0⟩

end ZramUpgrade.Zstd
