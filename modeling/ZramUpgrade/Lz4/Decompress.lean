import ZramUpgrade.Lib.Loop
import ZramUpgrade.Lz4.Primitives

/-!
# Lz4.Decompress — the safe decoder (`lib/lz4.c`)

`LZ4_decompress_safe`, that is `LZ4_decompress_generic` with a full block, no dictionary and
`lowPrefix = dst`.  One step decodes one sequence.  The `uptrval` overflow tests of the source
cannot fire: a length read from `srcSize <= INT_MAX` bytes is far below `2^63`.  `ok` records
whether every access so far, reads of `dst` by match copies included, stayed inside `src` and `dst`;
nothing depends on it, and where it holds nothing depends on what lies behind `src` (`Lz4.SourceBytes`).
-/

namespace ZramUpgrade.Lz4

open Lib

structure DState where
  ip : ℕ
  op : ℕ
  dst : Mem
  ok : Bool

/-- The return value (negative on error) with the final memory. -/
structure DResult where
  ret : ℤ
  dst : Mem
  ok : Bool

/-- `goto _output_error` with the current `ip`. -/
def DState.outputError (st : DState) : Step DState DResult :=
  .done ⟨-(st.ip : ℤ) - 1, st.dst, st.ok⟩

section Steps

variable (src : Mem) (srcSize outputSize : ℕ)

/-- The reads of `read_variable_length`: the length, or `none` for `rvl_error`, and the new `ip`. -/
def readVariableLengthLoop (ilimit ip length : ℕ) : Option ℕ × ℕ :=
  let s := (src ip).toNat
  let length := length + s
  if ilimit < ip + 1 then (none, ip + 1)
  else if s = 255 then readVariableLengthLoop ilimit (ip + 1) length
  else (some length, ip + 1)
termination_by ilimit - ip
decreasing_by omega

def readVariableLength (ip ilimit : ℕ) (initialCheck : Bool) : Option ℕ × ℕ :=
  if initialCheck ∧ ilimit ≤ ip then (none, ip) else readVariableLengthLoop src ilimit ip 0

/-- `n` bytes at `p` lie in a buffer of `size` bytes. -/
def within (size p n : ℕ) : Bool := p + n ≤ size

/-- `while (op < cpy) { *op++ = *match++; }` -/
def copyBytes (dst : Mem) (op matchPos cpy : ℕ) : Mem :=
  if op < cpy then copyBytes (store dst op (dst matchPos)) (op + 1) (matchPos + 1) cpy else dst
termination_by cpy - op
decreasing_by omega

/-- The first 8 bytes of a match: the memory and the source position of the next copy. -/
def copyMatchHead (dst : Mem) (op offset : ℕ) : Mem × ℕ :=
  let matchPos := op - offset
  if offset < 8 then
    -- silence msan warning when offset==0
    let dst := write32 dst op 0
    let dst := store dst op (dst matchPos)
    let dst := store dst (op + 1) (dst (matchPos + 1))
    let dst := store dst (op + 2) (dst (matchPos + 2))
    let dst := store dst (op + 3) (dst (matchPos + 3))
    let matchPos := matchPos + inc32table offset
    (memcpy dst dst (op + 4) matchPos 4, ((matchPos : ℤ) - dec64table offset).toNat)
  else (memcpy dst dst op matchPos 8, matchPos + 8)

/-- The end of the bytes `copyMatchHead` reads. -/
def copyMatchHeadEnd (op offset : ℕ) : ℕ :=
  let matchPos := op - offset
  if offset < 8 then matchPos + inc32table offset + 4 else matchPos + 8

/-- `_copy_match`: read the rest of the match length and copy the match within the block. -/
def copyMatch (st : DState) (offset length : ℕ) : Step DState DResult :=
  let (addl, ip) :=
    if length = ML_MASK then readVariableLength src st.ip (srcSize - LASTLITERALS + 1) false
    else (some 0, st.ip)
  let st := { st with ip := ip, ok := st.ok && within srcSize ip 0 }
  match addl with
  | none => st.outputError
  | some addl =>
    let length := length + addl + MINMATCH
    -- offset outside buffers
    if st.op < offset then st.outputError
    else
      let op := st.op
      let cpy := op + length
      let (dst, matchPos) := copyMatchHead st.dst op offset
      let st := { st with
        dst := dst
        ok := st.ok && within outputSize op 8 && within outputSize (copyMatchHeadEnd op offset) 0 }
      let op := op + 8
      if outputSize < cpy + (2 * WILDCOPYLENGTH - MINMATCH) then
        let oCopyLimit := outputSize - (WILDCOPYLENGTH - 1)
        -- last LASTLITERALS bytes must be literals
        if outputSize < cpy + LASTLITERALS then st.outputError
        else if op < oCopyLimit then
          let dst := wildCopy8 id dst op matchPos oCopyLimit
          let copied := wildCopyEnd op oCopyLimit - op
          .next { st with
            op := cpy
            dst := copyBytes dst oCopyLimit (matchPos + (oCopyLimit - op)) cpy
            ok := st.ok && within outputSize op copied && within outputSize matchPos copied
              && within outputSize (matchPos + (oCopyLimit - op)) (cpy - oCopyLimit)
              && within outputSize cpy 0 }
        else
          .next { st with
            op := cpy
            dst := copyBytes dst op matchPos cpy
            ok := st.ok && within outputSize matchPos (cpy - op) && within outputSize cpy 0 }
      else
        let dst := memcpy dst dst op matchPos 8
        let st := { st with
          op := cpy
          dst := dst
          ok := st.ok && within outputSize op 8 && within outputSize matchPos 8 }
        if 16 < length then
          let copied := wildCopyEnd (op + 8) cpy - (op + 8)
          .next { st with
            dst := wildCopy8 id dst (op + 8) (matchPos + 8) cpy
            ok := st.ok && within outputSize (op + 8) copied
              && within outputSize (matchPos + 8) copied }
        else .next st

/-- "copy literals" and "get offset", for a literal run of `length` bytes at `ip`. -/
def copyLiterals (st : DState) (token length : ℕ) : Step DState DResult :=
  let cpy := st.op + length
  if outputSize < cpy + MFLIMIT ∨ srcSize < st.ip + length + (2 + 1 + LASTLITERALS) then
    if st.ip + length ≠ srcSize ∨ outputSize < cpy then st.outputError
    else
      .done ⟨(st.op + length : ℕ), memcpy src st.dst st.op st.ip length,
        st.ok && within srcSize st.ip length && within outputSize st.op length⟩
  else
    let copied := wildCopyEnd st.op cpy - st.op
    let ip := st.ip + length
    copyMatch src srcSize outputSize { st with
      ip := ip + 2
      op := cpy
      dst := wildCopy8 (fun _ => src) st.dst st.op st.ip cpy
      ok := st.ok && within srcSize st.ip copied && within outputSize st.op copied
        && within srcSize ip 2 } (readLE16 src ip) (token % 16)

/-- The second stage of the shortcut, after 16 bytes were copied on behalf of `length` literals. -/
def shortcut (st : DState) (token length : ℕ) : Step DState DResult :=
  let dst := memcpy src st.dst st.op st.ip 16
  let op := st.op + length
  let ip := st.ip + length
  let st := { st with
    ip := ip + 2
    op := op
    dst := dst
    ok := st.ok && within srcSize st.ip 16 && within outputSize st.op 16 && within srcSize ip 2 }
  let length := token % 16
  let offset := readLE16 src ip
  if length ≠ ML_MASK ∧ 8 ≤ offset ∧ offset ≤ op then
    let matchPos := op - offset
    let dst := memcpy dst dst op matchPos 8
    let dst := memcpy dst dst (op + 8) (matchPos + 8) 8
    .next { st with
      op := op + (length + MINMATCH)
      dst := memcpy dst dst (op + 16) (matchPos + 16) 2
      ok := st.ok && within outputSize op 18 && within outputSize matchPos 18 }
  else copyMatch src srcSize outputSize st offset length

/-- One round of the main loop: decode one sequence. -/
def decompressStep (st : DState) : Step DState DResult :=
  let token := (src st.ip).toNat
  let length := token / 16
  let st := { st with ip := st.ip + 1, ok := st.ok && within srcSize st.ip 1 }
  -- shortiend is iend - 14 - 2, shortoend is oend - 14 - 18
  if length ≠ RUN_MASK ∧ st.ip + (14 + 2) < srcSize ∧ st.op + (14 + 18) ≤ outputSize then
    shortcut src srcSize outputSize st token length
  else if length = RUN_MASK then
    let (addl, ip) := readVariableLength src st.ip (srcSize - RUN_MASK) true
    let st := { st with ip := ip, ok := st.ok && within srcSize ip 0 }
    match addl with
    | none => st.outputError
    | some addl => copyLiterals src srcSize outputSize st token (length + addl)
  else copyLiterals src srcSize outputSize st token length

end Steps

/-- `LZ4_decompress_safe`.  Every step consumes input, so `srcSize + 1` steps are enough. -/
def decompressSafe (src dst : Mem) (srcSize outputSize : ℕ) : Option DResult :=
  if outputSize = 0 then
    some ⟨if srcSize = 1 ∧ src 0 = 0 then 0 else -1, dst, true⟩
  else if srcSize = 0 then some ⟨-1, dst, true⟩
  else run (decompressStep src srcSize outputSize) (srcSize + 1) ⟨0, 0, dst, true⟩

end ZramUpgrade.Lz4
