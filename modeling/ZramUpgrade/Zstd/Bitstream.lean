import ZramUpgrade.Lib.BitStack
import ZramUpgrade.Lib.Mem

/-!
# Zstd.Bitstream — `common/bitstream.h`

Fields are added at the top of a 64-bit register whose whole bytes are flushed forward into a buffer;
the reader starts at the end mark and goes backward.  Both sides hold a `BitStack`
(`CStream.Holds`, `DStream.Holds`), and what is read is what was added, last field first
(`bitstream_roundTrip`).  Positions are offsets from the start of the buffer; the machine is a
little-endian one of 64 bits.
-/

namespace ZramUpgrade.Zstd

open Lib

/-- `ZSTD_ErrorCode`, as far as it is used here. -/
inductive ErrorCode where
  | generic
  | corruptionDetected
  | tableLogTooLarge
  | maxSymbolValueTooLarge
  | maxSymbolValueTooSmall
  | dstSizeTooSmall
  | srcSizeWrong
  | memoryAllocation
  deriving DecidableEq

/-- `ZSTD_highbit32`. -/
def highbit32 (val : ℕ) : ℕ := val.log2

/-- `BIT_mask`, a table of 32 entries. -/
def bitMask (nbBits : ℕ) : ℕ := 2 ^ nbBits - 1

/-! ## The writer -/

/-- `BIT_CStream_t`, with the buffer. -/
structure CStream where
  bitContainer : ℕ
  bitPos : ℕ
  ptr : ℕ
  endPtr : ℕ
  dst : Mem

/-- `BIT_initCStream`. -/
def initCStream (dst : Mem) (dstCapacity : ℕ) : Except ErrorCode CStream :=
  if dstCapacity ≤ 8 then .error .dstSizeTooSmall else .ok ⟨0, 0, 0, dstCapacity - 8, dst⟩

namespace CStream

/-- `BIT_addBits`. -/
def addBits (bitC : CStream) (value nbBits : ℕ) : CStream :=
  { bitC with
    bitContainer := bitC.bitContainer ||| ((value &&& bitMask nbBits) <<< bitC.bitPos) % 2 ^ 64
    bitPos := bitC.bitPos + nbBits }

/-- `BIT_addBitsFast`. -/
def addBitsFast (bitC : CStream) (value nbBits : ℕ) : CStream :=
  { bitC with
    bitContainer := bitC.bitContainer ||| (value <<< bitC.bitPos) % 2 ^ 64
    bitPos := bitC.bitPos + nbBits }

/-- `BIT_flushBitsFast`. -/
def flushBitsFast (bitC : CStream) : CStream :=
  let nbBytes := bitC.bitPos >>> 3
  { bitC with
    dst := leStore bitC.dst bitC.ptr bitC.bitContainer 8
    ptr := bitC.ptr + nbBytes
    bitPos := bitC.bitPos &&& 7
    bitContainer := bitC.bitContainer >>> (nbBytes * 8) }

/-- `BIT_flushBits`. -/
def flushBits (bitC : CStream) : CStream :=
  let nbBytes := bitC.bitPos >>> 3
  { bitC with
    dst := leStore bitC.dst bitC.ptr bitC.bitContainer 8
    ptr := if bitC.endPtr < bitC.ptr + nbBytes then bitC.endPtr else bitC.ptr + nbBytes
    bitPos := bitC.bitPos &&& 7
    bitContainer := bitC.bitContainer >>> (nbBytes * 8) }

/-- `BIT_closeCStream`: the size, 0 where it does not fit, and the buffer. -/
def close (bitC : CStream) : ℕ × Mem :=
  let bitC := (bitC.addBitsFast 1 1).flushBits
  (if bitC.endPtr ≤ bitC.ptr then 0 else bitC.ptr + if 0 < bitC.bitPos then 1 else 0, bitC.dst)

end CStream

/-! ## The reader -/

/-- `BIT_DStream_t`; `ptr` is `none` once it points to the word of zeros of an overflow. -/
structure DStream where
  bitContainer : ℕ
  bitsConsumed : ℕ
  ptr : Option ℕ

/-- `BIT_DStream_status`. -/
inductive DStreamStatus where
  | unfinished
  | endOfBuffer
  | completed
  | overflow
  deriving DecidableEq

/-- `BIT_initDStream`. -/
def initDStream (src : Mem) (srcSize : ℕ) : Except ErrorCode DStream :=
  if srcSize < 1 then .error .srcSizeWrong
  else
    let lastByte := (src (srcSize - 1)).toNat
    if 8 ≤ srcSize then
      if lastByte = 0 then .error .generic
      else .ok ⟨leValue src (srcSize - 8) 8, 8 - highbit32 lastByte, some (srcSize - 8)⟩
    else if lastByte = 0 then .error .corruptionDetected
    -- the `switch` adds byte `k` at bit `8 * k`
    else .ok ⟨leValue src 0 srcSize, 8 - highbit32 lastByte + (8 - srcSize) * 8, some 0⟩

namespace DStream

/-- `BIT_lookBits`; the shift is a `size_t`, taken modulo 64. -/
def lookBits (bitD : DStream) (nbBits : ℕ) : ℕ :=
  (bitD.bitContainer >>> ((2 ^ 64 + 64 - bitD.bitsConsumed - nbBits) % 64)) &&& bitMask nbBits

/-- `BIT_lookBitsFast`. -/
def lookBitsFast (bitD : DStream) (nbBits : ℕ) : ℕ :=
  ((bitD.bitContainer <<< (bitD.bitsConsumed % 64)) % 2 ^ 64) >>> ((64 - nbBits) % 64)

/-- `BIT_skipBits`. -/
def skipBits (bitD : DStream) (nbBits : ℕ) : DStream :=
  { bitD with bitsConsumed := bitD.bitsConsumed + nbBits }

/-- `BIT_readBits`. -/
def readBits (bitD : DStream) (nbBits : ℕ) : ℕ × DStream := (bitD.lookBits nbBits, bitD.skipBits nbBits)

/-- `BIT_readBitsFast`. -/
def readBitsFast (bitD : DStream) (nbBits : ℕ) : ℕ × DStream :=
  (bitD.lookBitsFast nbBits, bitD.skipBits nbBits)

/-- `BIT_reloadDStream_internal`. -/
def reloadInternal (src : Mem) (bitD : DStream) (ptr : ℕ) : DStreamStatus × DStream :=
  let ptr := ptr - bitD.bitsConsumed >>> 3
  (.unfinished, ⟨leValue src ptr 8, bitD.bitsConsumed &&& 7, some ptr⟩)

/-- `BIT_reloadDStream`; `limitPtr` is 8. -/
def reload (src : Mem) (bitD : DStream) : DStreamStatus × DStream :=
  if 64 < bitD.bitsConsumed then (.overflow, { bitD with ptr := none })
  else
    match bitD.ptr with
    | none => (.overflow, bitD)
    | some ptr =>
      if 8 ≤ ptr then reloadInternal src bitD ptr
      else if ptr = 0 then (if bitD.bitsConsumed < 64 then .endOfBuffer else .completed, bitD)
      else
        let nbBytes := bitD.bitsConsumed >>> 3
        if ptr < nbBytes then
          (.endOfBuffer, ⟨leValue src 0 8, bitD.bitsConsumed - ptr * 8, some 0⟩)
        else (.unfinished, ⟨leValue src (ptr - nbBytes) 8, bitD.bitsConsumed - nbBytes * 8,
          some (ptr - nbBytes)⟩)

/-- `BIT_endOfDStream`. -/
def endOfDStream (bitD : DStream) : Bool := bitD.ptr = some 0 ∧ bitD.bitsConsumed = 64

end DStream

/-! ## What the register holds -/

theorem and_bitMask (value nbBits : ℕ) : value &&& bitMask nbBits = value % 2 ^ nbBits :=
  Nat.and_two_pow_sub_one_eq_mod value nbBits

/-- A field on top of a register. -/
theorem register_or {c v pos n : ℕ} (hc : c < 2 ^ pos) (hv : v < 2 ^ n) (hn : pos + n < 64) :
    c ||| (v <<< pos) % 2 ^ 64 = c + 2 ^ pos * v ∧ c + 2 ^ pos * v < 2 ^ (pos + n) := by
  have hlt : 2 ^ pos * v + 2 ^ pos ≤ 2 ^ (pos + n) := by
    rw [Nat.pow_add, ← Nat.mul_succ]
    exact Nat.mul_le_mul_left _ hv
  have h64 : 2 ^ (pos + n) ≤ 2 ^ 64 := Nat.pow_le_pow_right (by omega) hn.le
  rw [Nat.mod_eq_of_lt (by rw [Nat.shiftLeft_eq, Nat.mul_comm]; omega), Nat.or_comm,
    ← Nat.shiftLeft_add_eq_or_of_lt hc, Nat.shiftLeft_eq, Nat.mul_comm]
  omega

theorem pow_256 (k : ℕ) : 256 ^ k = 2 ^ (8 * k) := by
  rw [Nat.pow_mul]

theorem two_pow_64 : 2 ^ 64 = 256 ^ 8 := rfl

/-- The writer holds the stack `b`, and has written nothing at or past `cap`.  Once `ptr` is
`endPtr` the fields are lost and only their number is known. -/
structure CStream.Holds (dst : Mem) (cap : ℕ) (c : CStream) (b : BitStack) : Prop where
  room : c.endPtr + 8 = cap
  ptr_le : c.ptr ≤ c.endPtr
  pos_lt : c.bitPos < 64
  clean : c.bitContainer < 2 ^ c.bitPos
  len_ge : 8 * c.ptr + c.bitPos ≤ b.len
  len_eq : c.ptr < c.endPtr → b.len = 8 * c.ptr + c.bitPos
  val_eq : c.ptr < c.endPtr → b.val = leValue c.dst 0 c.ptr + 256 ^ c.ptr * c.bitContainer
  kept : ∀ j, cap ≤ j → c.dst j = dst j

namespace CStream

variable {dst : Mem} {cap : ℕ} {c : CStream} {b : BitStack} {value nbBits : ℕ}

theorem init_holds (dst : Mem) (h : 8 < cap) :
    ∃ c, initCStream dst cap = .ok c ∧ Holds dst cap c .empty ∧ c.bitPos = 0 := by
  rw [initCStream, if_neg (by omega)]
  refine ⟨_, rfl, ⟨?_, Nat.zero_le _, Nat.succ_pos _, Nat.one_pos, le_rfl, fun _ => rfl,
    fun _ => rfl, fun _ _ => rfl⟩, rfl⟩
  show cap - 8 + 8 = cap
  omega

/-- A clean value. -/
theorem Holds.addBitsFast (h : Holds dst cap c b) (value nbBits : ℕ) (hn : c.bitPos + nbBits < 64)
    (hv : value < 2 ^ nbBits) : Holds dst cap (c.addBitsFast value nbBits) (b.push nbBits value) := by
  obtain ⟨hor, hlt⟩ := register_or h.clean hv hn
  refine ⟨h.room, h.ptr_le, hn, ?_, ?_, fun hp => ?_, fun hp => ?_, h.kept⟩
  · show c.bitContainer ||| (value <<< c.bitPos) % 2 ^ 64 < 2 ^ (c.bitPos + nbBits)
    rw [hor]
    exact hlt
  · have := h.len_ge
    show 8 * c.ptr + (c.bitPos + nbBits) ≤ b.len + nbBits
    omega
  · have := h.len_eq hp
    show b.len + nbBits = 8 * c.ptr + (c.bitPos + nbBits)
    omega
  · show b.val + 2 ^ b.len * (value % 2 ^ nbBits) =
      leValue c.dst 0 c.ptr + 256 ^ c.ptr * (c.bitContainer ||| (value <<< c.bitPos) % 2 ^ 64)
    rw [hor, Nat.mod_eq_of_lt hv, h.val_eq hp, h.len_eq hp, Nat.pow_add, pow_256, Nat.mul_add,
      Nat.mul_assoc, Nat.add_assoc]

/-- Any value: `BIT_addBits` masks it. -/
theorem Holds.addBits (h : Holds dst cap c b) (value nbBits : ℕ) (hn : c.bitPos + nbBits < 64) :
    Holds dst cap (c.addBits value nbBits) (b.push nbBits value) := by
  have hfast := h.addBitsFast (value % 2 ^ nbBits) nbBits hn (Nat.mod_lt _ (Nat.two_pow_pos _))
  have hpush : b.push nbBits (value % 2 ^ nbBits) = b.push nbBits value := by
    simp only [BitStack.push, Nat.mod_mod]
  rw [hpush] at hfast
  rw [CStream.addBits, and_bitMask]
  exact hfast

/-- The bytes below `ptr` and the register after it are in memory after a flush. -/
theorem flushed_value (dst : Mem) {p c : ℕ} (hc : c < 2 ^ 64) :
    leValue (leStore dst p c 8) 0 (p + 8) = leValue dst 0 p + 256 ^ p * c := by
  rw [leValue_add, Nat.zero_add, leValue_leStore, Nat.mod_eq_of_lt (by omega)]
  congr 1
  exact leValue_congr fun k hk => leStore_out _ _ (by omega)

theorem Holds.flushBits (h : Holds dst cap c b) : Holds dst cap c.flushBits b := by
  have hroom := h.room
  have hle := h.ptr_le
  have hpos := h.pos_lt
  have hge := h.len_ge
  have hshift : c.bitPos >>> 3 = c.bitPos / 8 := Nat.shiftRight_eq_div_pow _ _
  have hand : c.bitPos &&& 7 = c.bitPos % 8 := and_bitMask c.bitPos 3
  have hsplit : c.bitPos = c.bitPos % 8 + c.bitPos / 8 * 8 := (Nat.mod_add_div' _ 8).symm
  simp only [CStream.flushBits, hshift, hand]
  refine ⟨hroom, ?_, by dsimp only; omega, ?_, ?_, fun hp => ?_, fun hp => ?_, fun j hj => ?_⟩
  · dsimp only
    split_ifs <;> omega
  · show c.bitContainer >>> (c.bitPos / 8 * 8) < 2 ^ (c.bitPos % 8)
    rw [Nat.shiftRight_eq_div_pow, Nat.div_lt_iff_lt_mul (Nat.two_pow_pos _), ← Nat.pow_add, ← hsplit]
    exact h.clean
  · dsimp only
    split_ifs <;> omega
  · dsimp only at hp ⊢
    have := h.len_eq (by split_ifs at hp <;> omega)
    split_ifs at hp ⊢ <;> omega
  · dsimp only at hp ⊢
    have hin : ¬ c.endPtr < c.ptr + c.bitPos / 8 := by
      intro hover
      rw [if_pos hover] at hp
      exact Nat.lt_irrefl _ hp
    rw [if_neg hin] at hp ⊢
    have hc64 : c.bitContainer < 2 ^ 64 :=
      lt_of_lt_of_le h.clean (Nat.pow_le_pow_right (by omega) hpos.le)
    have hw := flushed_value c.dst (p := c.ptr) hc64
    -- the first `bitPos / 8` bytes of the register are below the new `ptr`
    have hlow : leValue (leStore c.dst c.ptr c.bitContainer 8) c.ptr (c.bitPos / 8) =
        c.bitContainer % 256 ^ (c.bitPos / 8) := by
      rw [← leValue_mod _ 8 (by omega), leValue_leStore,
        Nat.mod_mod_of_dvd _ (Nat.pow_dvd_pow 256 (by omega))]
    have hold : leValue (leStore c.dst c.ptr c.bitContainer 8) 0 c.ptr = leValue c.dst 0 c.ptr :=
      leValue_congr fun k hk => leStore_out _ _ (by omega)
    rw [h.val_eq (by omega), leValue_add, hold, Nat.zero_add, hlow, Nat.shiftRight_eq_div_pow,
      Nat.mul_comm (c.bitPos / 8) 8, ← pow_256, Nat.pow_add, Nat.add_assoc, Nat.mul_assoc,
      ← Nat.mul_add, Nat.mod_add_div]
  · dsimp only
    rw [leStore_out _ _ (by omega)]
    exact h.kept j hj

theorem flushBits_pos (c : CStream) : c.flushBits.bitPos < 8 := by
  show c.bitPos &&& 7 < 8
  rw [show c.bitPos &&& 7 = c.bitPos % 8 from and_bitMask c.bitPos 3]
  omega

/-- A flush that does not end at `endPtr` has moved `ptr` by the whole bytes. -/
theorem flushBits_ptr (h : c.flushBits.ptr < c.endPtr) :
    c.ptr < c.endPtr ∧ c.flushBits.ptr = c.ptr + c.bitPos / 8 := by
  have hptr : c.flushBits.ptr =
      if c.endPtr < c.ptr + c.bitPos / 8 then c.endPtr else c.ptr + c.bitPos / 8 := by
    rw [← show c.bitPos >>> 3 = c.bitPos / 8 from Nat.shiftRight_eq_div_pow _ _]
    rfl
  rw [hptr] at h ⊢
  split_ifs at h ⊢ with hover
  · exact absurd h (Nat.lt_irrefl _)
  · exact ⟨by omega, rfl⟩

/-- With room left the two flushes are one. -/
theorem flushBitsFast_eq (h : c.ptr + c.bitPos / 8 ≤ c.endPtr) : c.flushBitsFast = c.flushBits := by
  have hshift : c.bitPos >>> 3 = c.bitPos / 8 := Nat.shiftRight_eq_div_pow _ _
  simp only [CStream.flushBitsFast, CStream.flushBits, hshift, if_neg (Nat.not_lt.mpr h)]

/-- After a flush the memory has every bit of the stack, those left in the register included. -/
theorem Holds.flushed (h : Holds dst cap c b) {m : ℕ} (hp : c.ptr < c.endPtr) (hm : b.len ≤ 8 * m)
    (hm8 : m ≤ c.ptr + 8) : leValue c.flushBits.dst 0 m = b.val := by
  have hc64 : c.bitContainer < 2 ^ 64 :=
    lt_of_lt_of_le h.clean (Nat.pow_le_pow_right (by omega) h.pos_lt.le)
  have hw := flushed_value c.dst (p := c.ptr) hc64
  rw [← h.val_eq hp] at hw
  show leValue (leStore c.dst c.ptr c.bitContainer 8) 0 m = b.val
  rw [← leValue_mod _ (c.ptr + 8) hm8, hw, pow_256]
  exact Nat.mod_eq_of_lt (lt_of_lt_of_le b.val_lt (Nat.pow_le_pow_right (by omega) hm))

/-- **The closed stream**: its size is that of the fields and the end mark, 0 exactly where they and
eight bytes do not fit, and its bytes are the fields with the mark on top. -/
theorem Holds.close (h : Holds dst cap c b) (hpos : c.bitPos < 63) :
    c.close.1 = (if (b.len + 1) / 8 + 8 < cap then b.len / 8 + 1 else 0) ∧
      (c.close.1 ≠ 0 → leValue c.close.2 0 c.close.1 = b.val + 2 ^ b.len) ∧
      ∀ j, cap ≤ j → c.close.2 j = dst j := by
  have hmark := h.addBitsFast 1 1 (by omega) (by decide)
  have hf := hmark.flushBits
  have hlt := flushBits_pos (c.addBitsFast 1 1)
  have hval : (b.push 1 1).val = b.val + 2 ^ b.len := by
    show b.val + 2 ^ b.len * (1 % 2 ^ 1) = _
    rw [Nat.mod_eq_of_lt (by decide), Nat.mul_one]
  set f := (c.addBitsFast 1 1).flushBits with hfdef
  have hge : 8 * f.ptr + f.bitPos ≤ b.len + 1 := hf.len_ge
  have hroom := hf.room
  have hle := hf.ptr_le
  have hsize : c.close.1 = if f.endPtr ≤ f.ptr then 0 else f.ptr + if 0 < f.bitPos then 1 else 0 := rfl
  by_cases hp : f.ptr < f.endPtr
  · have heq : b.len + 1 = 8 * f.ptr + f.bitPos := hf.len_eq hp
    have hceil : c.close.1 = b.len / 8 + 1 := by
      rw [hsize, if_neg (Nat.not_le.mpr hp)]
      split_ifs <;> omega
    have hfits : (b.len + 1) / 8 + 8 < cap := by omega
    rw [if_pos hfits]
    refine ⟨hceil, fun _ => ?_, hf.kept⟩
    obtain ⟨hstart, hnear⟩ := flushBits_ptr (c := c.addBitsFast 1 1) hp
    rw [← hfdef] at hnear
    have hpos' : (c.addBitsFast 1 1).bitPos = c.bitPos + 1 := rfl
    rw [hceil, ← hval]
    refine hmark.flushed hstart ?_ ?_
    · show b.len + 1 ≤ 8 * (b.len / 8 + 1)
      omega
    · show b.len / 8 + 1 ≤ (c.addBitsFast 1 1).ptr + 8
      omega
  · have hover : c.close.1 = 0 := by rw [hsize, if_pos (Nat.le_of_not_lt hp)]
    have hfits : ¬ (b.len + 1) / 8 + 8 < cap := by omega
    rw [if_neg hfits]
    exact ⟨hover, fun hne => absurd hover hne, hf.kept⟩

end CStream

/-! ## What the reader holds -/

/-- The reader over `srcSize` bytes still has the stack `b`. -/
structure DStream.Holds (src : Mem) (srcSize : ℕ) (d : DStream) (b : BitStack) (p : ℕ) : Prop where
  ptr : d.ptr = some p
  inside : p + 8 ≤ srcSize ∨ p = 0 ∧ srcSize < 8
  consumed_le : d.bitsConsumed ≤ 64
  len : b.len + d.bitsConsumed = 8 * p + 64
  container : d.bitContainer = leValue src 0 srcSize / 2 ^ (8 * p) % 2 ^ 64
  val : b.val = leValue src 0 srcSize % 2 ^ b.len

/-- The reader can give the next `k` bits, or all there are, without a reload. -/
def DStream.Ready (d : DStream) (b : BitStack) (k : ℕ) : Prop := d.bitsConsumed + min k b.len ≤ 64

namespace DStream

variable {src : Mem} {srcSize p n k : ℕ} {d : DStream} {b : BitStack}

/-- The bits below the highest one of the last byte. -/
def stackOf (src : Mem) (srcSize : ℕ) : BitStack :=
  let len := 8 * (srcSize - 1) + highbit32 (src (srcSize - 1)).toNat
  ⟨len, leValue src 0 srcSize % 2 ^ len, Nat.mod_lt _ (Nat.two_pow_pos _)⟩

/-- **A stream with an end mark** is accepted, and its fields are ready to be read. -/
theorem init_holds (hsize : 1 ≤ srcSize) (hlast : src (srcSize - 1) ≠ 0) :
    ∃ d p, initDStream src srcSize = .ok d ∧ d.Holds src srcSize (stackOf src srcSize) p ∧
      d.Ready (stackOf src srcSize) 56 := by
  have hne : (src (srcSize - 1)).toNat ≠ 0 := fun h => hlast (UInt8.toNat_inj.mp h)
  have hlog : highbit32 (src (srcSize - 1)).toNat < 8 := by
    rw [highbit32, Nat.log2_lt hne]
    exact (src (srcSize - 1)).toNat_lt
  have hlen : (stackOf src srcSize).len = 8 * (srcSize - 1) + highbit32 (src (srcSize - 1)).toNat := rfl
  unfold initDStream
  rw [if_neg (by omega)]
  dsimp only
  by_cases h8 : 8 ≤ srcSize
  · rw [if_pos h8, if_neg hne]
    refine ⟨_, srcSize - 8, rfl, ⟨rfl, .inl (by omega), ?_, ?_, ?_, rfl⟩, ?_⟩
    · dsimp only
      omega
    · dsimp only
      omega
    · show leValue src (srcSize - 8) 8 = leValue src 0 srcSize / 2 ^ (8 * (srcSize - 8)) % 2 ^ 64
      rw [← pow_256, leValue_div _ (by omega), Nat.zero_add, show srcSize - (srcSize - 8) = 8 by omega,
        two_pow_64, Nat.mod_eq_of_lt (leValue_lt src 8)]
    · unfold Ready
      dsimp only
      omega
  · rw [if_neg h8, if_neg hne]
    refine ⟨_, 0, rfl, ⟨rfl, .inr ⟨rfl, by omega⟩, ?_, ?_, ?_, rfl⟩, ?_⟩
    · dsimp only
      omega
    · dsimp only
      omega
    · have hlt : leValue src 0 srcSize < 2 ^ 64 :=
        lt_of_lt_of_le (leValue_lt src srcSize) (Nat.pow_le_pow_right (by omega) (by omega) :
          256 ^ srcSize ≤ 256 ^ 8)
      show leValue src 0 srcSize = _
      rw [Nat.mul_zero, Nat.pow_zero, Nat.div_one, Nat.mod_eq_of_lt hlt]
    · unfold Ready
      dsimp only
      omega

/-- Within the register the next field is the top of the stack. -/
theorem Holds.shift (h : d.Holds src srcSize b p) (hn : d.bitsConsumed + n ≤ 64) (hb : n ≤ b.len) :
    d.bitContainer / 2 ^ (64 - d.bitsConsumed - n) % 2 ^ n = b.top n := by
  have hlen := h.len
  have hc := h.consumed_le
  set S := leValue src 0 srcSize with hS
  have hsplit : 2 ^ b.len = 2 ^ (b.len - n) * 2 ^ n := by
    rw [← Nat.pow_add, Nat.sub_add_cancel hb]
  have htop : b.top n = S / 2 ^ (b.len - n) % 2 ^ n := by
    rw [BitStack.top, h.val, hsplit, Nat.mod_mul_right_div_self]
  have hmod : 2 ^ 64 = 2 ^ (64 - d.bitsConsumed - n) * 2 ^ (d.bitsConsumed + n) := by
    rw [← Nat.pow_add]
    congr 1
    omega
  rw [htop, h.container, hmod, Nat.mod_mul_right_div_self, Nat.div_div_eq_div_mul, ← Nat.pow_add,
    Nat.mod_mod_of_dvd _ (Nat.pow_dvd_pow 2 (Nat.le_add_left n _))]
  congr 3
  omega

/-- **Reading a field** of a ready stack. -/
theorem Holds.readBits (h : d.Holds src srcSize b p) (hr : d.Ready b k) (hn : n ≤ k)
    (hb : n ≤ b.len) :
    (d.readBits n).1 = b.top n ∧ (d.readBits n).2.Holds src srcSize (b.pop n) p ∧
      (d.readBits n).2.Ready (b.pop n) (k - n) := by
  have hc : d.bitsConsumed + n ≤ 64 := by
    unfold Ready at hr
    omega
  have hlen := h.len
  refine ⟨?_, ⟨h.ptr, h.inside, hc, ?_, h.container, ?_⟩, ?_⟩
  · show (d.bitContainer >>> ((2 ^ 64 + 64 - d.bitsConsumed - n) % 64)) &&& bitMask n = b.top n
    rw [and_bitMask, Nat.shiftRight_eq_div_pow, ← h.shift hc hb]
    by_cases h0 : d.bitsConsumed + n = 0
    · obtain ⟨hc0, rfl⟩ : d.bitsConsumed = 0 ∧ n = 0 := by omega
      rw [Nat.pow_zero, Nat.mod_one, Nat.mod_one]
    · congr 3
      omega
  · show b.len - n + (d.bitsConsumed + n) = 8 * p + 64
    omega
  · show b.val % 2 ^ (b.len - n) = leValue src 0 srcSize % 2 ^ (b.len - n)
    rw [h.val, Nat.mod_mod_of_dvd _ (Nat.pow_dvd_pow 2 (by omega))]
  · unfold Ready at hr ⊢
    show d.bitsConsumed + n + min (k - n) (b.len - n) ≤ 64
    omega

/-- The fast reader agrees where it is used: on at least one bit. -/
theorem Holds.readBitsFast (h : d.Holds src srcSize b p) (hr : d.Ready b k) (hn : n ≤ k)
    (hb : n ≤ b.len) (h0 : 0 < n) : d.readBitsFast n = d.readBits n := by
  have hc : d.bitsConsumed + n ≤ 64 := by
    unfold Ready at hr
    omega
  have hread := (h.readBits hr hn hb).1
  refine Prod.ext ?_ rfl
  rw [hread, ← h.shift hc hb]
  show ((d.bitContainer <<< (d.bitsConsumed % 64)) % 2 ^ 64) >>> ((64 - n) % 64) = _
  rw [Nat.shiftLeft_eq, Nat.shiftRight_eq_div_pow, Nat.mod_eq_of_lt (show d.bitsConsumed < 64 by omega),
    Nat.mod_eq_of_lt (show 64 - n < 64 by omega)]
  have h64 : 2 ^ 64 = 2 ^ (64 - n) * 2 ^ n := by
    rw [← Nat.pow_add]
    congr 1
    omega
  have hshift : 2 ^ (64 - n) = 2 ^ d.bitsConsumed * 2 ^ (64 - d.bitsConsumed - n) := by
    rw [← Nat.pow_add]
    congr 1
    omega
  rw [h64, Nat.mod_mul_right_div_self, hshift, ← Nat.div_div_eq_div_mul,
    Nat.mul_div_cancel _ (Nat.two_pow_pos _)]

/-- What a reload does to a reader that has not read past its register. -/
theorem Holds.reload (h : d.Holds src srcSize b p) :
    (∃ p', (DStream.reload src d).2.Holds src srcSize b p') ∧ (DStream.reload src d).2.Ready b 57 ∧
      ((DStream.reload src d).1 ≠ .overflow) ∧
      ((DStream.reload src d).1 = .unfinished → (DStream.reload src d).2.bitsConsumed ≤ 7) := by
  have hlen := h.len
  have hc := h.consumed_le
  have hshift : d.bitsConsumed >>> 3 = d.bitsConsumed / 8 := Nat.shiftRight_eq_div_pow _ _
  have hand : d.bitsConsumed &&& 7 = d.bitsConsumed % 8 := and_bitMask d.bitsConsumed 3
  -- the register at a lower position of a stream of eight bytes or more
  have hlower : ∀ q, q ≤ p → 8 ≤ srcSize →
      leValue src q 8 = leValue src 0 srcSize / 2 ^ (8 * q) % 2 ^ 64 := fun q hq h8 => by
    have hin := h.inside
    rw [← pow_256, leValue_div _ (by omega), Nat.zero_add, two_pow_64, leValue_mod _ _ (by omega)]
  have hin := h.inside
  unfold DStream.reload
  rw [if_neg (by omega), h.ptr]
  dsimp only
  by_cases h8 : 8 ≤ p
  · rw [if_pos h8, reloadInternal, hshift, hand]
    refine ⟨⟨p - d.bitsConsumed / 8, rfl, .inl (by omega), ?_, ?_, hlower _ (by omega) (by omega), h.val⟩,
      ?_, by simp, fun _ => ?_⟩
    · dsimp only
      omega
    · dsimp only
      omega
    · unfold Ready
      dsimp only
      omega
    · dsimp only
      omega
  · rw [if_neg h8]
    by_cases h0 : p = 0
    · rw [if_pos h0]
      refine ⟨⟨p, h⟩, ?_, ?_, fun hu => ?_⟩
      · show d.bitsConsumed + min 57 b.len ≤ 64
        omega
      · split_ifs <;> simp
      · dsimp only at hu
        split_ifs at hu
    · rw [if_neg h0, hshift]
      by_cases hfar : p < d.bitsConsumed / 8
      · rw [if_pos hfar]
        refine ⟨⟨0, rfl, .inl (by omega), ?_, ?_, hlower 0 (by omega) (by omega), h.val⟩, ?_, by simp,
          fun hu => nomatch hu⟩
        · dsimp only
          omega
        · dsimp only
          omega
        · unfold Ready
          dsimp only
          omega
      · rw [if_neg hfar]
        refine ⟨⟨p - d.bitsConsumed / 8, rfl, .inl (by omega), ?_, ?_, hlower _ (by omega) (by omega),
          h.val⟩, ?_, by simp, fun _ => ?_⟩
        · dsimp only
          omega
        · dsimp only
          omega
        · unfold Ready
          dsimp only
          omega
        · dsimp only
          omega

/-- Asking for more bits than there are shows at the next reload. -/
theorem Holds.reload_overflow (h : d.Holds src srcSize b p) (hn : b.len < n) :
    (DStream.reload src (d.skipBits n)).1 = .overflow := by
  have hlen := h.len
  unfold DStream.reload
  rw [if_pos]
  show 64 < d.bitsConsumed + n
  omega

/-- The reader is at its end when the stack is empty. -/
theorem Holds.end_iff (h : d.Holds src srcSize b p) : d.endOfDStream = true ↔ b.len = 0 := by
  have hlen := h.len
  have hc := h.consumed_le
  rw [endOfDStream, decide_eq_true_iff, h.ptr, Option.some_inj]
  omega

/-- A closed writer's bytes are a stream with an end mark, on the writer's own stack. -/
theorem stackOf_mark (hsize : srcSize = b.len / 8 + 1)
    (hval : leValue src 0 srcSize = b.val + 2 ^ b.len) :
    src (srcSize - 1) ≠ 0 ∧ stackOf src srcSize = b := by
  have hlast : (src (b.len / 8)).toNat = (b.val + 2 ^ b.len) / 2 ^ (8 * (b.len / 8)) := by
    rw [← hval, hsize, ← pow_256, leValue_div _ (Nat.le_add_right _ 1), Nat.zero_add,
      Nat.add_sub_cancel_left]
    rfl
  have hsplit : 2 ^ b.len = 2 ^ (b.len % 8) * 2 ^ (8 * (b.len / 8)) := by
    rw [← Nat.pow_add, Nat.mod_add_div]
  have hlow : 2 ^ (b.len % 8) ≤ (b.val + 2 ^ b.len) / 2 ^ (8 * (b.len / 8)) := by
    rw [Nat.le_div_iff_mul_le (Nat.two_pow_pos _), ← hsplit]
    exact Nat.le_add_left _ _
  have hhigh : (b.val + 2 ^ b.len) / 2 ^ (8 * (b.len / 8)) < 2 ^ (b.len % 8 + 1) := by
    rw [Nat.div_lt_iff_lt_mul (Nat.two_pow_pos _), Nat.pow_succ, Nat.mul_right_comm, ← hsplit]
    have := b.val_lt
    omega
  have hpos := Nat.two_pow_pos (b.len % 8)
  have hne : (src (b.len / 8)).toNat ≠ 0 := by omega
  have hlog : highbit32 (src (b.len / 8)).toNat = b.len % 8 := by
    rw [highbit32, Nat.log2_eq_iff hne, hlast]
    exact ⟨hlow, hhigh⟩
  have hpred : srcSize - 1 = b.len / 8 := by omega
  have hlen : (stackOf src srcSize).len = b.len := by
    show 8 * (srcSize - 1) + highbit32 (src (srcSize - 1)).toNat = b.len
    rw [hpred, hlog]
    omega
  refine ⟨fun h0 => ?_, BitStack.ext hlen ?_⟩
  · rw [hpred] at h0
    exact hne (by rw [h0]; rfl)
  · show leValue src 0 srcSize % 2 ^ (stackOf src srcSize).len = b.val
    rw [hlen, hval, Nat.add_mod_right, Nat.mod_eq_of_lt b.val_lt]

end DStream

/-! ## Runs -/

/-- What a coder asks of the writer. -/
inductive WriteOp where
  | add (value nbBits : ℕ)
  | flush

/-- What a decoder asks of the reader. -/
inductive ReadOp where
  | read (nbBits : ℕ)
  | reload

/-- The fields of a coder's requests: width and value. -/
def fields : List WriteOp → List (ℕ × ℕ)
  | [] => []
  | .add value nbBits :: ops => (nbBits, value) :: fields ops
  | .flush :: ops => fields ops

/-- The widths a decoder asks for. -/
def widths : List ReadOp → List ℕ
  | [] => []
  | .read nbBits :: ops => nbBits :: widths ops
  | .reload :: ops => widths ops

/-- The register never overflows: from `pos` bits, every field stays below 64 and the end mark finds
room. -/
def Fits : ℕ → List WriteOp → Prop
  | pos, [] => pos < 63
  | pos, .add _ nbBits :: ops => nbBits < 32 ∧ pos + nbBits < 64 ∧ Fits (pos + nbBits) ops
  | pos, .flush :: ops => Fits (pos % 8) ops

/-- Reloads come in time: `k` bits are ready, a reload makes it 57. -/
def Paced : ℕ → List ReadOp → Prop
  | _, [] => True
  | k, .read nbBits :: ops => nbBits < 32 ∧ nbBits ≤ k ∧ Paced (k - nbBits) ops
  | _, .reload :: ops => Paced 57 ops

def CStream.run (c : CStream) : List WriteOp → CStream
  | [] => c
  | .add value nbBits :: ops => (c.addBits value nbBits).run ops
  | .flush :: ops => c.flushBits.run ops

def DStream.run (src : Mem) (d : DStream) : List ReadOp → List ℕ × DStream
  | [] => ([], d)
  | .read nbBits :: ops =>
    ((d.readBits nbBits).1 :: (DStream.run src (d.readBits nbBits).2 ops).1,
      (DStream.run src (d.readBits nbBits).2 ops).2)
  | .reload :: ops => DStream.run src (DStream.reload src d).2 ops

theorem CStream.Holds.run {dst : Mem} {cap : ℕ} (ops : List WriteOp) {c : CStream} {b : BitStack}
    (h : c.Holds dst cap b) (hfits : Fits c.bitPos ops) :
    (c.run ops).Holds dst cap (b.pushAll (fields ops)) ∧ (c.run ops).bitPos < 63 := by
  induction ops generalizing c b with
  | nil => exact ⟨h, hfits⟩
  | cons op ops ih =>
    cases op with
    | add value nbBits => exact ih (h.addBits _ _ hfits.2.1) hfits.2.2
    | flush =>
      have hand : c.bitPos &&& 7 = c.bitPos % 8 := and_bitMask c.bitPos 3
      refine ih h.flushBits ?_
      show Fits (c.bitPos &&& 7) ops
      rw [hand]
      exact hfits

theorem DStream.Holds.run {src : Mem} {srcSize : ℕ} (ops : List ReadOp) {d : DStream} {b : BitStack}
    {p k : ℕ} (h : d.Holds src srcSize b p) (hr : d.Ready b k) (hpaced : Paced k ops)
    (hb : (widths ops).sum ≤ b.len) :
    (DStream.run src d ops).1 = (b.tops (widths ops)).1 ∧
      ∃ p', (DStream.run src d ops).2.Holds src srcSize (b.tops (widths ops)).2 p' := by
  induction ops generalizing d b p k with
  | nil => exact ⟨rfl, p, h⟩
  | cons op ops ih =>
    cases op with
    | read n =>
      have hsum : n + (widths ops).sum ≤ b.len := hb
      obtain ⟨hv, hh, hready⟩ := h.readBits hr hpaced.2.1 (by omega : n ≤ b.len)
      obtain ⟨hvs, hend⟩ := ih hh hready hpaced.2.2 (by rw [BitStack.pop_len]; omega)
      exact ⟨congrArg₂ List.cons hv hvs, hend⟩
    | reload =>
      obtain ⟨⟨p', hh⟩, hready, -, -⟩ := h.reload
      exact ih hh hready hpaced hb

/-- **Round trip of a bit stream.**  Whatever fields are added, flushes and reloads in time, the closed
stream has the size of its fields and end mark, or 0 where they and eight bytes do not fit; nothing
past the capacity is written; and a reader of those bytes that asks for the widths in reverse gets the
values in reverse and stands at the end. -/
theorem bitstream_roundTrip (dst : Mem) {cap : ℕ} (hcap : 8 < cap) {ops : List WriteOp}
    (hfits : Fits 0 ops) :
    ∃ c, initCStream dst cap = .ok c ∧
      (∀ j, cap ≤ j → (c.run ops).close.2 j = dst j) ∧
      (c.run ops).close.1 = (if (((fields ops).map Prod.fst).sum + 1) / 8 + 8 < cap
        then ((fields ops).map Prod.fst).sum / 8 + 1 else 0) ∧
      ∀ (src : Mem) (rops : List ReadOp), (c.run ops).close.1 ≠ 0 →
        (∀ j < (c.run ops).close.1, src j = (c.run ops).close.2 j) → Paced 56 rops →
        widths rops = ((fields ops).map Prod.fst).reverse →
        ∃ d, initDStream src (c.run ops).close.1 = .ok d ∧
          (DStream.run src d rops).1 = ((fields ops).map fun f => f.2 % 2 ^ f.1).reverse ∧
          (DStream.run src d rops).2.endOfDStream = true := by
  obtain ⟨c, hinit, hholds, hpos⟩ := CStream.init_holds dst hcap
  obtain ⟨hrun, hlt⟩ := hholds.run ops (by rw [hpos]; exact hfits)
  obtain ⟨hsize, hval, hkept⟩ := hrun.close hlt
  have hlen : (BitStack.empty.pushAll (fields ops)).len = ((fields ops).map Prod.fst).sum := by
    rw [BitStack.pushAll_len, BitStack.empty_len, Nat.zero_add]
  rw [hlen] at hsize
  refine ⟨c, hinit, hkept, hsize, fun src rops hne hsrc hpaced hwidths => ?_⟩
  have hsz : (c.run ops).close.1 = (BitStack.empty.pushAll (fields ops)).len / 8 + 1 := by
    rw [hlen, hsize]
    rw [hsize] at hne
    split_ifs at hne ⊢ with hroom
    · rfl
    · exact absurd rfl hne
  have hbytes : leValue src 0 (c.run ops).close.1 = leValue (c.run ops).close.2 0 (c.run ops).close.1 :=
    leValue_congr fun k hk => by rw [Nat.zero_add]; exact hsrc k hk
  obtain ⟨hmark, hstack⟩ := DStream.stackOf_mark hsz (hbytes.trans (hval hne))
  obtain ⟨d, p, hopen, hread, hready⟩ := DStream.init_holds (by omega) hmark
  rw [hstack] at hread hready
  have htops := BitStack.tops_pushAll .empty (fields ops)
  rw [← hwidths] at htops
  obtain ⟨hvals, p', hend⟩ := hread.run rops hready hpaced (by rw [hlen, hwidths, List.sum_reverse])
  rw [htops] at hvals hend
  exact ⟨d, hopen, hvals, hend.end_iff.mpr rfl⟩

theorem bitstream_roundTrip_two :
    ∃ c d, initCStream (fun _ => 0) 16 = .ok c ∧
      initDStream (c.run [.add 5 3, .flush, .add 9 6]).close.2
        (c.run [.add 5 3, .flush, .add 9 6]).close.1 = .ok d ∧
      (DStream.run (c.run [.add 5 3, .flush, .add 9 6]).close.2 d [.read 6, .reload, .read 3]).1 =
        [9, 5] := by
  have hfits : Fits 0 [.add 5 3, .flush, .add 9 6] := by simp [Fits]
  obtain ⟨c, hinit, -, hsize, hread⟩ :=
    bitstream_roundTrip (fun _ => 0) (show 8 < 16 by decide) hfits
  have hne : (c.run [.add 5 3, .flush, .add 9 6]).close.1 ≠ 0 := by
    rw [hsize]
    decide
  obtain ⟨d, hopen, hvals, -⟩ := hread _ [.read 6, .reload, .read 3] hne (fun _ _ => rfl)
    (by simp [Paced]) rfl
  exact ⟨c, d, hinit, hopen, hvals⟩

end ZramUpgrade.Zstd
