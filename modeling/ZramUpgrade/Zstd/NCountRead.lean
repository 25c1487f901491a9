import ZramUpgrade.Zstd.NCount

/-!
# Zstd.NCountRead — `FSE_readNCount`

The reader sees the header through a window of 32 bits, which near the end of the buffer stays on the
last four bytes (`Window`).  It takes back what the writer wrote (`nCount_roundTrip`); of any other
bytes it makes a distribution or an error, but for the one count that no `short` holds
(`readNCount_distribution`).
-/

namespace ZramUpgrade.Zstd

open Lib

/-! ## The reader -/

/-- `ZSTD_countTrailingZeros32`, over the low `n` bits. -/
def countTrailingZeros : ℕ → ℕ → ℕ
  | 0, _ => 0
  | n + 1, val => if val % 2 = 1 then 0 else countTrailingZeros n (val / 2) + 1

/-- `ZSTD_countTrailingZeros32(~bitStream | 0x80000000) >> 1`. -/
def repeatsOf (bitStream : ℕ) : ℕ :=
  countTrailingZeros 32 ((2 ^ 32 - 1 - bitStream) ||| 0x80000000) >>> 1

/-- The locals of `FSE_readNCount_body`; `ip` is an offset. -/
structure NCountReader where
  ip : ℕ
  bitStream : ℕ
  bitCount : ℕ
  remaining : ℤ
  threshold : ℕ
  nbBits : ℕ
  charnum : ℕ
  previous0 : Bool
  nc : ℕ → ℤ

namespace NCountReader

variable (src : Mem) (hbSize : ℕ)

/-- `bitStream = MEM_readLE32(ip) >> bitCount`. -/
def fetch (r : NCountReader) : NCountReader := { r with bitStream := leValue src r.ip 4 >>> r.bitCount }

/-- On by the bytes of `bitCount`, but not past the last four. -/
def advance (r : NCountReader) : NCountReader :=
  if r.ip + 7 ≤ hbSize ∨ r.ip + r.bitCount >>> 3 + 4 ≤ hbSize then
    fetch src { r with ip := r.ip + r.bitCount >>> 3, bitCount := r.bitCount &&& 7 }
  else
    fetch src { r with ip := hbSize - 4, bitCount := (r.bitCount - 8 * (hbSize - 4 - r.ip)) &&& 31 }

/-- Twelve repeats at once. -/
def advance12 (r : NCountReader) : NCountReader :=
  if r.ip + 7 ≤ hbSize then fetch src { r with ip := r.ip + 3, charnum := r.charnum + 3 * 12 }
  else
    fetch src { r with
      ip := hbSize - 4, charnum := r.charnum + 3 * 12
      bitCount := (r.bitCount + 8 * (r.ip + 7 - hbSize)) &&& 31 }

/-- `while (repeats >= 12)`. -/
def repeats12 : ℕ → NCountReader → NCountReader
  | 0, r => r
  | n + 1, r => if 12 ≤ repeatsOf r.bitStream then repeats12 n (r.advance12 src hbSize) else r

/-- The run of zeros after a zero, up to its final pair of bits. -/
def zeros (r : NCountReader) : NCountReader :=
  let r := r.repeats12 src hbSize (hbSize + 3)
  let repeats := repeatsOf r.bitStream
  let bitStream := r.bitStream >>> (2 * repeats)
  { r with
    bitStream
    charnum := r.charnum + 3 * repeats + (bitStream &&& 3)
    bitCount := r.bitCount + 2 * repeats + 2 }

/-- The cast `(short)count`. -/
def short (count : ℤ) : ℤ := count.bmod (2 ^ 16)

/-- The count of a symbol. -/
def count (r : NCountReader) : NCountReader :=
  let max : ℤ := 2 * r.threshold - 1 - r.remaining
  let low := r.bitStream &&& (r.threshold - 1)
  let full := r.bitStream &&& (2 * r.threshold - 1)
  let (count, bits) : ℤ × ℕ :=
    -- the comparison is one of `U32`
    if low < (max % 2 ^ 32).toNat then (low, r.nbBits - 1)
    else (if r.threshold ≤ full then full - max else full, r.nbBits)
  -- extra accuracy
  let count := count - 1
  { r with
    bitCount := r.bitCount + bits
    remaining := if 0 ≤ count then r.remaining - count else r.remaining + count
    nc := Function.update r.nc r.charnum (short count)
    charnum := r.charnum + 1
    previous0 := count = 0 }

/-- The `for` loop; every turn takes a symbol. -/
def loop (maxSV1 : ℕ) : ℕ → NCountReader → NCountReader
  | 0, r => r
  | n + 1, r =>
    let r := if r.previous0 then r.zeros src hbSize else r
    if r.previous0 ∧ maxSV1 ≤ r.charnum then r
    else
      let r := if r.previous0 then r.advance src hbSize else r
      let r := r.count
      if r.remaining < r.threshold ∧ r.remaining ≤ 1 then r
      else
        let nbBits := if r.remaining < r.threshold then highbit32 r.remaining.toNat + 1 else r.nbBits
        let threshold := if r.remaining < r.threshold then 1 <<< (nbBits - 1) else r.threshold
        let r := { r with nbBits, threshold }
        if maxSV1 ≤ r.charnum then r else loop maxSV1 n (r.advance src hbSize)

end NCountReader

/-- What `FSE_readNCount` gives: the counts, the last symbol, `tableLog` and the size. -/
structure NCountResult where
  nc : ℕ → ℤ
  maxSymbolValue : ℕ
  tableLog : ℕ
  size : ℕ

/-- `FSE_readNCount_body` on eight bytes or more, over what `normalizedCounter` held. -/
def readNCountBody (nc : ℕ → ℤ) (maxSymbolValue : ℕ) (src : Mem) (hbSize : ℕ) :
    Except ErrorCode NCountResult :=
  let maxSV1 := maxSymbolValue + 1
  let bitStream := leValue src 0 4
  let nbBits := (bitStream &&& 0xF) + 5
  if 15 < nbBits then .error .tableLogTooLarge
  else
    let r : NCountReader :=
      { ip := 0, bitStream := bitStream >>> 4, bitCount := 4, remaining := (1 <<< nbBits : ℕ) + 1
        threshold := 1 <<< nbBits, nbBits := nbBits + 1, charnum := 0, previous0 := false
        nc := fun s => if s ≤ maxSymbolValue then 0 else nc s }
    let r := r.loop src hbSize maxSV1 maxSV1
    if r.remaining ≠ 1 then .error .corruptionDetected
    else if maxSV1 < r.charnum then .error .maxSymbolValueTooSmall
    else if 32 < r.bitCount then .error .corruptionDetected
    else .ok ⟨r.nc, r.charnum - 1, nbBits, r.ip + (r.bitCount + 7) >>> 3⟩

/-- `FSE_readNCount`: fewer than eight bytes are read from a buffer filled up with zeros. -/
def readNCount (nc : ℕ → ℤ) (maxSymbolValue : ℕ) (src : Mem) (hbSize : ℕ) :
    Except ErrorCode NCountResult :=
  if hbSize < 8 then
    match readNCountBody nc maxSymbolValue (memcpy src (fun _ => 0) 0 0 hbSize) 8 with
    | .error e => .error e
    | .ok r => if hbSize < r.size then .error .corruptionDetected else .ok r
  else readNCountBody nc maxSymbolValue src hbSize

/-! ## The window -/

theorem ctz_dvd {n k val : ℕ} (hk : k ≤ n) (h : 2 ^ k ∣ val) : k ≤ countTrailingZeros n val := by
  induction n generalizing k val with
  | zero => exact hk
  | succ n ih =>
    rw [countTrailingZeros]
    cases k with
    | zero => exact Nat.zero_le _
    | succ k =>
      have heven : ¬ val % 2 = 1 := by
        obtain ⟨c, rfl⟩ := h
        rw [Nat.pow_succ, Nat.mul_assoc, Nat.mul_left_comm, Nat.mul_mod_right]
        decide
      rw [if_neg heven]
      refine Nat.succ_le_succ (ih (by omega) ?_)
      obtain ⟨c, rfl⟩ := h
      exact ⟨c, by rw [Nat.pow_succ, Nat.mul_assoc, Nat.mul_left_comm, Nat.mul_div_cancel_left _ (by decide)]⟩

theorem ctz_le {n k val : ℕ} (h : val.testBit k = true) : countTrailingZeros n val ≤ k := by
  induction n generalizing k val with
  | zero => exact Nat.zero_le _
  | succ n ih =>
    rw [countTrailingZeros]
    split_ifs with hodd
    · exact Nat.zero_le _
    · cases k with
      | zero =>
        rw [Nat.testBit_zero] at h
        exact absurd (of_decide_eq_true h) hodd
      | succ k =>
        rw [Nat.testBit_succ] at h
        exact Nat.succ_le_succ (ih h)

section Repeats

variable {bs r : ℕ}

theorem repeats_le (hbs : bs < 2 ^ 32) (hr : r ≤ 15) (h : bs / 4 ^ r % 4 ≠ 3) : repeatsOf bs ≤ r := by
  -- one of the two bits of the pair is zero
  obtain ⟨k, hk, hbit⟩ : ∃ k, k ≤ 2 * r + 1 ∧ bs.testBit k = false := by
    have hpow : (4 : ℕ) ^ r = 2 ^ (2 * r) := by rw [Nat.pow_mul]
    have h0 : bs.testBit (2 * r) = decide (bs / 4 ^ r % 2 = 1) := by
      rw [Nat.testBit_eq_decide_div_mod_eq, hpow]
    have h1 : bs.testBit (2 * r + 1) = decide (bs / 4 ^ r / 2 % 2 = 1) := by
      rw [Nat.testBit_eq_decide_div_mod_eq, hpow, Nat.div_div_eq_div_mul, Nat.pow_succ]
    by_cases hlow : bs / 4 ^ r % 2 = 1
    · exact ⟨2 * r + 1, le_rfl, by rw [h1]; exact decide_eq_false (by omega)⟩
    · exact ⟨2 * r, Nat.le_succ _, by rw [h0]; exact decide_eq_false hlow⟩
  have hctz : countTrailingZeros 32 ((2 ^ 32 - 1 - bs) ||| 0x80000000) ≤ k := by
    refine ctz_le ?_
    rw [Nat.testBit_or, show 2 ^ 32 - 1 - bs = 2 ^ 32 - (bs + 1) by omega,
      Nat.testBit_two_pow_sub_succ hbs, hbit]
    simp only [Bool.not_false, Bool.and_true, Bool.or_eq_true, decide_eq_true_iff]
    exact .inl (by omega)
  unfold repeatsOf
  rw [Nat.shiftRight_eq_div_pow]
  omega

theorem repeats_ge (hr : r ≤ 15) (h : bs % 4 ^ r = 4 ^ r - 1) : r ≤ repeatsOf bs := by
  have hpow : (4 : ℕ) ^ r = 2 ^ (2 * r) := by rw [Nat.pow_mul]
  rw [hpow] at h
  have hdvd : 2 ^ (2 * r) ∣ 2 ^ 32 := Nat.pow_dvd_pow 2 (by omega)
  have hpos := Nat.two_pow_pos (2 * r)
  have hcomp : (2 ^ 32 - 1 - bs) % 2 ^ (2 * r) = 0 := by
    by_cases hlt : bs < 2 ^ 32
    · obtain ⟨c, hc⟩ := hdvd
      have hbs := Nat.div_add_mod bs (2 ^ (2 * r))
      rw [h] at hbs
      have hle : bs / 2 ^ (2 * r) < c := by
        rw [Nat.div_lt_iff_lt_mul hpos, Nat.mul_comm, ← hc]
        exact hlt
      have heq : 2 ^ 32 - 1 - bs = 2 ^ (2 * r) * (c - 1 - bs / 2 ^ (2 * r)) := by
        rw [Nat.sub_sub, Nat.mul_sub, Nat.mul_sub, ← hc]
        omega
      rw [heq, Nat.mul_mod_right]
    · rw [Nat.sub_eq_zero_of_le (by omega), Nat.zero_mod]
  have hmask : 0x80000000 % 2 ^ (2 * r) = 0 := by
    obtain ⟨c, hc⟩ : 2 ^ (2 * r) ∣ 2 ^ 31 := Nat.pow_dvd_pow 2 (by omega)
    rw [show 0x80000000 = 2 ^ 31 from rfl, hc, Nat.mul_mod_right]
  have hctz : 2 * r ≤ countTrailingZeros 32 ((2 ^ 32 - 1 - bs) ||| 0x80000000) := by
    refine ctz_dvd (by omega) (Nat.dvd_of_mod_eq_zero ?_)
    rw [Nat.or_mod_two_pow, hcomp, hmask]
    rfl
  unfold repeatsOf
  rw [Nat.shiftRight_eq_div_pow]
  omega

end Repeats

namespace NCountReader

variable {src : Mem} {hbSize : ℕ} {r : NCountReader}

/-- The window lies in the buffer; it starts in its first byte, or ends at the end. -/
structure Window (src : Mem) (hbSize : ℕ) (r : NCountReader) : Prop where
  room : r.ip + 4 ≤ hbSize
  bit_le : r.bitCount ≤ 31
  near : r.bitCount ≤ 7 ∨ r.ip + 4 = hbSize
  stream : r.bitStream = leValue src r.ip 4 >>> r.bitCount

/-- The bit the window starts at. -/
def bit (r : NCountReader) : ℕ := 8 * r.ip + r.bitCount

theorem Window.lt (h : Window src hbSize r) : r.bitStream < 2 ^ (32 - r.bitCount) := by
  have hle := h.bit_le
  have hlt := leValue_lt src 4 (i := r.ip)
  rw [h.stream, Nat.shiftRight_eq_div_pow, Nat.div_lt_iff_lt_mul (Nat.two_pow_pos _), ← Nat.pow_add,
    Nat.sub_add_cancel (by omega)]
  exact hlt

/-- A window all of whose low 24 bits are ones leaves 24 bits. -/
theorem Window.repeats_lt (h : Window src hbSize r) (hbit : 8 < r.bitCount) :
    repeatsOf r.bitStream < 12 := by
  have hlt := h.lt
  have h24 : 2 ^ (32 - r.bitCount) ≤ 2 ^ 23 := Nat.pow_le_pow_right (by decide) (by omega)
  have h32 : (2 : ℕ) ^ 23 < 2 ^ 32 := by decide
  have hpair : r.bitStream / 4 ^ 11 % 4 ≠ 3 := by
    have : r.bitStream < 4 ^ 11 * 2 := by omega
    have : r.bitStream / 4 ^ 11 < 2 := by rw [Nat.div_lt_iff_lt_mul (by decide)]; omega
    omega
  have := repeats_le (by omega) (by decide) hpair
  omega

/-- A fetch at a place in the buffer. -/
theorem window_fetch (h : r.ip + 4 ≤ hbSize) (hbit : r.bitCount ≤ 31)
    (hnear : r.bitCount ≤ 7 ∨ r.ip + 4 = hbSize) : Window src hbSize (r.fetch src) := ⟨h, hbit, hnear, rfl⟩

theorem and_31_le (x : ℕ) : x &&& 31 ≤ 31 := by
  rw [show x &&& 31 = x % 32 from and_bitMask x 5]
  omega

theorem and_7 (x : ℕ) : x &&& 7 = x % 8 := and_bitMask x 3

theorem shiftRight_3 (x : ℕ) : x >>> 3 = x / 8 := Nat.shiftRight_eq_div_pow x 3

/-- **Advancing** keeps the window in the buffer. -/
theorem window_advance (hroom : r.ip + 4 ≤ hbSize) (hnear : r.ip + 7 ≤ hbSize → r.bitCount ≤ 31) :
    Window src hbSize (r.advance src hbSize) := by
  unfold advance
  rw [shiftRight_3, and_7]
  split_ifs with hfar
  · refine window_fetch ?_ (by show r.bitCount % 8 ≤ 31; omega)
      (.inl (by show r.bitCount % 8 ≤ 7; omega))
    show r.ip + r.bitCount / 8 + 4 ≤ hbSize
    omega
  · exact window_fetch (by show hbSize - 4 + 4 ≤ hbSize; omega) (and_31_le _)
      (.inr (by show hbSize - 4 + 4 = hbSize; omega))

theorem window_advance12 (h : Window src hbSize r) : Window src hbSize (r.advance12 src hbSize) := by
  have hroom := h.room
  have hnear := h.near
  unfold advance12
  split_ifs with hfar
  · exact window_fetch (by show r.ip + 3 + 4 ≤ hbSize; omega) h.bit_le
      (.inl (by show r.bitCount ≤ 7; omega))
  · exact window_fetch (by show hbSize - 4 + 4 ≤ hbSize; omega) (and_31_le _)
      (.inr (by show hbSize - 4 + 4 = hbSize; omega))

/-- The runs of twelve end: near the end of the buffer after three turns at most. -/
theorem repeats12_spec (fuel : ℕ) :
    ∀ {r : NCountReader}, Window src hbSize r → hbSize ≤ r.ip + fuel + 1 →
      Window src hbSize (r.repeats12 src hbSize fuel) ∧
        repeatsOf (r.repeats12 src hbSize fuel).bitStream < 12 := by
  -- on the last four bytes
  have hend : ∀ {r : NCountReader} {fuel : ℕ}, Window src hbSize r → r.ip + 4 = hbSize → 2 ≤ fuel →
      Window src hbSize (r.repeats12 src hbSize fuel) ∧
        repeatsOf (r.repeats12 src hbSize fuel).bitStream < 12 := by
    intro r fuel h hip hfuel
    have hstep : ∀ {r : NCountReader}, r.ip + 4 = hbSize → (r.advance12 src hbSize).ip + 4 = hbSize ∧
        (r.advance12 src hbSize).bitCount = (r.bitCount + 24) % 32 := by
      intro r hip
      unfold advance12
      rw [if_neg (by omega)]
      refine ⟨by show hbSize - 4 + 4 = hbSize; omega, ?_⟩
      show (r.bitCount + 8 * (r.ip + 7 - hbSize)) &&& 31 = _
      rw [show r.ip + 7 - hbSize = 3 by omega]
      exact and_bitMask _ 5
    have hstop : ∀ {r : NCountReader} (fuel : ℕ), Window src hbSize r → 8 < r.bitCount →
        r.repeats12 src hbSize fuel = r := by
      intro r fuel h hbit
      cases fuel with
      | zero => rfl
      | succ fuel =>
        have := h.repeats_lt hbit
        rw [repeats12, if_neg (by omega)]
    obtain ⟨fuel, rfl⟩ : ∃ f, fuel = f + 1 + 1 := ⟨fuel - 2, by omega⟩
    rw [repeats12]
    split_ifs with h12
    · have h1 := window_advance12 h
      obtain ⟨hip1, hbit1⟩ := hstep hip
      have hle : r.bitCount ≤ 8 := by
        by_contra hgt
        have := h.repeats_lt (by omega)
        omega
      by_cases h8 : r.bitCount = 8
      · rw [repeats12]
        split_ifs with h12'
        · have h2 := window_advance12 h1
          obtain ⟨-, hbit2⟩ := hstep hip1
          rw [hstop _ h2 (by omega)]
          exact ⟨h2, h2.repeats_lt (by omega)⟩
        · exact ⟨h1, by omega⟩
      · rw [hstop _ h1 (by omega)]
        exact ⟨h1, h1.repeats_lt (by omega)⟩
    · exact ⟨h, by omega⟩
  induction fuel with
  | zero =>
    intro r h hfuel
    have := h.room
    omega
  | succ fuel ih =>
    intro r h hfuel
    have hroom := h.room
    by_cases hip : r.ip + 4 = hbSize
    · exact hend h hip (by omega)
    · rw [repeats12]
      split_ifs with h12
      · have h1 := window_advance12 h
        by_cases hfar : r.ip + 7 ≤ hbSize
        · refine ih h1 ?_
          have : (r.advance12 src hbSize).ip = r.ip + 3 := by
            unfold advance12
            rw [if_pos hfar]
            rfl
          omega
        · refine hend h1 ?_ (by omega)
          unfold advance12
          rw [if_neg hfar]
          show hbSize - 4 + 4 = hbSize
          omega
      · exact ⟨h, by omega⟩

/-- After a run of zeros the bits can be skipped. -/
theorem zeros_room (h : Window src hbSize r) :
    (r.zeros src hbSize).ip + 4 ≤ hbSize ∧
      ((r.zeros src hbSize).ip + 7 ≤ hbSize → (r.zeros src hbSize).bitCount ≤ 31) := by
  obtain ⟨hw, hlt⟩ := repeats12_spec (hbSize + 3) h (by omega)
  refine ⟨hw.room, fun hfar => ?_⟩
  have hfar : (r.repeats12 src hbSize (hbSize + 3)).ip + 7 ≤ hbSize := hfar
  have := hw.near
  show (r.repeats12 src hbSize (hbSize + 3)).bitCount +
    2 * repeatsOf (r.repeats12 src hbSize (hbSize + 3)).bitStream + 2 ≤ 31
  omega

/-! ## Any bytes -/

section AnyBytes

variable {src' : Mem} {maxSymbolValue tableLog remaining nbBits : ℕ}

/-- The counts so far, and what remains for the symbols from `charnum` on. -/
structure Counts (maxSymbolValue tableLog : ℕ) (r : NCountReader) (rem nb : ℕ) : Prop where
  remaining : r.remaining = rem
  threshold : r.threshold = 2 ^ (nb - 1)
  nbBits : r.nbBits = nb
  hold : Holding rem nb
  more : 1 < rem
  log_le : tableLog ≤ 15
  total : rem + cumul r.nc r.charnum = 2 ^ tableLog + 1
  ge : ∀ s < r.charnum, -1 ≤ r.nc s
  zero : ∀ s, r.charnum ≤ s → s ≤ maxSymbolValue → r.nc s = 0

/-- What the reader gives when nothing remains. -/
structure Done (maxSymbolValue tableLog : ℕ) (r : NCountReader) : Prop where
  pos : 1 ≤ r.charnum
  total : cumul r.nc r.charnum = 2 ^ tableLog
  ge : ∀ s < r.charnum, -1 ≤ r.nc s
  zero : ∀ s, r.charnum ≤ s → s ≤ maxSymbolValue → r.nc s = 0

/-- The reader after a symbol that has all the cells of table log 15: its count wraps. -/
structure Wrapped (maxSymbolValue tableLog : ℕ) (r : NCountReader) : Prop where
  pos : 1 ≤ r.charnum
  tableLog_eq : tableLog = 15
  last : r.nc (r.charnum - 1) = -32768
  before : ∀ s < r.charnum - 1, r.nc s = 0
  zero : ∀ s, r.charnum ≤ s → s ≤ maxSymbolValue → r.nc s = 0

theorem short_eq {c : ℤ} (h : -32768 ≤ c) (h' : c < 32768) : short c = c :=
  Int.bmod_eq_of_le (by omega) (by omega)

/-- The value and the bits of a count: `count` before the extra accuracy is taken off. -/
def countOf (remaining nbBits bitStream : ℕ) : ℕ × ℕ :=
  let max := 2 ^ nbBits - 1 - remaining
  let full := bitStream % 2 ^ nbBits
  if bitStream % 2 ^ (nbBits - 1) < max then (bitStream % 2 ^ (nbBits - 1), nbBits - 1)
  else (if 2 ^ (nbBits - 1) ≤ full then full - max else full, nbBits)

/-- A count is one that what remains allows, in 16 bits at most. -/
theorem countOf_le (hold : Holding remaining nbBits) (bitStream : ℕ) :
    (countOf remaining nbBits bitStream).1 ≤ remaining ∧ (countOf remaining nbBits bitStream).2 ≤ 16 := by
  have hle := hold.le
  have hlow := hold.low
  have hhigh := hold.high
  have hdouble := hold.double
  have hfull : bitStream % 2 ^ nbBits < 2 ^ nbBits := Nat.mod_lt _ (Nat.two_pow_pos _)
  unfold countOf
  dsimp only
  split_ifs <;> dsimp only <;> omega

/-- **Reading a count** takes back its field. -/
theorem countOf_field (hold : Holding remaining nbBits) {c : ℤ} (hge : -1 ≤ c) {bitStream : ℕ}
    (h : bitStream % 2 ^ (countField remaining nbBits c).1 = (countField remaining nbBits c).2) :
    ((countOf remaining nbBits bitStream).1 : ℤ) = c + 1 ∧
      (countOf remaining nbBits bitStream).2 = (countField remaining nbBits c).1 := by
  have hlow := hold.low
  have hhigh := hold.high
  have hdouble := hold.double
  obtain ⟨v, hv⟩ : ∃ v : ℕ, c + 1 = v := ⟨(c + 1).toNat, by omega⟩
  have hlowlt : bitStream % 2 ^ (nbBits - 1) < 2 ^ (nbBits - 1) := Nat.mod_lt _ (Nat.two_pow_pos _)
  -- the full value is the low one, or has the top bit too
  have hfull : bitStream % 2 ^ nbBits = bitStream % 2 ^ (nbBits - 1) ∨
      bitStream % 2 ^ nbBits = bitStream % 2 ^ (nbBits - 1) + 2 ^ (nbBits - 1) := by
    have hmod := Nat.mod_mul (a := 2 ^ (nbBits - 1)) (b := 2) (x := bitStream)
    rw [Nat.mul_comm, ← hdouble] at hmod
    rcases Nat.mod_two_eq_zero_or_one (bitStream / 2 ^ (nbBits - 1)) with h | h <;> rw [h] at hmod
    · exact .inl (by omega)
    · exact .inr (by omega)
  unfold countField at h ⊢
  dsimp only at h ⊢
  rw [hv, Int.toNat_natCast] at h ⊢
  unfold countOf
  dsimp only
  split_ifs at h ⊢ with h1 h2 h3 h4
  all_goals
    dsimp only at h ⊢
    omega

theorem count_eq (hrem : r.remaining = remaining) (hthr : r.threshold = 2 ^ (nbBits - 1))
    (hnb : r.nbBits = nbBits) (hold : Holding remaining nbBits) :
    r.count = { r with
      bitCount := r.bitCount + (countOf remaining nbBits r.bitStream).2
      remaining := (remaining - ((countOf remaining nbBits r.bitStream).1 - 1 : ℤ).natAbs : ℤ)
      nc := Function.update r.nc r.charnum (short ((countOf remaining nbBits r.bitStream).1 - 1))
      charnum := r.charnum + 1
      previous0 := ((countOf remaining nbBits r.bitStream).1 : ℤ) - 1 = 0 } := by
  have hle := hold.le
  have hlow := hold.low
  have hhigh := hold.high
  have hdouble := hold.double
  have h16 : 2 ^ nbBits ≤ 2 ^ 16 := Nat.pow_le_pow_right (by decide) hle
  have hmax : ((2 * ((2 ^ (nbBits - 1) : ℕ) : ℤ) - 1 - remaining) % 2 ^ 32).toNat =
      2 ^ nbBits - 1 - remaining := by omega
  have hmaxz : 2 * ((2 ^ (nbBits - 1) : ℕ) : ℤ) - 1 - remaining = ((2 ^ nbBits - 1 - remaining : ℕ) : ℤ) := by
    omega
  have hm1 : r.bitStream &&& (2 ^ (nbBits - 1) - 1) = r.bitStream % 2 ^ (nbBits - 1) := and_bitMask _ _
  have hm2 : r.bitStream &&& (2 * 2 ^ (nbBits - 1) - 1) = r.bitStream % 2 ^ nbBits := by
    rw [← hdouble]
    exact and_bitMask _ _
  have hcount : (if r.bitStream % 2 ^ (nbBits - 1) < 2 ^ nbBits - 1 - remaining
        then (((r.bitStream % 2 ^ (nbBits - 1) : ℕ) : ℤ), nbBits - 1)
        else (if 2 ^ (nbBits - 1) ≤ r.bitStream % 2 ^ nbBits
          then ((r.bitStream % 2 ^ nbBits : ℕ) : ℤ) - ((2 ^ nbBits - 1 - remaining : ℕ) : ℤ)
          else ((r.bitStream % 2 ^ nbBits : ℕ) : ℤ), nbBits)) =
      (((countOf remaining nbBits r.bitStream).1 : ℤ), (countOf remaining nbBits r.bitStream).2) := by
    unfold countOf
    dsimp only
    split_ifs
    · rfl
    · exact Prod.ext (by dsimp only; omega) rfl
    · rfl
  have habs : (if (0 : ℤ) ≤ (countOf remaining nbBits r.bitStream).1 - 1
        then (remaining : ℤ) - ((countOf remaining nbBits r.bitStream).1 - 1)
        else remaining + ((countOf remaining nbBits r.bitStream).1 - 1)) =
      remaining - (((countOf remaining nbBits r.bitStream).1 - 1 : ℤ).natAbs : ℤ) := by
    split_ifs <;> omega
  unfold count
  dsimp only
  rw [hrem, hthr, hnb, hmax, hm1, hm2, hmaxz, hcount]
  dsimp only
  rw [habs]

/-- **A count** is one that what remains allows, in 16 bits at most. -/
theorem count_spec (hrem : r.remaining = remaining) (hthr : r.threshold = 2 ^ (nbBits - 1))
    (hnb : r.nbBits = nbBits) (hold : Holding remaining nbBits) (hmore : 1 < remaining) :
    ∃ c : ℤ, -1 ≤ c ∧ c.natAbs < remaining ∧ r.count.nc = Function.update r.nc r.charnum (short c) ∧
      r.count.remaining = (remaining - c.natAbs : ℕ) ∧ r.count.bitCount ≤ r.bitCount + 16 := by
  obtain ⟨hle, h16⟩ := countOf_le hold r.bitStream
  rw [count_eq hrem hthr hnb hold]
  refine ⟨_, by omega, by omega, rfl, ?_, by dsimp only; omega⟩
  dsimp only
  omega

/-- The bits and the threshold of the next count. -/
theorem next_bits (hrem : r.remaining = remaining) (hthr : r.threshold = 2 ^ (nbBits - 1))
    (hnb : r.nbBits = nbBits) :
    (if r.remaining < r.threshold then highbit32 r.remaining.toNat + 1 else r.nbBits) =
        nextBits remaining nbBits ∧
      (if r.remaining < r.threshold then 1 <<< (nextBits remaining nbBits - 1) else r.threshold) =
        2 ^ (nextBits remaining nbBits - 1) := by
  have hlt : r.remaining < r.threshold ↔ remaining < 2 ^ (nbBits - 1) := by
    rw [hrem, hthr, Nat.cast_lt]
  rw [hrem, Int.toNat_natCast, ← hrem, hnb, Nat.one_shiftLeft]
  refine ⟨by rw [nextBits]; exact if_congr hlt rfl rfl, ?_⟩
  split_ifs with h
  · rfl
  · rw [hthr, nextBits, if_neg (mt hlt.mpr h)]

/-- The runs of twelve change nothing but the place in the buffer and the symbol. -/
theorem repeats12_same (src : Mem) (hbSize fuel : ℕ) : ∀ r : NCountReader,
    (r.repeats12 src hbSize fuel).nc = r.nc ∧ (r.repeats12 src hbSize fuel).remaining = r.remaining ∧
      (r.repeats12 src hbSize fuel).threshold = r.threshold ∧
      (r.repeats12 src hbSize fuel).nbBits = r.nbBits ∧
      (r.repeats12 src hbSize fuel).previous0 = r.previous0 ∧
      r.charnum ≤ (r.repeats12 src hbSize fuel).charnum := by
  induction fuel with
  | zero => exact fun _ => ⟨rfl, rfl, rfl, rfl, rfl, le_rfl⟩
  | succ fuel ih =>
    intro r
    rw [repeats12]
    split_ifs
    · obtain ⟨h1, h2, h3, h4, h5, h6⟩ := ih (r.advance12 src hbSize)
      have hsame : (r.advance12 src hbSize).nc = r.nc ∧ (r.advance12 src hbSize).remaining = r.remaining ∧
          (r.advance12 src hbSize).threshold = r.threshold ∧ (r.advance12 src hbSize).nbBits = r.nbBits ∧
          (r.advance12 src hbSize).previous0 = r.previous0 ∧
          (r.advance12 src hbSize).charnum = r.charnum + 36 := by
        unfold advance12
        split_ifs <;> exact ⟨rfl, rfl, rfl, rfl, rfl, rfl⟩
      obtain ⟨g1, g2, g3, g4, g5, g6⟩ := hsame
      exact ⟨h1.trans g1, h2.trans g2, h3.trans g3, h4.trans g4, h5.trans g5, by omega⟩
    · exact ⟨rfl, rfl, rfl, rfl, rfl, le_rfl⟩

theorem advance_same (src : Mem) (hbSize : ℕ) (r : NCountReader) :
    (r.advance src hbSize).nc = r.nc ∧ (r.advance src hbSize).remaining = r.remaining ∧
      (r.advance src hbSize).threshold = r.threshold ∧ (r.advance src hbSize).nbBits = r.nbBits ∧
      (r.advance src hbSize).previous0 = r.previous0 ∧ (r.advance src hbSize).charnum = r.charnum := by
  unfold advance
  split_ifs <;> exact ⟨rfl, rfl, rfl, rfl, rfl, rfl⟩

theorem fetch_congr (h : Agree src src' hbSize) (hroom : r.ip + 4 ≤ hbSize) :
    r.fetch src = r.fetch src' := by
  rw [fetch, fetch, leValue_congr fun k hk => h (r.ip + k) (by omega)]

theorem advance_congr (h : Agree src src' hbSize) (hroom : r.ip + 4 ≤ hbSize)
    (hnear : r.ip + 7 ≤ hbSize → r.bitCount ≤ 31) :
    r.advance src hbSize = r.advance src' hbSize := by
  have hadv : Window src hbSize (r.advance src hbSize) := window_advance hroom hnear
  have hw := hadv.room
  unfold advance at hw ⊢
  split_ifs at hw ⊢ <;> exact fetch_congr h hw

theorem repeats12_congr (h : Agree src src' hbSize) (fuel : ℕ) :
    ∀ {r : NCountReader}, Window src hbSize r →
      r.repeats12 src hbSize fuel = r.repeats12 src' hbSize fuel := by
  induction fuel with
  | zero => exact fun _ => rfl
  | succ fuel ih =>
    intro r hw
    have hw12 := window_advance12 hw
    have heq : r.advance12 src hbSize = r.advance12 src' hbSize := by
      have hroom := hw12.room
      unfold advance12 at hroom ⊢
      split_ifs at hroom ⊢ <;> exact fetch_congr h hroom
    rw [repeats12, repeats12, ← heq]
    split_ifs
    · exact ih hw12
    · rfl

theorem zeros_congr (h : Agree src src' hbSize) (hw : Window src hbSize r) :
    r.zeros src hbSize = r.zeros src' hbSize := by
  rw [zeros, zeros, repeats12_congr h _ hw]

/-- One more count. -/
theorem Counts.count (h : Counts maxSymbolValue tableLog r remaining nbBits) :
    ∃ rem', r.count.remaining = (rem' : ℕ) ∧ 1 ≤ rem' ∧ rem' ≤ remaining ∧
      r.count.bitCount ≤ r.bitCount + 16 ∧
      (rem' + cumul r.count.nc r.count.charnum = 2 ^ tableLog + 1 ∧
          (∀ s < r.count.charnum, -1 ≤ r.count.nc s) ∧
          (∀ s, r.count.charnum ≤ s → s ≤ maxSymbolValue → r.count.nc s = 0) ∨
        rem' = 1 ∧ Wrapped maxSymbolValue tableLog r.count) := by
  obtain ⟨c, hge, hlt, hnc, hrem, hbits⟩ := count_spec h.remaining h.threshold h.nbBits h.hold h.more
  have htotal := h.total
  have hzero : ∀ s, r.charnum + 1 ≤ s → s ≤ maxSymbolValue → r.count.nc s = 0 := fun s hs hs' => by
    rw [hnc, Function.update_of_ne (by omega)]
    exact h.zero s (by omega) hs'
  have hlog : 2 ^ tableLog ≤ 2 ^ 15 := Nat.pow_le_pow_right (by decide) h.log_le
  refine ⟨_, hrem, by omega, Nat.sub_le _ _, hbits, ?_⟩
  by_cases hshort : c < 32768
  · left
    rw [short_eq (by omega) hshort] at hnc
    have hcells : cellsOf r.count.nc r.charnum = c.natAbs := by
      rw [hnc, cellsOf, Function.update_self]
      split_ifs <;> omega
    refine ⟨?_, fun s hs => ?_, hzero⟩
    · show remaining - c.natAbs + cumul r.count.nc (r.charnum + 1) = _
      rw [cumul, hcells, hnc, cumul_update r.charnum le_rfl]
      omega
    · have hs : s < r.charnum + 1 := hs
      rw [hnc]
      by_cases heq : s = r.charnum
      · rw [heq, Function.update_self]
        exact hge
      · rw [Function.update_of_ne heq]
        exact h.ge s (by omega)
  · -- nothing was given out before, and everything now
    right
    obtain rfl : c = 32768 := by omega
    have hlog15 : tableLog = 15 := by
      by_contra hne
      have hlt14 : 2 ^ tableLog ≤ 2 ^ 14 :=
        Nat.pow_le_pow_right (by decide) (by have := h.log_le; omega)
      omega
    subst hlog15
    have hcumul : cumul r.nc r.charnum = 0 := by omega
    refine ⟨by omega, Nat.succ_le_succ (Nat.zero_le _), rfl, ?_, fun s hs => ?_, hzero⟩
    · show r.count.nc r.charnum = _
      rw [hnc, Function.update_self]
      rfl
    · have hs : s < r.charnum := hs
      rw [hnc, Function.update_of_ne (by omega)]
      have hcells : cumul r.nc (s + 1) ≤ cumul r.nc r.charnum := cumul_mono r.nc hs
      have hge' := h.ge s hs
      rw [cumul, cellsOf] at hcells
      split_ifs at hcells <;> omega

/-- **The loop of the reader** stays in the buffer, and where nothing remains the counts fill the
table, or the last one has wrapped. -/
theorem loop_sound (hagree : Agree src src' hbSize) (fuel : ℕ) :
    ∀ {r : NCountReader} {remaining nbBits : ℕ}, Window src hbSize r →
      Counts maxSymbolValue tableLog r remaining nbBits → r.charnum ≤ maxSymbolValue →
      r.loop src hbSize (maxSymbolValue + 1) fuel = r.loop src' hbSize (maxSymbolValue + 1) fuel ∧
        (r.loop src hbSize (maxSymbolValue + 1) fuel).ip + 4 ≤ hbSize ∧
        ((r.loop src hbSize (maxSymbolValue + 1) fuel).remaining = 1 →
          Done maxSymbolValue tableLog (r.loop src hbSize (maxSymbolValue + 1) fuel) ∨
            Wrapped maxSymbolValue tableLog (r.loop src hbSize (maxSymbolValue + 1) fuel)) ∧
        ∀ s, maxSymbolValue < s → (r.loop src hbSize (maxSymbolValue + 1) fuel).nc s = r.nc s := by
  induction fuel with
  | zero =>
    intro r remaining nbBits hw hc _
    refine ⟨rfl, hw.room, fun h => ?_, fun _ _ => rfl⟩
    have hrem : r.remaining = 1 := h
    rw [hc.remaining] at hrem
    have := hc.more
    omega
  | succ fuel ih =>
    intro r remaining nbBits hw hc hchar
    -- the run of zeros
    set r1 := if r.previous0 then r.zeros src hbSize else r with hr1
    have hprev : r1.previous0 = r.previous0 := by
      rw [hr1]
      split_ifs
      · exact (repeats12_same src hbSize (hbSize + 3) r).2.2.2.2.1
      · rfl
    have hnc1 : r1.nc = r.nc := by
      rw [hr1]
      split_ifs
      · exact (repeats12_same src hbSize (hbSize + 3) r).1
      · rfl
    have hroom1 : r1.ip + 4 ≤ hbSize ∧ (r.previous0 = true → r1.ip + 7 ≤ hbSize → r1.bitCount ≤ 31) := by
      rw [hr1]
      split_ifs with h0
      · exact ⟨(zeros_room hw).1, fun _ => (zeros_room hw).2⟩
      · exact ⟨hw.room, fun h => absurd h h0⟩
    have hc1 : r1.charnum ≤ maxSymbolValue → Counts maxSymbolValue tableLog r1 remaining nbBits := by
      rw [hr1]
      split_ifs with h0
      · intro hin
        obtain ⟨hnc, hrem, hthr, hnb, -, hle⟩ := repeats12_same src hbSize (hbSize + 3) r
        have hle' : r.charnum ≤ (r.zeros src hbSize).charnum := by
          show r.charnum ≤ _ + _ + _
          omega
        have hnc' : (r.zeros src hbSize).nc = r.nc := hnc
        refine ⟨hrem.trans hc.remaining, hthr.trans hc.threshold, hnb.trans hc.nbBits, hc.hold, hc.more,
          hc.log_le, ?_, fun s hs => ?_, fun s hs hs' => ?_⟩
        · rw [hnc', cumul_zeros hle' fun s h1 h2 => hc.zero s h1 (by omega)]
          exact hc.total
        · rw [hnc']
          by_cases hs' : s < r.charnum
          · exact hc.ge s hs'
          · rw [hc.zero s (by omega) (by omega)]
            decide
        · rw [hnc']
          exact hc.zero s (by omega) hs'
      · exact fun _ => hc
    have hcongr1 : (if r.previous0 then r.zeros src' hbSize else r) = r1 := by
      rw [hr1, zeros_congr hagree hw]
    rw [loop, loop, hcongr1, ← hr1]
    dsimp only
    by_cases hbreak : r1.previous0 = true ∧ maxSymbolValue + 1 ≤ r1.charnum
    · rw [if_pos hbreak, if_pos hbreak]
      refine ⟨rfl, hroom1.1, fun h => ?_, fun s _ => congrFun hnc1 s⟩
      have hrem : r1.remaining = r.remaining := by
        rw [hr1]
        split_ifs
        · exact (repeats12_same src hbSize (hbSize + 3) r).2.1
        · rfl
      rw [hrem, hc.remaining] at h
      have := hc.more
      omega
    · rw [if_neg hbreak, if_neg hbreak]
      have hin1 : r1.charnum ≤ maxSymbolValue := by
        by_contra hgt
        by_cases h0 : r.previous0 = true
        · exact hbreak ⟨hprev.trans h0, by omega⟩
        · rw [hr1, if_neg h0] at hgt
          exact hgt hchar
      -- a window again
      set r2 := if r1.previous0 then r1.advance src hbSize else r1 with hr2
      have hw2 : Window src hbSize r2 := by
        rw [hr2]
        split_ifs with h0
        · exact window_advance hroom1.1 (hroom1.2 (hprev ▸ h0))
        · have h0' : ¬ r.previous0 = true := hprev ▸ h0
          rw [hr1, if_neg h0']
          exact hw
      have hcongr2 : (if r1.previous0 then r1.advance src' hbSize else r1) = r2 := by
        rw [hr2]
        split_ifs with h0
        · exact (advance_congr hagree hroom1.1 (hroom1.2 (hprev ▸ h0))).symm
        · rfl
      have hsame2 : r2.nc = r1.nc ∧ r2.remaining = r1.remaining ∧ r2.threshold = r1.threshold ∧
          r2.nbBits = r1.nbBits ∧ r2.charnum = r1.charnum := by
        rw [hr2]
        split_ifs
        · obtain ⟨h1, h2, h3, h4, -, h6⟩ := advance_same src hbSize r1
          exact ⟨h1, h2, h3, h4, h6⟩
        · exact ⟨rfl, rfl, rfl, rfl, rfl⟩
      obtain ⟨s1, s2, s3, s4, s5⟩ := hsame2
      have hc1' := hc1 hin1
      have hc2 : Counts maxSymbolValue tableLog r2 remaining nbBits :=
        ⟨s2.trans hc1'.remaining, s3.trans hc1'.threshold, s4.trans hc1'.nbBits, hc1'.hold, hc1'.more,
          hc1'.log_le, by rw [s1, s5]; exact hc1'.total, by rw [s1, s5]; exact hc1'.ge, by rw [s1, s5]; exact hc1'.zero⟩
      rw [hcongr2]
      obtain ⟨rem', hrem', h1, hle, hbits, hcases⟩ := hc2.count
      have hthr : r2.count.threshold = 2 ^ (nbBits - 1) := hc2.threshold
      have hnb : r2.count.nbBits = nbBits := hc2.nbBits
      have hchar3 : r2.count.charnum = r1.charnum + 1 := by
        show r2.charnum + 1 = _
        rw [s5]
      have hframe : ∀ s, maxSymbolValue < s → r2.count.nc s = r.nc s := fun s hs => by
        show Function.update r2.nc r2.charnum _ s = r.nc s
        rw [Function.update_of_ne (by omega), s1, hnc1]
      have hdone : rem' = 1 → Done maxSymbolValue tableLog r2.count ∨
          Wrapped maxSymbolValue tableLog r2.count := fun h => by
        subst h
        rcases hcases with ⟨htotal, hge, hzero⟩ | ⟨-, hwrapped⟩
        · exact .inl ⟨by omega, by omega, hge, hzero⟩
        · exact .inr hwrapped
      have hroom3 : r2.count.ip + 4 ≤ hbSize := hw2.room
      have hpos2 : 2 ≤ 2 ^ (nbBits - 1) := by
        calc 2 = 2 ^ 1 := rfl
          _ ≤ 2 ^ (nbBits - 1) := Nat.pow_le_pow_right (by decide) (by have := hc.hold.two_le hc.more; omega)
      by_cases hlast : r2.count.remaining < r2.count.threshold ∧ r2.count.remaining ≤ 1
      · rw [if_pos hlast, if_pos hlast]
        exact ⟨rfl, hroom3, fun h => hdone (by omega), hframe⟩
      · rw [if_neg hlast, if_neg hlast]
        have hmore' : 1 < rem' := by
          by_contra hle1
          refine hlast ⟨?_, by omega⟩
          rw [hrem', hthr]
          omega
        obtain ⟨htotal, hge, hzero⟩ := hcases.resolve_right (fun ⟨h, _⟩ => by omega)
        -- the bits of the next count
        have hnext := hc.hold.next (r := rem') h1 hle
        obtain ⟨hnbits, hthr'⟩ := next_bits hrem' hthr hnb
        rw [hnbits, hthr']
        by_cases hfull : maxSymbolValue + 1 ≤ r2.count.charnum
        · rw [if_pos hfull, if_pos hfull]
          refine ⟨rfl, hroom3, fun h => ?_, hframe⟩
          have h : r2.count.remaining = 1 := h
          omega
        · rw [if_neg hfull, if_neg hfull]
          set r3 : NCountReader :=
            { r2.count with nbBits := nextBits rem' nbBits, threshold := 2 ^ (nextBits rem' nbBits - 1) }
            with hr3
          have hnear3 : r3.ip + 7 ≤ hbSize → r3.bitCount ≤ 31 := fun hfar => by
            have := hw2.near
            have : r2.ip + 7 ≤ hbSize := hfar
            show r2.count.bitCount ≤ 31
            omega
          have hw3 : Window src hbSize (r3.advance src hbSize) := window_advance hroom3 hnear3
          obtain ⟨t1, t2, t3, t4, -, t6⟩ := advance_same src hbSize r3
          have hc3 : Counts maxSymbolValue tableLog (r3.advance src hbSize) rem' (nextBits rem' nbBits) :=
            ⟨t2.trans hrem', t3, t4, hnext, hmore', hc.log_le, by rw [t1, t6]; exact htotal,
              by rw [t1, t6]; exact hge, by rw [t1, t6]; exact hzero⟩
          have hcongr3 : r3.advance src hbSize = r3.advance src' hbSize :=
            advance_congr hagree hroom3 hnear3
          rw [← hcongr3]
          obtain ⟨heq, hroom, hd, hf⟩ := ih hw3 hc3 (by rw [t6]; show r2.count.charnum ≤ _; omega)
          refine ⟨heq, hroom, hd, fun s hs => ?_⟩
          rw [hf s hs, t1]
          exact hframe s hs

end AnyBytes

/-! ## A header -/

section Header

variable {z : ℕ}

/-- What the window shows. -/
theorem Window.bits (h : Window src hbSize r) :
    r.bitStream = leValue src 0 hbSize / 2 ^ r.bit % 2 ^ (32 - r.bitCount) := by
  have hroom := h.room
  have hle := h.bit_le
  have hword : leValue src r.ip 4 = leValue src 0 hbSize / 2 ^ (8 * r.ip) % 2 ^ 32 := by
    rw [← pow_256, leValue_div src (by omega), show (2 : ℕ) ^ 32 = 256 ^ 4 from rfl,
      leValue_mod _ _ (by omega), Nat.zero_add]
  have hpow : (2 : ℕ) ^ 32 = 2 ^ r.bitCount * 2 ^ (32 - r.bitCount) := by
    rw [← Nat.pow_add]
    congr 1
    omega
  rw [h.stream, hword, Nat.shiftRight_eq_div_pow, hpow, Nat.mod_mul_right_div_self,
    Nat.div_div_eq_div_mul, ← Nat.pow_add, bit]

/-- Up to 24 bits that are there are in the window. -/
theorem Window.field (h : Window src hbSize r) {n : ℕ} (hn : n ≤ 24) (hin : r.bit + n ≤ 8 * hbSize) :
    r.bitStream % 2 ^ n = leValue src 0 hbSize / 2 ^ r.bit % 2 ^ n := by
  have hnear := h.near
  unfold bit at hin
  rw [h.bits, Nat.mod_mod_of_dvd _ (Nat.pow_dvd_pow 2 (by omega))]

/-- Advancing stays at the bit, if there is one. -/
theorem advance_bit (hroom : r.ip + 4 ≤ hbSize) (hlt : r.bit < 8 * hbSize) :
    (r.advance src hbSize).bit = r.bit := by
  unfold bit at hlt
  unfold advance
  rw [shiftRight_3, and_7, show (r.bitCount - 8 * (hbSize - 4 - r.ip)) &&& 31 =
    (r.bitCount - 8 * (hbSize - 4 - r.ip)) % 32 from and_bitMask _ 5]
  split_ifs
  · show 8 * (r.ip + r.bitCount / 8) + r.bitCount % 8 = 8 * r.ip + r.bitCount
    omega
  · show 8 * (hbSize - 4) + (r.bitCount - 8 * (hbSize - 4 - r.ip)) % 32 = 8 * r.ip + r.bitCount
    omega

/-- Pairs of ones. -/
theorem fieldsAt_pairs {V q k : ℕ} {fs : List (ℕ × ℕ)}
    (h : BitStack.FieldsAt V q (List.replicate k (2, 3) ++ fs)) :
    V / 2 ^ q % 4 ^ k = 4 ^ k - 1 ∧ BitStack.FieldsAt V (q + 2 * k) fs := by
  induction k generalizing q with
  | zero => exact ⟨Nat.mod_one _, h⟩
  | succ k ih =>
    obtain ⟨hpair, hrest⟩ := h
    obtain ⟨hk, hfs⟩ := ih hrest
    refine ⟨?_, by rw [Nat.mul_succ, Nat.add_comm (2 * k), ← Nat.add_assoc]; exact hfs⟩
    have hpair : V / 2 ^ q % 4 = 3 := hpair
    have hpos : 0 < 4 ^ k := by positivity
    rw [Nat.pow_succ', Nat.mod_mul, hpair, show (4 : ℕ) = 2 ^ 2 from rfl, Nat.div_div_eq_div_mul,
      ← Nat.pow_add, show (2 : ℕ) ^ 2 = 4 from rfl, hk]
    omega

/-- The pairs of ones that are left are the repeats the window shows, or it shows 12 at least. -/
theorem Window.repeats (h : Window src hbSize r) {k last : ℕ} {fs : List (ℕ × ℕ)} (hlast : last < 3)
    (hfs : BitStack.FieldsAt (leValue src 0 hbSize) r.bit (List.replicate k (2, 3) ++ (2, last) :: fs))
    (hin : r.bit + 2 * k + 2 ≤ 8 * hbSize) :
    (12 ≤ k → 12 ≤ repeatsOf r.bitStream) ∧
      (k < 12 → repeatsOf r.bitStream = k ∧ r.bitStream / 4 ^ k % 4 = last) := by
  obtain ⟨hones, hrest⟩ := fieldsAt_pairs hfs
  have hpow : ∀ j : ℕ, (4 : ℕ) ^ j = 2 ^ (2 * j) := fun j => by rw [Nat.pow_mul]
  have hlow : ∀ j, j ≤ 12 → j ≤ k → r.bitStream % 4 ^ j = 4 ^ j - 1 := fun j hj hjk => by
    rw [hpow, h.field (by omega) (by omega), ← hpow,
      ← Nat.mod_mod_of_dvd _ (Nat.pow_dvd_pow 4 hjk), hones]
    obtain ⟨d, rfl⟩ := Nat.exists_eq_add_of_le hjk
    have hpos : 0 < 4 ^ d := by positivity
    rw [Nat.pow_add, show 4 ^ j * 4 ^ d - 1 = 4 ^ j * (4 ^ d - 1) + (4 ^ j - 1) by
      have hj : 0 < 4 ^ j := by positivity
      have : 4 ^ j * 4 ^ d = 4 ^ j * (4 ^ d - 1) + 4 ^ j := by
        rw [← Nat.mul_succ, Nat.succ_eq_add_one, Nat.sub_add_cancel hpos]
      omega, Nat.mul_add_mod]
    exact Nat.mod_eq_of_lt (by have : 0 < 4 ^ j := by positivity
                               omega)
  refine ⟨fun hk => repeats_ge (by decide) (hlow 12 le_rfl hk), fun hk => ?_⟩
  have hpair : r.bitStream / 4 ^ k % 4 = last := by
    obtain ⟨hl, -⟩ := hrest
    have hbits := h.field (n := 2 * k + 2) (by omega) (by omega)
    have hdiv := congrArg (· / 2 ^ (2 * k)) hbits
    rw [Nat.pow_add, Nat.mod_mul_right_div_self, Nat.mod_mul_right_div_self, Nat.div_div_eq_div_mul,
      ← Nat.pow_add, hl] at hdiv
    rw [hpow]
    have hdiv : r.bitStream / 2 ^ (2 * k) % 4 = last % 4 := hdiv
    omega
  refine ⟨le_antisymm (repeats_le ?_ (by omega) (by omega)) (repeats_ge (by omega) (hlow k (by omega) le_rfl)),
    hpair⟩
  exact lt_of_lt_of_le h.lt (Nat.pow_le_pow_right (by decide) (Nat.sub_le _ _))

theorem repeats12_header {last : ℕ} {fs : List (ℕ × ℕ)} (hlast : last < 3) (fuel : ℕ) :
    ∀ {r : NCountReader} {k : ℕ}, Window src hbSize r → k / 12 ≤ fuel →
      BitStack.FieldsAt (leValue src 0 hbSize) r.bit (List.replicate k (2, 3) ++ (2, last) :: fs) →
      r.bit + 2 * k + 2 < 8 * hbSize →
      Window src hbSize (r.repeats12 src hbSize fuel) ∧
        (r.repeats12 src hbSize fuel).bit = r.bit + 24 * (k / 12) ∧
        (r.repeats12 src hbSize fuel).charnum = r.charnum + 36 * (k / 12) ∧
        BitStack.FieldsAt (leValue src 0 hbSize) (r.repeats12 src hbSize fuel).bit
          (List.replicate (k % 12) (2, 3) ++ (2, last) :: fs) := by
  induction fuel with
  | zero =>
    intro r k h hk hfs hin
    rw [repeats12, Nat.mod_eq_of_lt (by omega), Nat.div_eq_of_lt (by omega)]
    exact ⟨h, rfl, rfl, hfs⟩
  | succ fuel ih =>
    intro r k h hk hfs hin
    obtain ⟨hge, hlt⟩ := h.repeats hlast hfs (by omega)
    rw [repeats12]
    by_cases h12 : 12 ≤ k
    · rw [if_pos (hge h12)]
      have hbit : (r.advance12 src hbSize).bit = r.bit + 24 := by
        have hnear := h.near
        unfold bit at hin
        unfold advance12
        split_ifs
        · show 8 * (r.ip + 3) + r.bitCount = 8 * r.ip + r.bitCount + 24
          omega
        · rw [show (r.bitCount + 8 * (r.ip + 7 - hbSize)) &&& 31 =
            (r.bitCount + 8 * (r.ip + 7 - hbSize)) % 32 from and_bitMask _ 5]
          show 8 * (hbSize - 4) + (r.bitCount + 8 * (r.ip + 7 - hbSize)) % 32 = 8 * r.ip + r.bitCount + 24
          omega
      have hchar : (r.advance12 src hbSize).charnum = r.charnum + 36 := by
        unfold advance12
        split_ifs <;> rfl
      obtain ⟨k, rfl⟩ := Nat.exists_eq_add_of_le h12
      have hrest : BitStack.FieldsAt (leValue src 0 hbSize) (r.advance12 src hbSize).bit
          (List.replicate k (2, 3) ++ (2, last) :: fs) := by
        rw [List.replicate_add, List.append_assoc] at hfs
        rw [hbit]
        exact (fieldsAt_pairs hfs).2
      obtain ⟨hw, hbit', hchar', hfs'⟩ := ih (window_advance12 h) (k := k) (by omega) hrest
        (by rw [hbit]; omega)
      refine ⟨hw, by rw [hbit', hbit]; omega, by rw [hchar', hchar]; omega, ?_⟩
      rw [Nat.add_mod_left]
      exact hfs'
    · have := (hlt (by omega)).1
      rw [if_neg (by omega), Nat.mod_eq_of_lt (by omega), Nat.div_eq_of_lt (by omega)]
      exact ⟨h, rfl, rfl, hfs⟩

/-- **A run of zeros** is read for what it is. -/
theorem zeros_header {fs : List (ℕ × ℕ)} (h : Window src hbSize r)
    (hfs : BitStack.FieldsAt (leValue src 0 hbSize) r.bit (zeroFields z ++ fs))
    (hin : r.bit + bitsOf (zeroFields z) < 8 * hbSize) :
    (r.zeros src hbSize).bit = r.bit + bitsOf (zeroFields z) ∧
      (r.zeros src hbSize).charnum = r.charnum + z := by
  have hbits : bitsOf (zeroFields z) = 2 * (z / 3) + 2 := by
    simp [zeroFields, bitsOf, Nat.mul_comm]
  rw [hbits] at hin ⊢
  have hfs : BitStack.FieldsAt (leValue src 0 hbSize) r.bit
      (List.replicate (z / 3) (2, 3) ++ (2, z % 3) :: fs) := by
    rw [zeroFields, List.append_assoc] at hfs
    exact hfs
  have hlast : z % 3 < 3 := Nat.mod_lt _ (by decide)
  obtain ⟨hw, hbit, hchar, hrest⟩ := repeats12_header hlast (hbSize + 3) h (by omega) hfs (by omega)
  obtain ⟨hrep, hpair⟩ := (hw.repeats hlast hrest (by omega)).2 (Nat.mod_lt _ (by decide))
  have hmask : (r.repeats12 src hbSize (hbSize + 3)).bitStream >>>
      (2 * repeatsOf (r.repeats12 src hbSize (hbSize + 3)).bitStream) &&& 3 = z % 3 := by
    rw [hrep, Nat.shiftRight_eq_div_pow, Nat.pow_mul, show (2 : ℕ) ^ 2 = 4 from rfl, ← hpair]
    exact and_bitMask _ 2
  unfold bit at hbit ⊢
  constructor
  · show 8 * (r.repeats12 src hbSize (hbSize + 3)).ip + ((r.repeats12 src hbSize (hbSize + 3)).bitCount +
      2 * repeatsOf (r.repeats12 src hbSize (hbSize + 3)).bitStream + 2) = _
    omega
  · show (r.repeats12 src hbSize (hbSize + 3)).charnum +
      3 * repeatsOf (r.repeats12 src hbSize (hbSize + 3)).bitStream + _ = _
    rw [hmask]
    omega

/-- The reader before the header of the symbols from `s` on. -/
structure Reads (nc : ℕ → ℤ) (maxSymbolValue : ℕ) (r : NCountReader) (s rem nb : ℕ) (p : Bool) :
    Prop where
  charnum : r.charnum = s
  remaining : r.remaining = rem
  threshold : r.threshold = 2 ^ (nb - 1)
  nbBits : r.nbBits = nb
  previous0 : r.previous0 = p
  same : ∀ t < s, r.nc t = nc t
  zero : ∀ t, s ≤ t → t ≤ maxSymbolValue → r.nc t = 0

/-- The reader after the header: `n` symbols, of which the last that counts was read last. -/
structure HasRead (nc : ℕ → ℤ) (n maxSymbolValue : ℕ) (r : NCountReader) : Prop where
  pos : 0 < r.charnum
  le : r.charnum ≤ n
  last : nc (r.charnum - 1) ≠ 0
  remaining : r.remaining = 1
  bit_le : r.bitCount ≤ 32
  same : ∀ t < n, r.nc t = nc t
  zero : ∀ t, n ≤ t → t ≤ maxSymbolValue → r.nc t = 0
  rest : ∀ t, r.charnum ≤ t → t < n → nc t = 0

/-- The run of zeros of a turn. -/
theorem turn_zeros {nc : ℕ → ℤ} {maxSymbolValue s rem nb : ℕ} {p : Bool} {fs : List (ℕ × ℕ)}
    (hw : Window src hbSize r) (hr : Reads nc maxSymbolValue r s rem nb p) (hz : p = false → z = 0)
    (hfs : BitStack.FieldsAt (leValue src 0 hbSize) r.bit ((if p then zeroFields z else []) ++ fs))
    (hin : r.bit + bitsOf (if p then zeroFields z else []) < 8 * hbSize)
    (hzero : ∀ t, s ≤ t → t < s + z → nc t = 0) (hmax : s + z ≤ maxSymbolValue + 1) :
    Reads nc maxSymbolValue (if r.previous0 then r.zeros src hbSize else r) (s + z) rem nb p ∧
      (if r.previous0 then r.zeros src hbSize else r).bit =
        r.bit + bitsOf (if p then zeroFields z else []) ∧
      (if r.previous0 then r.zeros src hbSize else r).ip + 4 ≤ hbSize := by
  rw [hr.previous0]
  cases p with
  | false =>
    obtain rfl := hz rfl
    exact ⟨hr, rfl, hw.room⟩
  | true =>
    rw [if_pos rfl] at hfs hin
    obtain ⟨hbit, hchar⟩ := zeros_header hw hfs hin
    obtain ⟨hnc, hrem, hthr, hnb, hprev, -⟩ :=
      repeats12_same src hbSize (hbSize + 3) r
    have hnc : (r.zeros src hbSize).nc = r.nc := hnc
    rw [if_pos rfl, if_pos rfl]
    refine ⟨⟨by rw [hchar, hr.charnum], hrem.trans hr.remaining, hthr.trans hr.threshold,
      hnb.trans hr.nbBits, hprev.trans hr.previous0, fun t ht => ?_, fun t ht ht' => ?_⟩, hbit,
      (zeros_room hw).1⟩
    · rw [hnc]
      by_cases hts : t < s
      · exact hr.same t hts
      · rw [hzero t (by omega) ht, hr.zero t (by omega) (by omega)]
    · rw [hnc]
      exact hr.zero t (by omega) ht'

/-- The count of a turn. -/
theorem turn_count {nc : ℕ → ℤ} {maxSymbolValue s rem nb : ℕ} {p : Bool} {fs : List (ℕ × ℕ)}
    (hw : Window src hbSize r) (hr : Reads nc maxSymbolValue r s rem nb p) (hold : Holding rem nb)
    (hmore : 1 < rem) (hrem : rem ≤ 32768) (hge : -1 ≤ nc s) (hlt : (nc s).natAbs < rem)
    (hfs : BitStack.FieldsAt (leValue src 0 hbSize) r.bit (countField rem nb (nc s) :: fs))
    (hin : r.bit + (countField rem nb (nc s)).1 ≤ 8 * hbSize) :
    Reads nc maxSymbolValue { r.count with
        threshold := 2 ^ (nextBits (rem - (nc s).natAbs) nb - 1)
        nbBits := nextBits (rem - (nc s).natAbs) nb } (s + 1) (rem - (nc s).natAbs)
        (nextBits (rem - (nc s).natAbs) nb) (decide (nc s = 0)) ∧
      r.count.threshold = 2 ^ (nb - 1) ∧ r.count.nbBits = nb ∧
      r.count.bit = r.bit + (countField rem nb (nc s)).1 ∧ r.count.ip + 4 ≤ hbSize ∧
      r.count.bitCount ≤ 32 := by
  obtain ⟨-, h16, hfit⟩ := countField_spec hold hmore hlt
  have hbits : r.bitStream % 2 ^ (countField rem nb (nc s)).1 = (countField rem nb (nc s)).2 := by
    rw [hw.field (by omega) hin, hfs.1, Nat.mod_eq_of_lt hfit]
  obtain ⟨hvalue, hwidth⟩ := countOf_field hold hge hbits
  have hnear := hw.near
  rw [count_eq hr.remaining hr.threshold hr.nbBits hold, hvalue, hwidth, add_sub_cancel_right,
    short_eq (by omega) (by omega)]
  unfold bit at hin ⊢
  refine ⟨⟨by show r.charnum + 1 = _; rw [hr.charnum], by dsimp only; omega, rfl, rfl, rfl,
    fun t ht => ?_, fun t ht ht' => ?_⟩, hr.threshold, hr.nbBits, by dsimp only; omega, hw.room,
    by dsimp only; omega⟩
  · show Function.update r.nc r.charnum (nc s) t = nc t
    rw [hr.charnum]
    by_cases hts : t = s
    · rw [hts, Function.update_self]
    · rw [Function.update_of_ne hts]
      exact hr.same t (by omega)
  · show Function.update r.nc r.charnum (nc s) t = 0
    rw [hr.charnum, Function.update_of_ne (by omega)]
    exact hr.zero t (by omega) ht'

/-- **The loop of the reader** reads a header for what it is. -/
theorem loop_header {nc : ℕ → ℤ} {n maxSymbolValue s rem nb : ℕ} {p : Bool} {fs : List (ℕ × ℕ)}
    (hh : Header nc n s rem nb p fs) (hn : n ≤ maxSymbolValue + 1) :
    ∀ {r : NCountReader} (fuel : ℕ), 1 < rem → rem ≤ 32768 → Holding rem nb → n - s ≤ fuel → Window src hbSize r →
      Reads nc maxSymbolValue r s rem nb p → BitStack.FieldsAt (leValue src 0 hbSize) r.bit fs →
      r.bit + bitsOf fs ≤ 8 * hbSize →
      HasRead nc n maxSymbolValue (r.loop src hbSize (maxSymbolValue + 1) fuel) ∧
        (r.loop src hbSize (maxSymbolValue + 1) fuel).bit = r.bit + bitsOf fs := by
  induction hh with
  | done => exact fun _ h => absurd h (by decide)
  | @turn s rem nb p fs z hmore hz_in hz hzero hne hge hlt hrest ih =>
    intro r fuel _ hshort hold hfuel hw hr hfs hin
    obtain ⟨fuel, rfl⟩ : ∃ f, fuel = f + 1 := ⟨fuel - 1, by omega⟩
    have hfield := countField_spec hold hmore hlt
    rw [bitsOf_append, bitsOf_cons] at hin ⊢
    obtain ⟨hr1, hbit1, hroom1⟩ := turn_zeros hw hr hz hfs (by omega) hzero (by omega)
    have hnear1 : r.previous0 = true → (if r.previous0 then r.zeros src hbSize else r).ip + 7 ≤ hbSize →
        (if r.previous0 then r.zeros src hbSize else r).bitCount ≤ 31 := fun h0 => by
      rw [if_pos h0]
      exact (zeros_room hw).2
    have hfs1 := (BitStack.fieldsAt_append.mp hfs).2
    rw [← bitsOf, ← hbit1] at hfs1
    rw [loop]
    dsimp only
    generalize hr1eq : (if r.previous0 then r.zeros src hbSize else r) = r1 at *
    rw [if_neg (by rw [hr1.charnum]; omega)]
    -- a window again
    have hw2 : Window src hbSize (if r1.previous0 then r1.advance src hbSize else r1) ∧
        (if r1.previous0 then r1.advance src hbSize else r1).bit = r1.bit ∧
        Reads nc maxSymbolValue (if r1.previous0 then r1.advance src hbSize else r1) (s + z) rem nb p := by
      rw [hr1.previous0]
      cases p with
      | false =>
        rw [if_neg (by rw [hr.previous0]; decide)] at hr1eq
        exact ⟨hr1eq ▸ hw, rfl, hr1⟩
      | true =>
        obtain ⟨h1, h2, h3, h4, h5, h6⟩ := advance_same src hbSize r1
        exact ⟨window_advance hroom1 (hnear1 hr.previous0), advance_bit hroom1 (by omega),
          h6.trans hr1.charnum, h2.trans hr1.remaining, h3.trans hr1.threshold, h4.trans hr1.nbBits,
          h5.trans hr1.previous0, by rw [if_pos rfl, h1]; exact hr1.same,
          by rw [if_pos rfl, h1]; exact hr1.zero⟩
    generalize (if r1.previous0 then r1.advance src hbSize else r1) = r2 at *
    obtain ⟨hw2, hbit2, hr2⟩ := hw2
    rw [← hbit2] at hfs1
    obtain ⟨hr3, hthr3, hnb3, hbit3, hroom3, h32⟩ :=
      turn_count hw2 hr2 hold hmore hshort hge hlt hfs1 (by omega)
    have hrem3 : r2.count.remaining = (rem - (nc (s + z)).natAbs : ℕ) := hr3.remaining
    have hchar3 : r2.count.charnum = s + z + 1 := hr3.charnum
    have hpos2 : 2 ≤ 2 ^ (nb - 1) := by
      calc 2 = 2 ^ 1 := rfl
        _ ≤ 2 ^ (nb - 1) := Nat.pow_le_pow_right (by decide) (by have := hold.two_le hmore; omega)
    have hstop : r2.count.remaining < r2.count.threshold ∧ r2.count.remaining ≤ 1 ↔
        rem - (nc (s + z)).natAbs = 1 := by
      rw [hrem3, hthr3]
      omega
    by_cases hlast : rem - (nc (s + z)).natAbs = 1
    · -- nothing remains
      rw [if_pos (hstop.mpr hlast)]
      rw [hlast] at hrest
      cases hrest with
      | turn _ hmore' => exact absurd hmore' (by decide)
      | done hend =>
        refine ⟨⟨by omega, by omega, ?_, by rw [hrem3, hlast]; rfl, h32, fun t ht => ?_,
          fun t ht ht' => hr3.zero t (by omega) ht', fun t ht ht' => hend t (by omega) ht'⟩, ?_⟩
        · rw [hchar3, Nat.add_sub_cancel]
          intro h0
          rw [h0] at hlast
          exact absurd hlast (by show rem - 0 ≠ 1; omega)
        · by_cases hts : t < s + z + 1
          · exact hr3.same t hts
          · rw [hend t (by omega) ht]
            exact hr3.zero t (by omega) (by omega)
        · have hnil : bitsOf [] = 0 := rfl
          omega
    · have hmore' : 1 < rem - (nc (s + z)).natAbs := by omega
      have hin' := hrest.symbol_lt hmore'
      obtain ⟨hnext, hthr'⟩ := next_bits hrem3 hthr3 hnb3
      rw [if_neg (mt hstop.mp hlast), hnext, hthr', if_neg (by rw [hchar3]; omega)]
      have hbits := hrest.bits_pos (hold.next (by omega) (Nat.sub_le _ _)) hmore'
      set r3 : NCountReader := { r2.count with
        nbBits := nextBits (rem - (nc (s + z)).natAbs) nb
        threshold := 2 ^ (nextBits (rem - (nc (s + z)).natAbs) nb - 1) } with hr3eq
      have hbit3' : r3.bit = r2.bit + (countField rem nb (nc (s + z))).1 := hbit3
      have hroom3' : r3.ip + 4 ≤ hbSize := hroom3
      have hnear3 : r3.ip + 7 ≤ hbSize → r3.bitCount ≤ 31 := fun hfar => by
        have := hw2.near
        have : r2.ip + 7 ≤ hbSize := hfar
        have hcount : r3.bitCount = r2.bitCount + (countField rem nb (nc (s + z))).1 := by
          have : 8 * r2.ip + r3.bitCount = 8 * r2.ip + r2.bitCount + (countField rem nb (nc (s + z))).1 :=
            hbit3
          omega
        omega
      have hbit4 : (r3.advance src hbSize).bit = r3.bit := advance_bit hroom3' (by omega)
      obtain ⟨h1, h2, h3, h4, h5, h6⟩ := advance_same src hbSize r3
      have hr4 : Reads nc maxSymbolValue (r3.advance src hbSize) (s + z + 1)
          (rem - (nc (s + z)).natAbs) (nextBits (rem - (nc (s + z)).natAbs) nb)
          (decide (nc (s + z) = 0)) :=
        ⟨h6.trans hr3.charnum, h2.trans hr3.remaining, h3.trans hr3.threshold, h4.trans hr3.nbBits,
          h5.trans hr3.previous0, by rw [h1]; exact hr3.same, by rw [h1]; exact hr3.zero⟩
      have hfs4 : BitStack.FieldsAt (leValue src 0 hbSize) (r3.advance src hbSize).bit fs := by
        rw [hbit4, hbit3']
        exact hfs1.2
      obtain ⟨hread, hbit⟩ := ih fuel hmore' (by omega) (hold.next (by omega) (Nat.sub_le _ _)) (by omega)
        (window_advance hroom3' hnear3) hr4 hfs4 (by rw [hbit4, hbit3']; omega)
      exact ⟨hread, by rw [hbit, hbit4, hbit3']; omega⟩

end Header

end NCountReader

section Sound

open NCountReader

variable {nc : ℕ → ℤ} {maxSymbolValue hbSize : ℕ} {src src' : Mem}

/-- The count of a symbol that has all the cells of table log 15 does not fit into a `short`. -/
structure CountWraps (r : NCountResult) : Prop where
  tableLog : r.tableLog = 15
  last : r.nc r.maxSymbolValue = -32768
  before : ∀ s < r.maxSymbolValue, r.nc s = 0

/-- The counts read are a distribution over the first symbols, or the one that wraps, all within the
buffers. -/
structure Accepted (nc : ℕ → ℤ) (maxSymbolValue hbSize : ℕ) (r : NCountResult) : Prop where
  distribution : (∃ d : Distribution,
    d.nc = r.nc ∧ d.maxSymbolValue = r.maxSymbolValue ∧ d.tableLog = r.tableLog) ∨ CountWraps r
  symbol_le : r.maxSymbolValue ≤ maxSymbolValue
  size_le : r.size ≤ hbSize
  zero : ∀ s, r.maxSymbolValue < s → s ≤ maxSymbolValue → r.nc s = 0
  frame : ∀ s, maxSymbolValue < s → r.nc s = nc s

/-- The tables start out whole. -/
theorem holding_start {tableLog : ℕ} (h1 : 1 ≤ tableLog) (h15 : tableLog ≤ 15) :
    Holding (2 ^ tableLog + 1) (tableLog + 1) := by
  have hpow : 2 ≤ 2 ^ tableLog := by
    calc 2 = 2 ^ 1 := rfl
      _ ≤ 2 ^ tableLog := Nat.pow_le_pow_right (by decide) h1
  refine ⟨by omega, by omega, by rw [Nat.add_sub_cancel]; omega, ?_⟩
  rw [Nat.pow_succ]
  omega

theorem readNCountBody_sound (nc : ℕ → ℤ) (hmax : maxSymbolValue ≤ 255) (h8 : 8 ≤ hbSize)
    (hagree : Agree src src' hbSize) :
    readNCountBody nc maxSymbolValue src hbSize = readNCountBody nc maxSymbolValue src' hbSize ∧
      ∀ r, readNCountBody nc maxSymbolValue src hbSize = .ok r → Accepted nc maxSymbolValue hbSize r := by
  have hfirst : leValue src 0 4 = leValue src' 0 4 := leValue_congr fun k hk => hagree _ (by omega)
  have hlog : (leValue src 0 4 &&& 0xF) < 16 := by
    rw [show (leValue src 0 4 &&& 0xF) = leValue src 0 4 % 2 ^ 4 from and_bitMask _ 4]
    omega
  unfold readNCountBody
  rw [← hfirst]
  dsimp only
  generalize hn : (leValue src 0 4 &&& 0xF) + 5 = n
  by_cases h15 : 15 < n
  · rw [if_pos h15, if_pos h15]
    exact ⟨rfl, by simp⟩
  · rw [if_neg h15, if_neg h15, Nat.one_shiftLeft]
    generalize hr0 : (NCountReader.mk 0 (leValue src 0 4 >>> 4) 4 ((2 ^ n : ℕ) + 1) (2 ^ n) (n + 1) 0 false
      fun s => if s ≤ maxSymbolValue then 0 else nc s) = r0
    have hw : Window src hbSize r0 := by
      subst hr0
      exact ⟨by show 0 + 4 ≤ hbSize; omega, by show 4 ≤ 31; decide, .inl (by show 4 ≤ 7; decide), rfl⟩
    have hc : Counts maxSymbolValue n r0 (2 ^ n + 1) (n + 1) := by
      subst hr0
      refine ⟨by push_cast; rfl, rfl, rfl, holding_start (by omega) (by omega), ?_, by omega, ?_, ?_, ?_⟩
      · have := Nat.two_pow_pos n
        omega
      · rfl
      · exact fun s hs => absurd hs (Nat.not_lt_zero s)
      · exact fun s _ hs => if_pos hs
    obtain ⟨heq, hroom, hdone, hframe⟩ := loop_sound hagree (maxSymbolValue + 1) hw hc
      (by subst hr0; exact Nat.zero_le _)
    rw [← heq]
    refine ⟨rfl, fun r hr => ?_⟩
    generalize r0.loop src hbSize (maxSymbolValue + 1) (maxSymbolValue + 1) = r1 at *
    split_ifs at hr with h1 h2 h3
    obtain rfl := Except.ok.inj hr
    have hd := hdone (not_not.mp h1)
    have hpos : 1 ≤ r1.charnum := hd.elim Done.pos Wrapped.pos
    have hzero : ∀ s, r1.charnum ≤ s → s ≤ maxSymbolValue → r1.nc s = 0 := hd.elim Done.zero Wrapped.zero
    refine ⟨?_, by show r1.charnum - 1 ≤ _; omega, ?_, fun s hs hs' => ?_, fun s hs => ?_⟩
    · rcases hd with ⟨-, htotal, hge, -⟩ | ⟨-, hlog15, hlast, hbefore, -⟩
      · refine .inl ⟨⟨r1.nc, r1.charnum - 1, n, fun s hs => hge s (by omega), ?_, by omega, by omega,
          by omega⟩, rfl, rfl, rfl⟩
        rw [Nat.sub_add_cancel hpos]
        exact htotal
      · exact .inr ⟨hlog15, hlast, hbefore⟩
    · show r1.ip + (r1.bitCount + 7) >>> 3 ≤ hbSize
      rw [shiftRight_3]
      omega
    · have hs : r1.charnum - 1 < s := hs
      exact hzero s (by omega) hs'
    · refine (hframe s hs).trans ?_
      subst hr0
      exact if_neg (by omega)

/-- **Any bytes** read as a distribution of what they announce, or give an error: no bytes past the
buffer are read, and the counts past `maxSymbolValue` are left alone.  At table log 15 one symbol can
have more cells than a `short` counts. -/
theorem readNCount_distribution (nc : ℕ → ℤ) (hmax : maxSymbolValue ≤ 255) (hagree : Agree src src' hbSize) :
    readNCount nc maxSymbolValue src hbSize = readNCount nc maxSymbolValue src' hbSize ∧
      ∀ r, readNCount nc maxSymbolValue src hbSize = .ok r → Accepted nc maxSymbolValue hbSize r := by
  unfold readNCount
  split_ifs with h8
  · have hbuf : Agree (memcpy src (fun _ => 0) 0 0 hbSize) (memcpy src' (fun _ => 0) 0 0 hbSize) 8 := by
      intro i _
      by_cases hi : i < hbSize
      · rw [memcpy_in _ _ (Nat.zero_le _) (by omega), memcpy_in _ _ (Nat.zero_le _) (by omega)]
        exact hagree _ (by omega)
      · rw [memcpy_out _ _ (.inr (by omega)), memcpy_out _ _ (.inr (by omega))]
    obtain ⟨heq, hacc⟩ := readNCountBody_sound nc hmax le_rfl hbuf
    rw [← heq]
    refine ⟨rfl, fun r hr => ?_⟩
    cases hbody : readNCountBody nc maxSymbolValue (memcpy src (fun _ => 0) 0 0 hbSize) 8 with
    | error e =>
      rw [hbody] at hr
      exact absurd hr (by simp)
    | ok r' =>
      rw [hbody] at hr
      dsimp only at hr
      split_ifs at hr with hsize
      obtain rfl := Except.ok.inj hr
      have h := hacc _ hbody
      exact ⟨h.distribution, h.symbol_le, by omega, h.zero, h.frame⟩
  · exact readNCountBody_sound nc hmax (by omega) hagree

/-- A header in which symbol 0 has all 32768 cells. -/
example : (readNCount (fun _ => 0) 4 (fun i => [0xFA, 0xFF, 0x0F].getD i 0) 3).toOption.map (fun r =>
    (r.nc 0, r.maxSymbolValue, r.tableLog)) = some (-32768, 0, 15) := by
  decide +kernel

/-- Two bytes that are a header, whatever follows them. -/
theorem readNCount_distribution_two :
    ∃ r, readNCount (fun _ => 7) 4 (fun i => [80, 29].getD i 0xAA) 2 = .ok r ∧
      readNCount (fun _ => 7) 4 (fun i => [80, 29].getD i 0) 2 = .ok r ∧
      Accepted (fun _ => 7) 4 2 r := by
  have hok : (readNCount (fun _ => 7) 4 (fun i => [80, 29].getD i 0xAA) 2).toOption.isSome = true := by
    decide +kernel
  have hagree : Agree (fun i => [80, 29].getD i 0xAA) (fun i => [80, 29].getD i 0) 2 := fun i hi => by
    interval_cases i <;> rfl
  obtain ⟨heq, hacc⟩ := readNCount_distribution (fun _ => 7) (show 4 ≤ 255 by decide) hagree
  cases hr : readNCount (fun _ => 7) 4 (fun i => [80, 29].getD i 0xAA) 2 with
  | error e =>
    rw [hr] at hok
    cases hok
  | ok r => exact ⟨r, rfl, heq ▸ hr, hacc r hr⟩

end Sound

section RoundTrip

open NCountReader

variable {nc : ℕ → ℤ} {maxSymbolValue hbSize : ℕ} {src : Mem} {fs : List (ℕ × ℕ)}

/-- What is read of the header of a distribution: its counts up to the last that is not zero. -/
structure Recovers (d : Distribution) (maxSymbolValue size : ℕ) (r : NCountResult) : Prop where
  size : r.size = size
  tableLog : r.tableLog = d.tableLog
  symbol_le : r.maxSymbolValue ≤ d.maxSymbolValue
  last : d.nc r.maxSymbolValue ≠ 0
  same : ∀ s ≤ d.maxSymbolValue, r.nc s = d.nc s
  zero : ∀ s, d.maxSymbolValue < s → s ≤ maxSymbolValue → r.nc s = 0
  rest : ∀ s, r.maxSymbolValue < s → s ≤ d.maxSymbolValue → d.nc s = 0

theorem readNCountBody_header (nc : ℕ → ℤ) (d : Distribution) (hfs : d.HeaderOf fs)
    (h14 : d.tableLog ≤ 14) (h8 : 8 ≤ hbSize)
    (hsize : (bitsOf fs + 11) / 8 ≤ hbSize)
    (hval : leValue src 0 ((bitsOf fs + 11) / 8) =
      (BitStack.empty.pushAll ((4, d.tableLog - 5) :: fs)).val)
    (hmax : d.maxSymbolValue ≤ maxSymbolValue) :
    ∃ r, readNCountBody nc maxSymbolValue src hbSize = .ok r ∧
      Recovers d maxSymbolValue ((bitsOf fs + 11) / 8) r := by
  have h5 := d.log_ge
  have hsize15 : d.size ≤ 2 ^ 14 := Nat.pow_le_pow_right (by decide) h14
  -- the fields lie in the buffer
  have hlen : (BitStack.empty.pushAll ((4, d.tableLog - 5) :: fs)).len = 4 + bitsOf fs := by
    rw [BitStack.pushAll_len, ← bitsOf, bitsOf_cons, BitStack.empty_len, Nat.zero_add]
  have hfields : BitStack.FieldsAt (leValue src 0 hbSize) 0 ((4, d.tableLog - 5) :: fs) := by
    refine BitStack.fieldsAt_pushAll (b := BitStack.empty) ?_
    have hdvd : 2 ^ (4 + bitsOf fs) ∣ 256 ^ ((bitsOf fs + 11) / 8) := by
      rw [pow_256]
      exact Nat.pow_dvd_pow 2 (by omega)
    have hlt := (BitStack.empty.pushAll ((4, d.tableLog - 5) :: fs)).val_lt
    rw [hlen] at hlt ⊢
    rw [← Nat.mod_mod_of_dvd _ hdvd, leValue_mod _ _ hsize, hval, Nat.mod_eq_of_lt hlt]
  obtain ⟨hlog, hrest⟩ := hfields
  have hlog : (leValue src 0 4 &&& 0xF) + 5 = d.tableLog := by
    have hmask : (leValue src 0 4 &&& 0xF) = leValue src 0 4 % 2 ^ 4 := and_bitMask _ 4
    have hword : leValue src 0 4 = leValue src 0 hbSize % 2 ^ 32 := by
      rw [show (2 : ℕ) ^ 32 = 256 ^ 4 from rfl, leValue_mod _ _ (by omega)]
    rw [Nat.pow_zero, Nat.div_one] at hlog
    rw [hmask, hword, Nat.mod_mod_of_dvd _ (Nat.pow_dvd_pow 2 (show 4 ≤ 32 by decide)), hlog]
    dsimp only
    omega
  unfold readNCountBody
  dsimp only
  rw [hlog, if_neg (by omega), Nat.one_shiftLeft]
  generalize hr0 : (NCountReader.mk 0 (leValue src 0 4 >>> 4) 4 ((2 ^ d.tableLog : ℕ) + 1)
    (2 ^ d.tableLog) (d.tableLog + 1) 0 false fun s => if s ≤ maxSymbolValue then 0 else nc s) = r0
  have hw : Window src hbSize r0 := by
    subst hr0
    exact ⟨by show 0 + 4 ≤ hbSize; omega, by show 4 ≤ 31; decide, .inl (by show 4 ≤ 7; decide), rfl⟩
  have hreads : Reads d.nc maxSymbolValue r0 0 (d.size + 1) (d.tableLog + 1) false := by
    subst hr0
    exact ⟨rfl, rfl, rfl, rfl, rfl, fun t ht => absurd ht (Nat.not_lt_zero t), fun t _ ht => if_pos ht⟩
  have hbit : r0.bit = 4 := by
    subst hr0
    rfl
  have hpos : 0 < d.size := Nat.two_pow_pos _
  obtain ⟨hread, hend⟩ := loop_header hfs (by omega) (maxSymbolValue + 1) (by omega) (by omega) d.holding
    (by omega) hw hreads (by rw [hbit]; exact hrest) (by rw [hbit]; omega)
  generalize r0.loop src hbSize (maxSymbolValue + 1) (maxSymbolValue + 1) = r1 at *
  have hchar := hread.pos
  have hle := hread.le
  rw [if_neg (not_not.mpr hread.remaining), if_neg (by omega), if_neg (not_lt.mpr hread.bit_le)]
  refine ⟨_, rfl, ?_, rfl, by show r1.charnum - 1 ≤ _; omega, hread.last,
    fun s hs => hread.same s (by omega), fun s hs hs' => hread.zero s (by omega) hs',
    fun s hs hs' => hread.rest s (by dsimp only at hs; omega) (by omega)⟩
  rw [hbit] at hend
  unfold bit at hend
  show r1.ip + (r1.bitCount + 7) >>> 3 = _
  rw [shiftRight_3]
  omega

/-- What is read of a header, whatever follows it, also in a buffer of less than eight bytes. -/
theorem readNCount_header (nc : ℕ → ℤ) (d : Distribution) (hfs : d.HeaderOf fs)
    (h14 : d.tableLog ≤ 14) (hsize : (bitsOf fs + 11) / 8 ≤ hbSize)
    (hval : leValue src 0 ((bitsOf fs + 11) / 8) =
      (BitStack.empty.pushAll ((4, d.tableLog - 5) :: fs)).val)
    (hmax : d.maxSymbolValue ≤ maxSymbolValue) :
    ∃ r, readNCount nc maxSymbolValue src hbSize = .ok r ∧
      Recovers d maxSymbolValue ((bitsOf fs + 11) / 8) r := by
  unfold readNCount
  split_ifs with h8
  · have hval' : leValue (memcpy src (fun _ => 0) 0 0 hbSize) 0 ((bitsOf fs + 11) / 8) =
        (BitStack.empty.pushAll ((4, d.tableLog - 5) :: fs)).val := by
      rw [← hval]
      refine leValue_congr fun k hk => ?_
      rw [memcpy_in _ _ (Nat.zero_le _) (by omega), Nat.sub_zero, Nat.zero_add]
    obtain ⟨r, hr, hrec⟩ := readNCountBody_header nc d hfs h14 le_rfl (by omega) hval' hmax
    rw [hr]
    dsimp only
    rw [if_neg (by rw [hrec.size]; omega)]
    exact ⟨r, rfl, hrec⟩
  · exact readNCountBody_header nc d hfs h14 (by omega) hsize hval hmax

/-- **Round trip**: the header that is written is read back, whatever follows it. -/
theorem nCount_roundTrip (nc : ℕ → ℤ) (d : Distribution) {buffer out : Mem} {bufferSize size : ℕ}
    (hwrite : writeNCount buffer bufferSize d.nc d.maxSymbolValue d.tableLog = .ok (size, out))
    (hagree : Agree out src size) (hsize : size ≤ hbSize) (hmax : d.maxSymbolValue ≤ maxSymbolValue) :
    ∃ r, readNCount nc maxSymbolValue src hbSize = .ok r ∧ Recovers d maxSymbolValue size r := by
  obtain ⟨fs, hfs⟩ := d.exists_header
  have h14 : d.tableLog ≤ 14 := by
    by_contra h
    rw [writeNCount, if_pos (by omega)] at hwrite
    cases hwrite
  obtain ⟨rfl, -, hval, -⟩ := writeNCount_header d hfs hwrite
  rw [leValue_congr fun k hk => hagree (0 + k) (by omega)] at hval
  exact readNCount_header nc d hfs h14 hsize hval hmax

theorem nCount_roundTrip_three :
    ∃ out r, writeNCount (fun _ => 0) 512 threeSymbols.nc 2 5 = .ok (2, out) ∧
      readNCount (fun _ => 7) 4 (fun i => if i < 2 then out i else 0xAA) 5 = .ok r ∧
      Recovers threeSymbols 4 2 r := by
  have hsize : (writeNCount (fun _ => 0) 512 threeSymbols.nc 2 5).toOption.map Prod.fst = some 2 := by
    decide +kernel
  cases hw : writeNCount (fun _ => 0) 512 threeSymbols.nc 2 5 with
  | error e =>
    rw [hw] at hsize
    cases hsize
  | ok w =>
    rw [hw] at hsize
    obtain ⟨n, out⟩ := w
    obtain rfl : n = 2 := Option.some.inj hsize
    have hagree : Agree out (fun i => if i < 2 then out i else 0xAA) 2 := fun i hi => (if_pos hi).symm
    obtain ⟨r, hr, hrec⟩ := nCount_roundTrip (fun _ => 7) threeSymbols hw hagree (show 2 ≤ 5 by decide)
      (show 2 ≤ 4 by decide)
    exact ⟨out, r, rfl, hr, hrec⟩

end RoundTrip

end ZramUpgrade.Zstd
