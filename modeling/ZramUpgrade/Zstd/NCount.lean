import ZramUpgrade.Lib.Loop
import ZramUpgrade.Zstd.FseTable

/-!
# Zstd.NCount — `FSE_writeNCount`

The header of a distribution: four bits of `tableLog`, then the counts in order, each in as many bits
as what remains to be distributed leaves it, and after a zero the length of the run of zeros in pairs
of bits.  `Header` lists the fields, and the writer pushes them (`writeNCount_spec`).  Where the caller
says that the buffer is large enough a byte may be written past it (`nCountWriteBound_short`).
-/

namespace ZramUpgrade.Zstd

open Lib

/-! ## The writer -/

/-- The locals of `FSE_writeNCount_generic`; `bitStream` is a `U32`. -/
structure NCountWriter where
  out : ℕ
  dst : Mem
  bitStream : ℕ
  bitCount : ℕ
  remaining : ℤ
  threshold : ℕ
  nbBits : ℕ
  symbol : ℕ
  previousIs0 : Bool

namespace NCountWriter

/-- `bitStream += value << bitCount`. -/
def add (w : NCountWriter) (value : ℕ) : NCountWriter :=
  { w with bitStream := (w.bitStream + value <<< w.bitCount) % 2 ^ 32 }

/-- Two bytes out, where `writeIsSafe` or there is room. -/
def put (writeIsSafe : Bool) (headerBufferSize : ℕ) (w : NCountWriter) : Except ErrorCode NCountWriter :=
  if writeIsSafe = false ∧ headerBufferSize < w.out + 2 then .error .dstSizeTooSmall
  else .ok { w with
    dst := leStore w.dst w.out w.bitStream 2
    out := w.out + 2
    bitStream := w.bitStream >>> 16 }

/-- Two bytes out once there are more than 16 bits. -/
def putFull (writeIsSafe : Bool) (headerBufferSize : ℕ) (w : NCountWriter) :
    Except ErrorCode NCountWriter :=
  if 16 < w.bitCount then
    (w.put writeIsSafe headerBufferSize).map fun w => { w with bitCount := w.bitCount - 16 }
  else .ok w

/-- `while (symbol >= start+24)`: 24 zeros in 16 bits; `start` and the writer. -/
def runs24 (writeIsSafe : Bool) (headerBufferSize symbol start : ℕ) (w : NCountWriter) :
    Except ErrorCode (ℕ × NCountWriter) :=
  if start + 24 ≤ symbol then
    match (w.add 0xFFFF).put writeIsSafe headerBufferSize with
    | .error e => .error e
    | .ok w => runs24 writeIsSafe headerBufferSize symbol (start + 24) w
  else .ok (start, w)
termination_by symbol - start

/-- `while (symbol >= start+3)`: 3 zeros in 2 bits. -/
def runs3 (symbol start : ℕ) (w : NCountWriter) : ℕ × NCountWriter :=
  if start + 3 ≤ symbol then
    runs3 symbol (start + 3) { w.add 3 with bitCount := w.bitCount + 2 }
  else (start, w)
termination_by symbol - start

/-- The first symbol from `symbol` on that counts, or the end of the alphabet. -/
def skipZeros (nc : ℕ → ℤ) (alphabetSize symbol : ℕ) : ℕ :=
  seek (· + 1) (fun s => alphabetSize ≤ s ∨ nc s ≠ 0) (alphabetSize - symbol) symbol

/-- The run of zeros after a zero; `none` is the `break` at the end of the alphabet. -/
def zeros (nc : ℕ → ℤ) (alphabetSize : ℕ) (writeIsSafe : Bool) (headerBufferSize : ℕ)
    (w : NCountWriter) : Except ErrorCode (Option NCountWriter) :=
  let symbol := skipZeros nc alphabetSize w.symbol
  if symbol = alphabetSize then .ok none
  else
    match runs24 writeIsSafe headerBufferSize symbol w.symbol w with
    | .error e => .error e
    | .ok (start, w) =>
      let (start, w) := runs3 symbol start w
      let w := { w.add (symbol - start) with bitCount := w.bitCount + 2, symbol := symbol }
      (w.putFull writeIsSafe headerBufferSize).map some

/-- `while (remaining<threshold) { nbBits--; threshold>>=1; }`. -/
def shrink (remaining threshold nbBits : ℕ) : ℕ × ℕ :=
  if remaining < threshold then shrink remaining (threshold / 2) (nbBits - 1) else (threshold, nbBits)
termination_by threshold

/-- The count of a symbol. -/
def count (nc : ℕ → ℤ) (writeIsSafe : Bool) (headerBufferSize : ℕ) (w : NCountWriter) :
    Except ErrorCode NCountWriter :=
  let count := nc w.symbol
  let max : ℤ := 2 * w.threshold - 1 - w.remaining
  let remaining := w.remaining - if count < 0 then -count else count
  -- +1 for extra accuracy
  let count := count + 1
  let count := if (w.threshold : ℤ) ≤ count then count + max else count
  let bitCount := w.bitCount + w.nbBits - if count < max then 1 else 0
  if remaining < 1 then .error .generic
  else
    let (threshold, nbBits) := shrink remaining.toNat w.threshold w.nbBits
    let w := { w.add (count % 2 ^ 32).toNat with
      bitCount, remaining, threshold, nbBits, symbol := w.symbol + 1, previousIs0 := count = 1 }
    w.putFull writeIsSafe headerBufferSize

/-- The `while` loop; every turn takes a symbol. -/
def loop (nc : ℕ → ℤ) (alphabetSize : ℕ) (writeIsSafe : Bool) (headerBufferSize : ℕ) :
    ℕ → NCountWriter → Except ErrorCode NCountWriter
  | 0, w => .ok w
  | n + 1, w =>
    if w.symbol < alphabetSize ∧ 1 < w.remaining then
      match if w.previousIs0 then w.zeros nc alphabetSize writeIsSafe headerBufferSize else .ok (some w) with
      | .error e => .error e
      | .ok none => .ok w
      | .ok (some w) =>
        match w.count nc writeIsSafe headerBufferSize with
        | .error e => .error e
        | .ok w => loop nc alphabetSize writeIsSafe headerBufferSize n w
    else .ok w

end NCountWriter

/-- `FSE_writeNCount_generic`: the size and the buffer. -/
def writeNCountGeneric (header : Mem) (headerBufferSize : ℕ) (nc : ℕ → ℤ) (maxSymbolValue tableLog : ℕ)
    (writeIsSafe : Bool) : Except ErrorCode (ℕ × Mem) :=
  let tableSize := 1 <<< tableLog
  let w : NCountWriter :=
    { out := 0, dst := header, bitStream := tableLog - 5, bitCount := 4, remaining := tableSize + 1
      threshold := tableSize, nbBits := tableLog + 1, symbol := 0, previousIs0 := false }
  match w.loop nc (maxSymbolValue + 1) writeIsSafe headerBufferSize (maxSymbolValue + 1) with
  | .error e => .error e
  | .ok w =>
    if w.remaining ≠ 1 then .error .generic
    else if writeIsSafe = false ∧ headerBufferSize < w.out + 2 then .error .dstSizeTooSmall
    else .ok (w.out + (w.bitCount + 7) / 8, leStore w.dst w.out w.bitStream 2)

/-- `FSE_NCountWriteBound`. -/
def nCountWriteBound (maxSymbolValue tableLog : ℕ) : ℕ :=
  if maxSymbolValue ≠ 0 then ((maxSymbolValue + 1) * tableLog + 4 + 2) / 8 + 1 + 2 else 512

/-- `FSE_writeNCount`. -/
def writeNCount (buffer : Mem) (bufferSize : ℕ) (nc : ℕ → ℤ) (maxSymbolValue tableLog : ℕ) :
    Except ErrorCode (ℕ × Mem) :=
  if 12 < tableLog then .error .tableLogTooLarge
  else if tableLog < 5 then .error .generic
  else if bufferSize < nCountWriteBound maxSymbolValue tableLog then
    writeNCountGeneric buffer bufferSize nc maxSymbolValue tableLog false
  else writeNCountGeneric buffer bufferSize nc maxSymbolValue tableLog true

/-! ## The fields of a header -/

/-- The field of a count where `remaining` points, one for accuracy, are left: one bit less for the
small values. -/
def countField (remaining nbBits : ℕ) (count : ℤ) : ℕ × ℕ :=
  let max := 2 ^ nbBits - 1 - remaining
  let value := (count + 1).toNat
  if value < max then (nbBits - 1, value)
  else (nbBits, if 2 ^ (nbBits - 1) ≤ value then value + max else value)

/-- The bits of the next count. -/
def nextBits (remaining nbBits : ℕ) : ℕ :=
  if remaining < 2 ^ (nbBits - 1) then highbit32 remaining + 1 else nbBits

/-- The fields of a run of zeros. -/
def zeroFields (z : ℕ) : List (ℕ × ℕ) := List.replicate (z / 3) (2, 3) ++ [(2, z % 3)]

/-- `nbBits` bits hold what remains. -/
structure Holding (remaining nbBits : ℕ) : Prop where
  pos : 1 ≤ nbBits
  le : nbBits ≤ 16
  low : 2 ^ (nbBits - 1) ≤ remaining
  high : remaining < 2 ^ nbBits

/-- The header of the symbols from `s` to `n - 1`, `remaining` points still to be given out: at every
turn a run of zeros if the symbol before was one, then a count. -/
inductive Header (nc : ℕ → ℤ) (n : ℕ) : ℕ → ℕ → ℕ → Bool → List (ℕ × ℕ) → Prop where
  | done {s nbBits : ℕ} {previousIs0 : Bool} (h : ∀ t, s ≤ t → t < n → nc t = 0) :
      Header nc n s 1 nbBits previousIs0 []
  | turn {s remaining nbBits : ℕ} {previousIs0 : Bool} {fs : List (ℕ × ℕ)} (z : ℕ)
      (hmore : 1 < remaining) (hin : s + z < n) (hz : previousIs0 = false → z = 0)
      (hzero : ∀ t, s ≤ t → t < s + z → nc t = 0) (hne : previousIs0 = true → nc (s + z) ≠ 0)
      (hge : -1 ≤ nc (s + z)) (hlt : (nc (s + z)).natAbs < remaining)
      (hrest : Header nc n (s + z + 1) (remaining - (nc (s + z)).natAbs)
        (nextBits (remaining - (nc (s + z)).natAbs) nbBits) (decide (nc (s + z) = 0)) fs) :
      Header nc n s remaining nbBits previousIs0
        ((if previousIs0 then zeroFields z else []) ++ countField remaining nbBits (nc (s + z)) :: fs)

/-- The bits of a header. -/
def bitsOf (fs : List (ℕ × ℕ)) : ℕ := (fs.map Prod.fst).sum

theorem bitsOf_append (fs gs : List (ℕ × ℕ)) : bitsOf (fs ++ gs) = bitsOf fs + bitsOf gs := by
  rw [bitsOf, List.map_append, List.sum_append, ← bitsOf, ← bitsOf]

theorem bitsOf_cons (f : ℕ × ℕ) (fs : List (ℕ × ℕ)) : bitsOf (f :: fs) = f.1 + bitsOf fs := by
  rw [bitsOf, List.map_cons, List.sum_cons, ← bitsOf]

section Fields

variable {nc : ℕ → ℤ} {n s remaining nbBits r k : ℕ} {c : ℤ} {previousIs0 : Bool} {fs : List (ℕ × ℕ)}

theorem Holding.double (h : Holding remaining nbBits) : 2 ^ nbBits = 2 * 2 ^ (nbBits - 1) := by
  have := h.pos
  rw [← Nat.pow_succ']
  congr 1
  omega

/-- With points left there are two values at least. -/
theorem Holding.two_le (h : Holding remaining nbBits) (hmore : 1 < remaining) : 2 ≤ nbBits := by
  have := h.double
  have := h.high
  have := h.pos
  rcases Nat.lt_or_ge nbBits 2 with h2 | h2
  · obtain rfl : nbBits = 1 := by omega
    omega
  · exact h2

/-- The next bits hold what remains then. -/
theorem Holding.next (h : Holding remaining nbBits) (h1 : 1 ≤ r) (hr : r ≤ remaining) :
    Holding r (nextBits r nbBits) := by
  have hpos := h.pos
  have hle := h.le
  have hhigh := h.high
  unfold nextBits
  split_ifs with hlt
  · obtain ⟨hl, hu⟩ := (Nat.log2_eq_iff (show r ≠ 0 by omega)).mp rfl
    have hlog : highbit32 r < nbBits - 1 := (Nat.log2_lt (by omega)).mpr hlt
    exact ⟨Nat.le_add_left _ _, by omega, by rw [Nat.add_sub_cancel]; exact hl, hu⟩
  · exact ⟨hpos, hle, by omega, by omega⟩

theorem nextBits_le (h : Holding remaining nbBits) : nextBits r nbBits ≤ nbBits := by
  have hpos := h.pos
  unfold nextBits
  split_ifs with hlt
  · rcases Nat.eq_zero_or_pos r with rfl | hr
    · show Nat.log2 0 + 1 ≤ nbBits
      rw [Nat.log2_zero]
      omega
    · have : highbit32 r < nbBits - 1 := (Nat.log2_lt (by omega)).mpr hlt
      omega
  · exact le_rfl

/-- A field has one bit at least and 16 at most, and its value fits. -/
theorem countField_spec (h : Holding remaining nbBits) (hmore : 1 < remaining)
    (hlt : c.natAbs < remaining) :
    1 ≤ (countField remaining nbBits c).1 ∧ (countField remaining nbBits c).1 ≤ 16 ∧
      (countField remaining nbBits c).2 < 2 ^ (countField remaining nbBits c).1 := by
  have h2 := h.two_le hmore
  have hle := h.le
  have hlow := h.low
  have hhigh := h.high
  have hdouble := h.double
  unfold countField
  dsimp only
  split_ifs <;> dsimp only <;> omega

/-- A header that is not over has bits. -/
theorem Header.bits_pos (h : Header nc n s remaining nbBits previousIs0 fs)
    (hold : Holding remaining nbBits) (hmore : 1 < remaining) : 1 ≤ bitsOf fs := by
  cases h with
  | done => omega
  | turn z _ _ _ _ _ _ hlt _ =>
    rw [bitsOf_append, bitsOf_cons]
    have := (countField_spec hold hmore hlt).1
    omega

/-- What the counts may take beyond `L` bits each while `remaining` points are left.  Only near the top of
the range does a lone zero and the count after it take more than twice `L`: each such time the distance
from the top doubles. -/
def slack (L remaining : ℕ) : ℕ :=
  if remaining < 2 ^ (L - 1) then 0
  else if remaining + 3 ≤ 2 ^ L then L - 1 - Nat.log2 (2 ^ L - remaining - 2)
  else L + 1 + 2 * (remaining + 2 - 2 ^ L)

theorem slack_low {L : ℕ} (h : r < 2 ^ (L - 1)) : slack L r = 0 := if_pos h

theorem slack_mid {L : ℕ} (h1 : 2 ^ (L - 1) ≤ r) (h2 : r + 3 ≤ 2 ^ L) :
    slack L r = L - 1 - Nat.log2 (2 ^ L - r - 2) := by
  rw [slack, if_neg (not_lt.mpr h1), if_pos h2]

theorem slack_high {L : ℕ} (h1 : 2 ^ (L - 1) ≤ r) (h2 : 2 ^ L < r + 3) :
    slack L r = L + 1 + 2 * (r + 2 - 2 ^ L) := by
  rw [slack, if_neg (not_lt.mpr h1), if_neg (not_le.mpr h2)]

theorem slack_mono {L r' : ℕ} (h : r' ≤ r) : slack L r' ≤ slack L r := by
  by_cases h1 : r' < 2 ^ (L - 1)
  · rw [slack_low h1]
    exact Nat.zero_le _
  · by_cases h2 : r + 3 ≤ 2 ^ L
    · rw [slack_mid (by omega) (by omega), slack_mid (by omega) h2]
      have : Nat.log2 (2 ^ L - r - 2) ≤ Nat.log2 (2 ^ L - r' - 2) :=
        (Nat.le_log2 (by omega)).mpr ((Nat.log2_self_le (by omega)).trans (by omega))
      omega
    · rw [slack_high (by omega) (not_le.mp h2)]
      by_cases h3 : r' + 3 ≤ 2 ^ L
      · rw [slack_mid (by omega) h3]
        omega
      · rw [slack_high (by omega) (not_le.mp h3)]
        omega

/-- Near the top, every point less takes two bits of slack. -/
theorem slack_drop {L r' : ℕ} (h5 : 5 ≤ L) (h1 : 2 ^ (L - 1) ≤ r) (h2 : 2 ^ L < r + 3) (h : r' < r) :
    slack L r' + 2 ≤ slack L r := by
  have hsucc : 2 ^ L = 2 * 2 ^ (L - 1) := by
    rw [← Nat.pow_succ', show (L - 1).succ = L by omega]
  have h16 : 2 ^ 4 ≤ 2 ^ (L - 1) := Nat.pow_le_pow_right (by decide) (by omega)
  rw [slack_high h1 h2]
  by_cases h3 : r' + 3 ≤ 2 ^ L
  · refine le_trans (Nat.add_le_add_right (slack_mono (r := 2 ^ L - 3) (by omega)) 2) ?_
    rw [slack_mid (by omega) (by omega)]
    omega
  · rw [slack_high (by omega) (not_le.mp h3)]
    omega

/-- **The bits of a turn**, with the two that say that a zero stands alone, are paid for. -/
theorem countField_slack {L : ℕ} (h5 : 5 ≤ L) (hold : Holding remaining nbBits) (hmore : 1 < remaining)
    (hlt : c.natAbs < remaining) (hge : -1 ≤ c) (hnb : nbBits ≤ L + 1) (hrem : remaining ≤ 2 ^ L + 1)
    (hp : previousIs0 = true → c ≠ 0) :
    (if previousIs0 then 2 else 0) + (countField remaining nbBits c).1 +
        slack L (remaining - c.natAbs) + (if c = 0 ∧ remaining + 3 ≤ 2 ^ L then 1 else 0) ≤
      L + slack L remaining + if previousIs0 = true ∧ remaining + 3 ≤ 2 ^ L then 1 else 0 := by
  have hhigh := hold.high
  have hlow := hold.low
  have hsucc : 2 ^ L = 2 * 2 ^ (L - 1) := by
    rw [← Nat.pow_succ', show (L - 1).succ = L by omega]
  have h16 : 2 ^ 4 ≤ 2 ^ (L - 1) := Nat.pow_le_pow_right (by decide) (by omega)
  -- the bits of the table, by what remains
  have hbits : remaining < 2 ^ (L - 1) ∧ nbBits ≤ L - 1 ∨
      2 ^ (L - 1) ≤ remaining ∧ remaining < 2 ^ L ∧ nbBits = L ∨ 2 ^ L ≤ remaining ∧ nbBits = L + 1 := by
    rcases Nat.lt_or_ge nbBits L with h | h
    · have : 2 ^ nbBits ≤ 2 ^ (L - 1) := Nat.pow_le_pow_right (by decide) (by omega)
      exact .inl ⟨by omega, by omega⟩
    · rcases Nat.eq_or_lt_of_le h with rfl | h
      · exact .inr (.inl ⟨hlow, hhigh, rfl⟩)
      · obtain rfl : nbBits = L + 1 := by omega
        exact .inr (.inr ⟨hlow, rfl⟩)
  have hnarrow : (c + 1).toNat < 2 ^ nbBits - 1 - remaining →
      (countField remaining nbBits c).1 = nbBits - 1 := fun h => by
    unfold countField
    exact congrArg Prod.fst (if_pos h)
  have hwidth : (countField remaining nbBits c).1 ≤ nbBits := by
    unfold countField
    dsimp only
    split_ifs <;> dsimp only <;> omega
  have hmono := slack_mono (L := L) (Nat.sub_le remaining c.natAbs)
  -- the two bits are paid before where there is room, and else now
  have hfar : remaining + 3 ≤ 2 ^ L → (if previousIs0 then 2 else 0) ≤
      (if previousIs0 = true ∧ remaining + 3 ≤ 2 ^ L then 1 else 0) + 1 ∧
      (if c = 0 ∧ remaining + 3 ≤ 2 ^ L then 1 else 0) ≤ 1 := fun h => by
    cases previousIs0 <;> simp [h] <;> split_ifs <;> omega
  have hnear : ¬ remaining + 3 ≤ 2 ^ L → (if previousIs0 then 2 else 0) ≤ 2 ∧
      (if c = 0 ∧ remaining + 3 ≤ 2 ^ L then 1 else 0) = 0 := fun h => by
    cases previousIs0 <;> simp [h]
  have hzero : c = 0 → (if previousIs0 then 2 else 0) = 0 := fun h => by
    obtain rfl : previousIs0 = false := Bool.eq_false_iff.mpr fun h' => hp h' h
    rfl
  have hsome : c ≠ 0 → (if c = 0 ∧ remaining + 3 ≤ 2 ^ L then 1 else 0) = 0 := fun h =>
    if_neg fun h' => h h'.1
  generalize (countField remaining nbBits c).1 = f at *
  generalize (if previousIs0 then 2 else 0 : ℕ) = flag at *
  generalize (if c = 0 ∧ remaining + 3 ≤ 2 ^ L then 1 else 0 : ℕ) = owed at *
  generalize (if previousIs0 = true ∧ remaining + 3 ≤ 2 ^ L then 1 else 0 : ℕ) = paid at *
  have hdouble : 2 ^ (L + 1) = 2 * 2 ^ L := Nat.pow_succ'
  by_cases h0 : c = 0
  · -- a zero
    have hvalue : (c + 1).toNat = 1 := by omega
    rw [hvalue] at hnarrow
    rcases hbits with ⟨h1, h2⟩ | ⟨h1, h2, rfl⟩ | ⟨h1, rfl⟩ <;> omega
  · rcases hbits with ⟨h1, h2⟩ | ⟨h1, h2, rfl⟩ | ⟨h1, rfl⟩
    · rw [slack_low h1, slack_low (by omega)]
      omega
    · by_cases hin : remaining + 3 ≤ 2 ^ nbBits
      · by_cases hval : (c + 1).toNat < 2 ^ nbBits - 1 - remaining
        · have := hnarrow hval
          omega
        · -- the distance from the top doubles
          have hdrop : slack nbBits (remaining - c.natAbs) + 1 ≤ slack nbBits remaining := by
            have hlog : Nat.log2 (2 ^ nbBits - remaining - 2) < nbBits - 1 :=
              (Nat.log2_lt (by omega)).mpr (by omega)
            rw [slack_mid h1 hin]
            by_cases hleave : remaining - c.natAbs < 2 ^ (nbBits - 1)
            · rw [slack_low hleave]
              omega
            · rw [slack_mid (by omega) (by omega)]
              have : Nat.log2 (2 ^ nbBits - remaining - 2) + 1 ≤
                  Nat.log2 (2 ^ nbBits - (remaining - c.natAbs) - 2) := by
                refine (Nat.le_log2 (by omega)).mpr ?_
                have := Nat.log2_self_le (show 2 ^ nbBits - remaining - 2 ≠ 0 by omega)
                rw [Nat.pow_succ]
                omega
              omega
          omega
      · have := slack_drop h5 (by omega) (not_le.mp hin) (show remaining - c.natAbs < remaining by omega)
        omega
    · by_cases hval : (c + 1).toNat < 2 ^ (L + 1) - 1 - remaining
      · have := slack_drop h5 (show 2 ^ (L - 1) ≤ remaining by omega) (by omega)
          (show remaining - c.natAbs < remaining by omega)
        have := hnarrow hval
        omega
      · rw [slack_low (by omega), slack_high (by omega) (by omega)]
        omega

/-- **The bits of a header**: `L` for every symbol, and the slack. -/
theorem Header.bits_le {L : ℕ} (h : Header nc n s remaining nbBits previousIs0 fs) (h5 : 5 ≤ L)
    (hold : Holding remaining nbBits) (hnb : nbBits ≤ L + 1) (hrem : remaining ≤ 2 ^ L + 1) :
    bitsOf fs ≤ L * (n - s) + slack L remaining +
      if previousIs0 = true ∧ remaining + 3 ≤ 2 ^ L then 1 else 0 := by
  induction h with
  | done => exact Nat.zero_le _
  | @turn s remaining nbBits previousIs0 fs z hmore hin hz hzero hne hge hlt hrest ih =>
    rw [bitsOf_append, bitsOf_cons]
    have hturn := countField_slack h5 hold hmore hlt hge hnb hrem hne
    have hnext := hold.next (r := remaining - (nc (s + z)).natAbs) (by omega) (Nat.sub_le _ _)
    have hrec := ih hnext ((nextBits_le hold).trans hnb) (by omega)
    have hzeros : bitsOf (if previousIs0 then zeroFields z else []) ≤
        L * z + if previousIs0 then 2 else 0 := by
      have hz5 : 5 * z ≤ L * z := Nat.mul_le_mul_right _ h5
      split_ifs
      · have : bitsOf (zeroFields z) = 2 * (z / 3) + 2 := by
          simp [zeroFields, bitsOf, Nat.mul_comm]
        omega
      · exact Nat.zero_le _
    have hsplit : L * (n - s) = L * (n - (s + z + 1)) + L * z + L := by
      rw [← Nat.mul_add, ← Nat.mul_succ]
      congr 1
      omega
    have hzero : (decide (nc (s + z) = 0) = true ∧ remaining - (nc (s + z)).natAbs + 3 ≤ 2 ^ L) ↔
        (nc (s + z) = 0 ∧ remaining + 3 ≤ 2 ^ L) := by
      rw [decide_eq_true_eq]
      constructor <;> rintro ⟨h0, hle⟩ <;> refine ⟨h0, ?_⟩ <;> rw [h0] at * <;> simpa using hle
    simp only [hzero] at hrec
    omega

/-- With points left there are symbols left. -/
theorem Header.symbol_lt (h : Header nc n s remaining nbBits previousIs0 fs) (hmore : 1 < remaining) :
    s < n := by
  cases h with
  | done => omega
  | turn => omega

/-- **Every distribution has a header.** -/
theorem exists_header (hge : ∀ t < n, -1 ≤ nc t) (m : ℕ) :
    ∀ {s remaining nbBits : ℕ} (previousIs0 : Bool), n - s ≤ m → s ≤ n →
      remaining + cumul nc s = cumul nc n + 1 → ∃ fs, Header nc n s remaining nbBits previousIs0 fs := by
  have hcells : ∀ t, t < n → (nc t).natAbs = cellsOf nc t := fun t ht => by
    have := hge t ht
    unfold cellsOf
    split_ifs <;> omega
  -- without points left all that follows is zero
  have hdone : ∀ {s nbBits : ℕ} (previousIs0 : Bool), 1 + cumul nc s = cumul nc n + 1 →
      ∃ fs, Header nc n s 1 nbBits previousIs0 fs := fun {s _} _ heq =>
    ⟨[], .done fun t hst ht => by
      have h1 := cumul_mono nc hst
      have h2 := cumul_mono nc (Nat.succ_le_of_lt ht)
      rw [cumul, ← hcells t ht] at h2
      omega⟩
  induction m with
  | zero =>
    intro s remaining nbBits previousIs0 hm hs heq
    obtain rfl : s = n := by omega
    obtain rfl : remaining = 1 := by omega
    exact hdone previousIs0 heq
  | succ m ih =>
    intro s remaining nbBits previousIs0 hm hs heq
    have hmono := cumul_mono nc hs
    by_cases hmore : remaining = 1
    · subst hmore
      exact hdone previousIs0 heq
    · -- the zeros of the turn
      obtain ⟨z, hin, hz, hzero, hne⟩ : ∃ z, s + z < n ∧ (previousIs0 = false → z = 0) ∧
          (∀ t, s ≤ t → t < s + z → nc t = 0) ∧ (previousIs0 = true → nc (s + z) ≠ 0) := by
        have hlt : s < n := by
          rcases Nat.lt_or_ge s n with h | h
          · exact h
          · obtain rfl : s = n := by omega
            omega
        cases previousIs0 with
        | false => exact ⟨0, hlt, fun _ => rfl, fun t h1 h2 => by omega, by simp⟩
        | true =>
          have hex : ∃ z, s + z < n ∧ nc (s + z) ≠ 0 := by
            by_contra hall
            have hsame : ∀ k, s + k ≤ n → cumul nc (s + k) = cumul nc s := fun k => by
              induction k with
              | zero => exact fun _ => rfl
              | succ k ihk =>
                intro hk
                have hk0 : nc (s + k) = 0 := by
                  by_contra h0
                  exact hall ⟨k, by omega, h0⟩
                rw [← Nat.add_assoc, cumul, ihk (by omega), ← hcells (s + k) (by omega), hk0]
                rfl
            have := hsame (n - s) (by omega)
            rw [Nat.add_sub_cancel' hs] at this
            omega
          refine ⟨Nat.find hex, (Nat.find_spec hex).1, by simp, fun t h1 h2 => ?_,
            fun _ => (Nat.find_spec hex).2⟩
          by_contra h0
          have hin := (Nat.find_spec hex).1
          refine Nat.find_min hex (m := t - s) (by omega) ⟨by omega, ?_⟩
          rw [Nat.add_sub_cancel' h1]
          exact h0
      have hskip : ∀ k ≤ z, cumul nc (s + k) = cumul nc s := fun k => by
        induction k with
        | zero => exact fun _ => rfl
        | succ k ihk =>
          intro hk
          rw [← Nat.add_assoc, cumul, ihk (by omega), ← hcells (s + k) (by omega),
            hzero (s + k) (by omega) (by omega)]
          rfl
      have hcum : cumul nc (s + z + 1) = cumul nc s + (nc (s + z)).natAbs := by
        rw [cumul, hskip z le_rfl, hcells (s + z) hin]
      have hle := cumul_mono nc (show s + z + 1 ≤ n by omega)
      have hlt : (nc (s + z)).natAbs < remaining := by omega
      obtain ⟨fs, hfs⟩ := @ih (s + z + 1) (remaining - (nc (s + z)).natAbs)
        (nextBits (remaining - (nc (s + z)).natAbs) nbBits) (decide (nc (s + z) = 0))
        (by omega) (by omega) (by omega)
      exact ⟨_, .turn z (by omega) hin hz hzero hne (hge (s + z) hin) hlt hfs⟩

end Fields

/-! ## What the writer writes -/

namespace NCountWriter

/-- An error where a checked writer lacks the room for `bits` bits, else the postcondition. -/
def Outcome {α : Type} (writeIsSafe : Bool) (size bits : ℕ) (r : Except ErrorCode α) (post : α → Prop) :
    Prop :=
  (writeIsSafe = false ∧ size < (bits - 1) / 8 + 2 ∧ r = .error .dstSizeTooSmall) ∨
    ∃ a, r = .ok a ∧ post a

/-- Every place where two bytes may be put, no more than one byte past those of `bits` and checked to be
in the buffer, is below `K`. -/
def Bound (writeIsSafe : Bool) (size bits K : ℕ) : Prop :=
  ∀ out, out ≤ (bits - 1) / 8 → (writeIsSafe = false → out + 2 ≤ size) → out + 2 ≤ K

/-- The writer has written the stack `b`, and nothing at or past `K`. -/
structure Writes (header : Mem) (K : ℕ) (w : NCountWriter) (b : BitStack) : Prop where
  value : b.val = leValue w.dst 0 w.out + 256 ^ w.out * w.bitStream
  len : b.len = 8 * w.out + w.bitCount
  clean : w.bitStream < 2 ^ w.bitCount
  kept : ∀ j, K ≤ j → w.dst j = header j

variable {header : Mem} {K size bits : ℕ} {safe : Bool} {w : NCountWriter} {b : BitStack} {n v : ℕ}
  {nc : ℕ → ℤ}

theorem Outcome.mono {α : Type} {r : Except ErrorCode α} {post post' : α → Prop}
    (h : Outcome safe size bits r post) (himp : ∀ a, post a → post' a) :
    Outcome safe size bits r post' := by
  rcases h with h | ⟨a, ha, hp⟩
  · exact .inl h
  · exact .inr ⟨a, ha, himp a hp⟩

/-- A field on top. -/
theorem Writes.add (h : Writes header K w b) (hn : w.bitCount + n ≤ 32) (hv : v < 2 ^ n) :
    Writes header K { w.add v with bitCount := w.bitCount + n } (b.push n v) := by
  have hpow : w.bitStream + v <<< w.bitCount < 2 ^ (w.bitCount + n) := by
    have hclean := h.clean
    have hmul : 2 ^ w.bitCount * (v + 1) ≤ 2 ^ w.bitCount * 2 ^ n := Nat.mul_le_mul_left _ hv
    rw [Nat.shiftLeft_eq, Nat.pow_add, Nat.mul_comm v]
    rw [Nat.mul_succ] at hmul
    omega
  have h32 : 2 ^ (w.bitCount + n) ≤ 2 ^ 32 := Nat.pow_le_pow_right (by decide) hn
  have hadd : (w.add v).bitStream = w.bitStream + 2 ^ w.bitCount * v := by
    show (w.bitStream + v <<< w.bitCount) % 2 ^ 32 = _
    rw [Nat.mod_eq_of_lt (by omega), Nat.shiftLeft_eq, Nat.mul_comm]
  have hlen := h.len
  refine ⟨?_, ?_, ?_, h.kept⟩
  · show b.val + 2 ^ b.len * (v % 2 ^ n) = leValue w.dst 0 w.out + 256 ^ w.out * (w.add v).bitStream
    rw [hadd, Nat.mod_eq_of_lt hv, h.value, h.len, Nat.pow_add, pow_256, Nat.mul_add, Nat.mul_assoc,
      Nat.add_assoc]
  · show b.len + n = 8 * w.out + (w.bitCount + n)
    omega
  · show (w.add v).bitStream < 2 ^ (w.bitCount + n)
    rw [hadd, ← Nat.mul_comm v, ← Nat.shiftLeft_eq]
    exact hpow

/-- Two bytes out, with their bits. -/
def putBits (w : NCountWriter) : NCountWriter :=
  { w with
    dst := leStore w.dst w.out w.bitStream 2
    out := w.out + 2
    bitStream := w.bitStream >>> 16
    bitCount := w.bitCount - 16 }

theorem Writes.putBits (h : Writes header K w b) (h16 : 16 ≤ w.bitCount) (hK : w.out + 2 ≤ K) :
    Writes header K w.putBits b := by
  have hlen := h.len
  refine ⟨?_, ?_, ?_, fun j hj => ?_⟩
  · show b.val = leValue (leStore w.dst w.out w.bitStream 2) 0 (w.out + 2) +
      256 ^ (w.out + 2) * (w.bitStream >>> 16)
    have hold : leValue (leStore w.dst w.out w.bitStream 2) 0 w.out = leValue w.dst 0 w.out :=
      leValue_congr fun k hk => leStore_out _ _ (by omega)
    rw [leValue_add, hold, Nat.zero_add, leValue_leStore, h.value, Nat.pow_add, Nat.add_assoc,
      Nat.mul_assoc, ← Nat.mul_add, Nat.shiftRight_eq_div_pow, show (2 : ℕ) ^ 16 = 256 ^ 2 from rfl,
      Nat.mod_add_div]
  · show b.len = 8 * (w.out + 2) + (w.bitCount - 16)
    omega
  · show w.bitStream >>> 16 < 2 ^ (w.bitCount - 16)
    rw [Nat.shiftRight_eq_div_pow, Nat.div_lt_iff_lt_mul (Nat.two_pow_pos _), ← Nat.pow_add,
      Nat.sub_add_cancel h16]
    exact h.clean
  · show leStore w.dst w.out w.bitStream 2 j = header j
    rw [leStore_out _ _ (by omega)]
    exact h.kept j hj

/-- Two bytes can be put while bits are left. -/
theorem put_outcome (hK : Bound safe size bits K) (hout : 8 * w.out < bits) :
    Outcome safe size bits (w.put safe size) fun w' =>
      w' = { w.putBits with bitCount := w.bitCount } ∧ w.out + 2 ≤ K := by
  unfold put
  split_ifs with hcheck
  · exact .inl ⟨hcheck.1, by omega, rfl⟩
  · refine .inr ⟨_, rfl, rfl, hK _ (by omega) fun hs => ?_⟩
    by_contra hlt
    exact hcheck ⟨hs, by omega⟩

/-- What a step keeps beside the bits. -/
def SameCounts (w w' : NCountWriter) : Prop :=
  w'.remaining = w.remaining ∧ w'.threshold = w.threshold ∧ w'.nbBits = w.nbBits ∧
    w'.previousIs0 = w.previousIs0

theorem putFull_outcome (hK : Bound safe size bits K) (h : Writes header K w b) (hlen : b.len ≤ bits)
    (h1 : 1 ≤ w.bitCount) (h32 : w.bitCount ≤ 32) :
    Outcome safe size bits (w.putFull safe size) fun w' =>
      Writes header K w' b ∧ 1 ≤ w'.bitCount ∧ w'.bitCount ≤ 16 ∧ SameCounts w w' ∧
        w'.symbol = w.symbol := by
  have hlen' := h.len
  unfold putFull
  split_ifs with h16
  · rcases put_outcome (w := w) hK (by omega) with ⟨hs, hlt, he⟩ | ⟨w', hw', rfl, hroom⟩
    · rw [he]
      exact .inl ⟨hs, hlt, rfl⟩
    · rw [hw']
      refine .inr ⟨_, rfl, h.putBits (by omega) hroom, ?_, ?_, ⟨rfl, rfl, rfl, rfl⟩, rfl⟩
      · show 1 ≤ w.bitCount - 16
        omega
      · show w.bitCount - 16 ≤ 16
        omega
  · exact .inr ⟨w, rfl, h, h1, by omega, ⟨rfl, rfl, rfl, rfl⟩, rfl⟩

theorem push_pairs (b : BitStack) (k : ℕ) :
    (b.push 16 0xFFFF).pushAll (List.replicate k (2, 3)) =
      b.pushAll (List.replicate (k + 8) (2, 3)) := by
  have h8 : b.push 16 0xFFFF = b.pushAll (List.replicate 8 (2, 3)) := by
    ext
    · rw [BitStack.pushAll_len]
      rfl
    · show b.val + 2 ^ b.len * (0xFFFF % 2 ^ 16) = _
      simp only [List.replicate, BitStack.pushAll, List.foldl_cons, List.foldl_nil, BitStack.push,
        Nat.pow_add]
      omega
  rw [h8, ← BitStack.pushAll_append, ← List.replicate_add, Nat.add_comm]

theorem runs24_outcome (hK : Bound safe size bits K) (symbol k : ℕ) :
    ∀ {start : ℕ} {w : NCountWriter} {b : BitStack}, (symbol - start) / 24 = k → start ≤ symbol →
      Writes header K w b → b.len + 16 * k < bits → w.bitCount ≤ 16 →
      Outcome safe size bits (runs24 safe size symbol start w) fun r =>
        r.1 = start + 24 * k ∧ Writes header K r.2 (b.pushAll (List.replicate (8 * k) (2, 3))) ∧
          r.2.bitCount = w.bitCount ∧ SameCounts w r.2 ∧ r.2.symbol = w.symbol := by
  induction k with
  | zero =>
    intro start w b hk hle h hlen h16
    rw [runs24, if_neg (by omega)]
    exact .inr ⟨_, rfl, rfl, h, rfl, ⟨rfl, rfl, rfl, rfl⟩, rfl⟩
  | succ k ih =>
    intro start w b hk hle h hlen h16
    have hlen' := h.len
    rw [runs24, if_pos (by omega)]
    have hadd := h.add (n := 16) (v := 0xFFFF) (by omega) (by decide)
    rcases put_outcome (w := w.add 0xFFFF) hK (by show 8 * w.out < bits; omega) with
      ⟨hs, hlt, he⟩ | ⟨w', hw', rfl, hroom⟩
    · rw [he]
      exact .inl ⟨hs, hlt, rfl⟩
    · rw [hw']
      have hw : Writes header K { (w.add 0xFFFF).putBits with bitCount := w.bitCount }
          (b.push 16 0xFFFF) := by
        have := hadd.putBits (by show 16 ≤ w.bitCount + 16; omega) hroom
        rw [NCountWriter.putBits] at this
        dsimp only at this
        rw [Nat.add_sub_cancel] at this
        exact this
      refine (@ih (start + 24) _ _ (by omega) (by omega) hw ?_ h16).mono fun r hr => ?_
      · rw [BitStack.push_len]
        omega
      · obtain ⟨hstart, hwr, hcount, hsame, hsym⟩ := hr
        refine ⟨by omega, ?_, hcount, hsame, hsym⟩
        rw [push_pairs] at hwr
        exact hwr

theorem runs3_spec (symbol k : ℕ) :
    ∀ (start : ℕ) {w : NCountWriter} {b : BitStack}, (symbol - start) / 3 = k → start ≤ symbol →
      Writes header K w b → w.bitCount + 2 * k ≤ 32 →
      (runs3 symbol start w).1 = start + 3 * k ∧
        Writes header K (runs3 symbol start w).2 (b.pushAll (List.replicate k (2, 3))) ∧
        (runs3 symbol start w).2.bitCount = w.bitCount + 2 * k ∧ SameCounts w (runs3 symbol start w).2 := by
  induction k with
  | zero =>
    intro start w b hk hle h _
    rw [runs3, if_neg (by omega)]
    exact ⟨rfl, h, rfl, rfl, rfl, rfl, rfl⟩
  | succ k ih =>
    intro start w b hk hle h h32
    rw [runs3, if_pos (by omega)]
    have hadd := h.add (n := 2) (v := 3) (by omega) (by decide)
    obtain ⟨hstart, hw, hcount, hsame⟩ := @ih (start + 3) _ _ (by omega) (by omega) hadd
      (by show w.bitCount + 2 + 2 * k ≤ 32; omega)
    refine ⟨by omega, hw, ?_, hsame⟩
    rw [hcount]
    show w.bitCount + 2 + 2 * k = w.bitCount + 2 * (k + 1)
    omega

theorem skipZeros_eq {alphabetSize z : ℕ} :
    ∀ {s : ℕ}, s + z < alphabetSize → (∀ t, s ≤ t → t < s + z → nc t = 0) → nc (s + z) ≠ 0 →
      skipZeros nc alphabetSize s = s + z := by
  unfold skipZeros
  induction z with
  | zero =>
    intro s _ _ hne
    exact seek_of_pos (.inr hne)
  | succ z ih =>
    intro s hin hzero hne
    have hstay : ¬ (alphabetSize ≤ s ∨ nc s ≠ 0) := by
      rw [not_or, not_not]
      exact ⟨by omega, hzero s le_rfl (by omega)⟩
    have hnext := ih (s := s + 1) (by omega) (fun t h1 h2 => hzero t (by omega) (by omega))
      (by rw [Nat.add_assoc, Nat.add_comm 1]; exact hne)
    rw [show alphabetSize - s = alphabetSize - (s + 1) + 1 by omega,
      seek_of_neg (P := fun s => alphabetSize ≤ s ∨ nc s ≠ 0) hstay, hnext]
    omega

theorem zeros_outcome (hK : Bound safe size bits K) {z : ℕ} (h : Writes header K w b)
    (h1 : 1 ≤ w.bitCount) (h16 : w.bitCount ≤ 16) (hin : w.symbol + z < n)
    (hzero : ∀ t, w.symbol ≤ t → t < w.symbol + z → nc t = 0) (hne : nc (w.symbol + z) ≠ 0)
    (hlen : b.len + bitsOf (zeroFields z) ≤ bits) :
    Outcome safe size bits (w.zeros nc n safe size) fun r => ∃ w', r = some w' ∧
      Writes header K w' (b.pushAll (zeroFields z)) ∧ 1 ≤ w'.bitCount ∧ w'.bitCount ≤ 16 ∧
        SameCounts w w' ∧ w'.symbol = w.symbol + z := by
  have hbits : bitsOf (zeroFields z) = 2 * (z / 3) + 2 := by
    simp [zeroFields, bitsOf, Nat.mul_comm]
  unfold zeros
  rw [skipZeros_eq hin hzero hne]
  dsimp only
  rw [if_neg (by omega)]
  rcases runs24_outcome (w := w) hK (w.symbol + z) (z / 24) (by rw [Nat.add_sub_cancel_left])
    (Nat.le_add_right _ _) h (by omega) h16 with ⟨hs, hlt, he⟩ | ⟨⟨start, w1⟩, he, hstart, hw1, hc1, hsame1, -⟩
  · rw [he]
    exact .inl ⟨hs, hlt, rfl⟩
  · rw [he]
    dsimp only at hstart hw1 hc1 hsame1 ⊢
    obtain ⟨hstart2, hw2, hc2, hsame2⟩ := runs3_spec (w := w1) (w.symbol + z) (z % 24 / 3) start
      (by omega) (by omega) hw1 (by omega)
    have hw3 := hw2.add (n := 2) (v := w.symbol + z - (runs3 (w.symbol + z) start w1).1)
      (by omega) (by omega)
    -- the pairs of ones and the last pair are the fields of the run
    have hfields : zeroFields z = List.replicate (8 * (z / 24)) (2, 3) ++
        (List.replicate (z % 24 / 3) (2, 3) ++
          [(2, w.symbol + z - (runs3 (w.symbol + z) start w1).1)]) := by
      rw [← List.append_assoc, ← List.replicate_add, zeroFields,
        show 8 * (z / 24) + z % 24 / 3 = z / 3 by omega,
        show w.symbol + z - (runs3 (w.symbol + z) start w1).1 = z % 3 by omega]
    have hlen3 : (b.pushAll (zeroFields z)).len ≤ bits := by
      rw [BitStack.pushAll_len]
      exact hlen
    have hpush : ((b.pushAll (List.replicate (8 * (z / 24)) (2, 3))).pushAll
        (List.replicate (z % 24 / 3) (2, 3))).push 2 (w.symbol + z - (runs3 (w.symbol + z) start w1).1) =
        b.pushAll (zeroFields z) := by
      rw [hfields, BitStack.pushAll_append, BitStack.pushAll_append]
      rfl
    rw [hpush] at hw3
    have hfull := putFull_outcome
      (w := { (runs3 (w.symbol + z) start w1).2.add
          (w.symbol + z - (runs3 (w.symbol + z) start w1).1) with
        bitCount := (runs3 (w.symbol + z) start w1).2.bitCount + 2, symbol := w.symbol + z })
      hK ⟨hw3.value, hw3.len, hw3.clean, hw3.kept⟩ hlen3 (Nat.le_add_left _ _)
      (by show _ + 2 ≤ 32; omega)
    rcases hfull with ⟨hs, hlt, he⟩ | ⟨w4, he, hw4, h4, h16', hsame4, hsym4⟩
    · rw [he]
      exact .inl ⟨hs, hlt, rfl⟩
    · rw [he]
      refine .inr ⟨_, rfl, w4, rfl, hw4, h4, h16', ?_, hsym4⟩
      obtain ⟨a1, a2, a3, a4⟩ := hsame1
      obtain ⟨b1, b2, b3, b4⟩ := hsame2
      obtain ⟨c1, c2, c3, c4⟩ := hsame4
      exact ⟨c1.trans (b1.trans a1), c2.trans (b2.trans a2), c3.trans (b3.trans a3), c4.trans (b4.trans a4)⟩

theorem shrink_eq {r : ℕ} (hr : 1 ≤ r) (k : ℕ) :
    shrink r (2 ^ k) (k + 1) = (2 ^ (nextBits r (k + 1) - 1), nextBits r (k + 1)) := by
  induction k with
  | zero =>
    rw [shrink, nextBits, if_neg (by simp; omega), if_neg (by simp; omega)]
  | succ k ih =>
    rw [shrink, nextBits, Nat.add_sub_cancel]
    by_cases hlt : r < 2 ^ (k + 1)
    · rw [if_pos hlt, if_pos hlt, Nat.pow_succ, Nat.mul_div_cancel _ (by decide), Nat.add_sub_cancel, ih,
        nextBits, Nat.add_sub_cancel]
      split_ifs with hlt2
      · rfl
      · have hlog : highbit32 r = k :=
          (Nat.log2_eq_iff (by omega)).mpr ⟨Nat.le_of_not_lt hlt2, hlt⟩
        rw [hlog, Nat.add_sub_cancel]
    · rw [if_neg hlt, if_neg hlt]
      rfl

/-- The writer before the header of what remains. -/
structure Stands (w : NCountWriter) (s remaining nbBits : ℕ) (previousIs0 : Bool) : Prop where
  symbol : w.symbol = s
  remaining : w.remaining = remaining
  threshold : w.threshold = 2 ^ (nbBits - 1)
  nbBits : w.nbBits = nbBits
  previousIs0 : w.previousIs0 = previousIs0
  bitCount_pos : 1 ≤ w.bitCount
  bitCount_le : w.bitCount ≤ 16

theorem count_outcome (hK : Bound safe size bits K) {s remaining nbBits : ℕ} {p : Bool}
    (h : Writes header K w b) (hs : Stands w s remaining nbBits p) (hold : Holding remaining nbBits)
    (hmore : 1 < remaining) (hge : -1 ≤ nc s) (hlt : (nc s).natAbs < remaining)
    (hlen : b.len + (countField remaining nbBits (nc s)).1 ≤ bits) :
    Outcome safe size bits (w.count nc safe size) fun w' =>
      Writes header K w' (b.push (countField remaining nbBits (nc s)).1
        (countField remaining nbBits (nc s)).2) ∧
      Stands w' (s + 1) (remaining - (nc s).natAbs) (nextBits (remaining - (nc s).natAbs) nbBits)
        (decide (nc s = 0)) := by
  obtain ⟨hf1, hf16, hfit⟩ := countField_spec hold hmore hlt
  have hpos := hold.pos
  have h2 := hold.two_le hmore
  have hle16 := hold.le
  have hlow := hold.low
  have hhigh := hold.high
  have hdouble := hold.double
  have h16 : 2 ^ nbBits ≤ 2 ^ 16 := Nat.pow_le_pow_right (by decide) hle16
  have hthr2 : 2 ≤ 2 ^ (nbBits - 1) := by
    calc 2 = 2 ^ 1 := rfl
      _ ≤ 2 ^ (nbBits - 1) := Nat.pow_le_pow_right (by decide) (by omega)
  obtain ⟨v, hv⟩ : ∃ v : ℕ, nc s + 1 = v := ⟨(nc s + 1).toNat, by omega⟩
  set t := 2 ^ (nbBits - 1) with ht
  -- the value and the width are those of the field
  have hcount : (if (t : ℤ) ≤ nc s + 1 then nc s + 1 + (2 * (t : ℤ) - 1 - remaining) else nc s + 1) =
      ((countField remaining nbBits (nc s)).2 : ℤ) := by
    unfold countField
    dsimp only
    rw [hv, Int.toNat_natCast, ← ht]
    split_ifs <;> dsimp only <;> omega
  have hwidth : (w.bitCount + nbBits - if ((countField remaining nbBits (nc s)).2 : ℤ) <
        2 * (t : ℤ) - 1 - remaining then 1 else 0) =
      w.bitCount + (countField remaining nbBits (nc s)).1 := by
    unfold countField
    dsimp only
    rw [hv, Int.toNat_natCast, ← ht]
    split_ifs <;> dsimp only at * <;> omega
  have hprev : decide (((countField remaining nbBits (nc s)).2 : ℤ) = 1) = decide (nc s = 0) := by
    refine decide_eq_decide.mpr ?_
    unfold countField
    dsimp only
    rw [hv, Int.toNat_natCast, ← ht]
    split_ifs <;> dsimp only <;> omega
  have hrem : (remaining : ℤ) - (if nc s < 0 then -nc s else nc s) = (remaining - (nc s).natAbs : ℕ) := by
    split_ifs <;> omega
  have hfit32 : (((countField remaining nbBits (nc s)).2 : ℤ) % 2 ^ 32).toNat =
      (countField remaining nbBits (nc s)).2 := by
    have : (countField remaining nbBits (nc s)).2 < 2 ^ 16 :=
      lt_of_lt_of_le hfit (Nat.pow_le_pow_right (by decide) hf16)
    omega
  have hadd := h.add (n := (countField remaining nbBits (nc s)).1)
    (v := (countField remaining nbBits (nc s)).2) (by have := hs.bitCount_le; omega) hfit
  have hshrink := shrink_eq (r := remaining - (nc s).natAbs) (by omega) (nbBits - 1)
  rw [Nat.sub_add_cancel hpos] at hshrink
  unfold count
  dsimp only
  rw [hs.symbol, hs.remaining, hs.threshold, hs.nbBits, ← ht, hcount, hrem, hwidth,
    if_neg (by omega), Int.toNat_natCast, ht, hshrink, hfit32]
  dsimp only
  refine (putFull_outcome (w := { w.add (countField remaining nbBits (nc s)).2 with
      bitCount := w.bitCount + (countField remaining nbBits (nc s)).1
      remaining := ((remaining - (nc s).natAbs : ℕ) : ℤ)
      threshold := 2 ^ (nextBits (remaining - (nc s).natAbs) nbBits - 1)
      nbBits := nextBits (remaining - (nc s).natAbs) nbBits
      symbol := s + 1
      previousIs0 := decide (((countField remaining nbBits (nc s)).2 : ℤ) = 1) })
    hK ⟨hadd.value, hadd.len, hadd.clean, hadd.kept⟩ hlen ?_ ?_).mono fun w' hw' => ?_
  · show 1 ≤ w.bitCount + _
    omega
  · show w.bitCount + _ ≤ 32
    have := hs.bitCount_le
    omega
  · obtain ⟨hwr, h1', h16', ⟨hr', ht', hn', hp'⟩, hsym⟩ := hw'
    exact ⟨hwr, hsym, hr', ht', hn', hp'.trans hprev, h1', h16'⟩

/-- **The loop of the writer** writes the header. -/
theorem loop_outcome (hK : Bound safe size bits K) {s remaining nbBits : ℕ} {p : Bool}
    {fs : List (ℕ × ℕ)} (hh : Header nc n s remaining nbBits p fs) :
    ∀ {w : NCountWriter} {b : BitStack} (fuel : ℕ), Holding remaining nbBits → n - s ≤ fuel →
      Writes header K w b → Stands w s remaining nbBits p → b.len + bitsOf fs ≤ bits →
      Outcome safe size bits (w.loop nc n safe size fuel) fun w' =>
        Writes header K w' (b.pushAll fs) ∧ w'.remaining = 1 ∧ 1 ≤ w'.bitCount ∧ w'.bitCount ≤ 16 := by
  induction hh with
  | done hzero =>
    intro w b fuel _ _ hw hs _
    have hstop : ¬ (w.symbol < n ∧ 1 < w.remaining) := by
      rw [hs.remaining]
      omega
    cases fuel with
    | zero => exact .inr ⟨w, rfl, hw, hs.remaining, hs.bitCount_pos, hs.bitCount_le⟩
    | succ fuel =>
      rw [loop, if_neg hstop]
      exact .inr ⟨w, rfl, hw, hs.remaining, hs.bitCount_pos, hs.bitCount_le⟩
  | @turn s remaining nbBits p fs z hmore hin hz hzero hne hge hlt hrest ih =>
    intro w b fuel hold hfuel hw hs hlen
    obtain ⟨fuel, rfl⟩ : ∃ f, fuel = f + 1 := ⟨fuel - 1, by omega⟩
    have hgo : w.symbol < n ∧ 1 < w.remaining := by
      rw [hs.symbol, hs.remaining]
      omega
    rw [bitsOf_append, bitsOf_cons] at hlen
    -- the run of zeros, if there is one
    have hrun : Outcome safe size bits
        (if w.previousIs0 then w.zeros nc n safe size else .ok (some w)) fun r => ∃ w', r = some w' ∧
          Writes header K w' (b.pushAll (if p then zeroFields z else [])) ∧
          Stands w' (s + z) remaining nbBits p := by
      rw [hs.previousIs0]
      cases p with
      | false =>
        obtain rfl := hz rfl
        exact .inr ⟨some w, rfl, w, rfl, hw, hs⟩
      | true =>
        rw [if_pos rfl, if_pos rfl]
        rw [if_pos rfl] at hlen
        refine (zeros_outcome (z := z) hK hw hs.bitCount_pos hs.bitCount_le (by rw [hs.symbol]; exact hin)
          (by rw [hs.symbol]; exact hzero) (by rw [hs.symbol]; exact hne rfl) (by omega)).mono
          fun r hr => ?_
        obtain ⟨w', rfl, hw', h1, h16, ⟨hr', ht', hn', hp'⟩, hsym⟩ := hr
        exact ⟨w', rfl, hw', hsym.trans (by rw [hs.symbol]), hr'.trans hs.remaining,
          ht'.trans hs.threshold, hn'.trans hs.nbBits, hp'.trans hs.previousIs0, h1, h16⟩
    rw [loop, if_pos hgo]
    rcases hrun with ⟨hsf, hlt', he⟩ | ⟨_, he, w1, rfl, hw1, hs1⟩
    · rw [he]
      exact .inl ⟨hsf, hlt', rfl⟩
    · rw [he]
      dsimp only
      have hlen1 : (b.pushAll (if p then zeroFields z else [])).len +
          (countField remaining nbBits (nc (s + z))).1 + bitsOf fs ≤ bits := by
        rw [BitStack.pushAll_len, ← bitsOf]
        omega
      rcases count_outcome hK hw1 hs1 hold hmore hge hlt (by omega) with
        ⟨hsf, hlt', he⟩ | ⟨w2, he, hw2, hs2⟩
      · rw [he]
        exact .inl ⟨hsf, hlt', rfl⟩
      · rw [he]
        dsimp only
        have hnext := hold.next (r := remaining - (nc (s + z)).natAbs) (by omega) (Nat.sub_le _ _)
        refine (ih fuel hnext (by omega) hw2 hs2 ?_).mono fun w' hw' => ?_
        · rw [BitStack.push_len]
          exact hlen1
        · rw [BitStack.pushAll_append]
          exact hw'

end NCountWriter

/-- The header of a distribution. -/
def Distribution.HeaderOf (d : Distribution) (fs : List (ℕ × ℕ)) : Prop :=
  Header d.nc (d.maxSymbolValue + 1) 0 (d.size + 1) (d.tableLog + 1) false fs

theorem Distribution.exists_header (d : Distribution) : ∃ fs, d.HeaderOf fs := by
  refine Zstd.exists_header (fun t ht => d.ge t (by omega)) (d.maxSymbolValue + 1) false le_rfl
    (Nat.zero_le _) ?_
  rw [d.sum_eq]
  rfl

theorem Distribution.holding (d : Distribution) : Holding (d.size + 1) (d.tableLog + 1) := by
  have h5 := d.log_ge
  have h15 := d.log_le
  have hpos : 2 ^ 5 ≤ 2 ^ d.tableLog := Nat.pow_le_pow_right (by decide) h5
  refine ⟨Nat.le_add_left _ _, by omega, ?_, ?_⟩
  · rw [Nat.add_sub_cancel]
    exact Nat.le_succ _
  · rw [Nat.pow_succ]
    unfold size
    omega

/-- **The writer** gives the fields of the header, or lacks the room for them. -/
theorem writeNCount_spec (d : Distribution) {fs : List (ℕ × ℕ)} (hfs : d.HeaderOf fs) (header : Mem)
    (size : ℕ) (safe : Bool) :
    (safe = false ∧ size < (bitsOf fs + 11) / 8 + 1 ∧
      writeNCountGeneric header size d.nc d.maxSymbolValue d.tableLog safe = .error .dstSizeTooSmall) ∨
    ∃ out, writeNCountGeneric header size d.nc d.maxSymbolValue d.tableLog safe =
        .ok ((bitsOf fs + 11) / 8, out) ∧
      leValue out 0 ((bitsOf fs + 11) / 8) =
        (BitStack.empty.pushAll ((4, d.tableLog - 5) :: fs)).val ∧
      (safe = false → (bitsOf fs + 11) / 8 ≤ size) ∧
      ∀ j, (bitsOf fs + 11) / 8 + 1 ≤ j ∨ safe = false ∧ size ≤ j → out j = header j := by
  have h5 := d.log_ge
  have h15 := d.log_le
  have hshift : 1 <<< d.tableLog = d.size := by rw [Nat.shiftLeft_eq, Nat.one_mul, Distribution.size]
  set w0 : NCountWriter :=
    { out := 0, dst := header, bitStream := d.tableLog - 5, bitCount := 4, remaining := (d.size : ℤ) + 1
      threshold := d.size, nbBits := d.tableLog + 1, symbol := 0, previousIs0 := false } with hw0
  have hwrite : ∀ K, NCountWriter.Writes header K w0 (BitStack.empty.push 4 (d.tableLog - 5)) :=
    fun K => by
      have hlt : d.tableLog - 5 < 2 ^ 4 := by omega
      refine ⟨?_, rfl, hlt, fun _ _ => rfl⟩
      show 0 + 2 ^ 0 * ((d.tableLog - 5) % 2 ^ 4) = 0 + 256 ^ 0 * (d.tableLog - 5)
      rw [Nat.mod_eq_of_lt hlt, Nat.pow_zero, Nat.pow_zero]
  have hstand : NCountWriter.Stands w0 0 (d.size + 1) (d.tableLog + 1) false :=
    ⟨rfl, by show (d.size : ℤ) + 1 = ((d.size + 1 : ℕ) : ℤ); omega, by rw [Nat.add_sub_cancel]; rfl,
      rfl, rfl, Nat.succ_pos 3, by show 4 ≤ 16; omega⟩
  have hrun : ∀ K, NCountWriter.Bound safe size (bitsOf fs + 4) K →
      NCountWriter.Outcome safe size (bitsOf fs + 4)
        (writeNCountGeneric header size d.nc d.maxSymbolValue d.tableLog safe) fun r =>
          r.1 = (bitsOf fs + 11) / 8 ∧ leValue r.2 0 ((bitsOf fs + 11) / 8) =
            (BitStack.empty.pushAll ((4, d.tableLog - 5) :: fs)).val ∧
          (safe = false → (bitsOf fs + 11) / 8 ≤ size) ∧
          ∀ j, K ≤ j → r.2 j = header j := fun K hK => by
    have hloop := NCountWriter.loop_outcome hK hfs (d.maxSymbolValue + 1) d.holding (Nat.sub_le _ _)
      (hwrite K) hstand (by rw [BitStack.push_len]; show 0 + 4 + _ ≤ _; omega)
    rw [writeNCountGeneric, hshift, ← hw0]
    rcases hloop with ⟨hs, hlt, he⟩ | ⟨w, he, hw, hrem, h1, h16⟩
    · rw [he]
      exact .inl ⟨hs, hlt, rfl⟩
    · rw [he]
      dsimp only
      have hlen := hw.len
      rw [BitStack.pushAll_len, ← bitsOf, BitStack.push_len, BitStack.empty_len] at hlen
      rw [if_neg (not_not.mpr hrem)]
      split_ifs with hcheck
      · exact .inl ⟨hcheck.1, by omega, rfl⟩
      · have hroom : w.out + 2 ≤ K := hK _ (by omega) fun hs => by
          by_contra hlt
          exact hcheck ⟨hs, by omega⟩
        have hsz : w.out + (w.bitCount + 7) / 8 = (bitsOf fs + 11) / 8 := by omega
        refine .inr ⟨_, rfl, hsz, ?_, fun hs => ?_, fun j hj => ?_⟩
        · have hold : leValue (leStore w.dst w.out w.bitStream 2) 0 w.out = leValue w.dst 0 w.out :=
            leValue_congr fun k hk => leStore_out _ _ (by omega)
          have hpow : 2 ^ w.bitCount ≤ 256 ^ ((w.bitCount + 7) / 8) := by
            rw [pow_256]
            exact Nat.pow_le_pow_right (by decide) (by omega)
          have hpow2 : 2 ^ w.bitCount ≤ 256 ^ 2 := by
            rw [pow_256]
            exact Nat.pow_le_pow_right (by decide) (by omega)
          have hclean := hw.clean
          have hnew : leValue (leStore w.dst w.out w.bitStream 2) w.out ((w.bitCount + 7) / 8) =
              w.bitStream := by
            rw [← leValue_mod _ 2 (show (w.bitCount + 7) / 8 ≤ 2 by omega), leValue_leStore,
              Nat.mod_eq_of_lt (show w.bitStream < 256 ^ 2 by omega), Nat.mod_eq_of_lt (by omega)]
          rw [← hsz, leValue_add, hold, Nat.zero_add, hnew, ← hw.value]
          rfl
        · by_contra hlt
          exact hcheck ⟨hs, by omega⟩
        · dsimp only
          rw [leStore_out _ _ (by omega)]
          exact hw.kept j hj
  rcases hrun (if safe then (bitsOf fs + 3) / 8 + 2 else min size ((bitsOf fs + 3) / 8 + 2))
    (fun o h1 h2 => by
      split_ifs with h
      · omega
      · have := h2 (eq_false_of_ne_true h)
        omega) with
    ⟨hs, hlt, he⟩ | ⟨⟨n, out⟩, he, hn, hval, hroom, hkept⟩
  · exact .inl ⟨hs, by omega, he⟩
  · dsimp only at hn hval hkept
    subst hn
    refine .inr ⟨out, he, hval, hroom, fun j hj => hkept j ?_⟩
    rcases hj with hj | ⟨hs, hj⟩
    · split_ifs <;> omega
    · rw [hs, if_neg Bool.false_ne_true]
      omega

/-- A header takes as many bits as the table log for every symbol, and once more, and seven. -/
theorem Distribution.bits_le (d : Distribution) {fs : List (ℕ × ℕ)} (hfs : d.HeaderOf fs) :
    bitsOf fs ≤ d.tableLog * (d.maxSymbolValue + 1) + d.tableLog + 7 := by
  have hle := Header.bits_le hfs d.log_ge d.holding le_rfl le_rfl
  have h5 := d.log_ge
  have h4 : 2 ^ (d.tableLog - 1) ≤ 2 ^ d.tableLog := Nat.pow_le_pow_right (by decide) (by omega)
  have hslack : slack d.tableLog (d.size + 1) = d.tableLog + 7 := by
    rw [slack_high (by unfold size; omega) (by unfold size; omega)]
    unfold size
    omega
  rw [hslack, if_neg (fun h => absurd h.1 Bool.false_ne_true)] at hle
  omega

/-- **What is written** of a distribution, in either mode: the header, and its size is within the
buffer. -/
theorem writeNCount_header (d : Distribution) {fs : List (ℕ × ℕ)} (hfs : d.HeaderOf fs)
    {buffer out : Mem} {bufferSize n : ℕ}
    (hrun : writeNCount buffer bufferSize d.nc d.maxSymbolValue d.tableLog = .ok (n, out)) :
    n = (bitsOf fs + 11) / 8 ∧ n ≤ bufferSize ∧
      leValue out 0 n = (BitStack.empty.pushAll ((4, d.tableLog - 5) :: fs)).val ∧
      ∀ j, n + 1 ≤ j → out j = buffer j := by
  have h5 := d.log_ge
  have h12 : d.tableLog ≤ 12 := by
    by_contra h
    rw [writeNCount, if_pos (by omega)] at hrun
    cases hrun
  have hbits := d.bits_le hfs
  have hbound : (bitsOf fs + 11) / 8 ≤ nCountWriteBound d.maxSymbolValue d.tableLog := by
    unfold nCountWriteBound
    split_ifs with h0
    · rw [Nat.mul_comm]
      omega
    · rw [not_not.mp h0] at hbits
      omega
  unfold writeNCount at hrun
  rw [if_neg (by omega), if_neg (by omega)] at hrun
  split_ifs at hrun with hsmall
  · rcases writeNCount_spec d hfs buffer bufferSize false with ⟨-, -, he⟩ | ⟨out', hok, hval, hroom, hkept⟩
    · rw [he] at hrun
      cases hrun
    · rw [hok] at hrun
      obtain ⟨rfl, rfl⟩ := Prod.mk.inj (Except.ok.inj hrun)
      exact ⟨rfl, hroom rfl, hval, fun j hj => hkept j (.inl hj)⟩
  · rcases writeNCount_spec d hfs buffer bufferSize true with ⟨hs, -⟩ | ⟨out', hok, hval, -, hkept⟩
    · exact absurd hs (by decide)
    · rw [hok] at hrun
      obtain ⟨rfl, rfl⟩ := Prod.mk.inj (Except.ok.inj hrun)
      exact ⟨rfl, by omega, hval, fun j hj => hkept j (.inl hj)⟩

/-- The only error is a lack of room, and `FSE_NCountWriteBound` bytes are enough. -/
theorem writeNCount_error (d : Distribution) (h12 : d.tableLog ≤ 12) {buffer : Mem} {bufferSize : ℕ}
    {e : ErrorCode} (hrun : writeNCount buffer bufferSize d.nc d.maxSymbolValue d.tableLog = .error e) :
    bufferSize < nCountWriteBound d.maxSymbolValue d.tableLog ∧ e = .dstSizeTooSmall := by
  obtain ⟨fs, hfs⟩ := d.exists_header
  have h5 := d.log_ge
  unfold writeNCount at hrun
  rw [if_neg (by omega), if_neg (by omega)] at hrun
  split_ifs at hrun with hsmall
  · refine ⟨hsmall, ?_⟩
    rcases writeNCount_spec d hfs buffer bufferSize false with ⟨-, -, he⟩ | ⟨out', he, -⟩
    · exact Except.error.inj (hrun.symm.trans he)
    · rw [he] at hrun
      cases hrun
  · rcases writeNCount_spec d hfs buffer bufferSize true with ⟨hs, -⟩ | ⟨out', he, -⟩
    · exact absurd hs (by decide)
    · rw [he] at hrun
      cases hrun

/-- **`FSE_NCountWriteBound` bounds the size** of the header of every distribution: a buffer of so many
bytes is never too small, and whatever the buffer, what is reported lies in it.  At most one byte past
it is written to. -/
theorem writeNCount_fits (d : Distribution) (h12 : d.tableLog ≤ 12) (buffer : Mem) (bufferSize : ℕ) :
    (bufferSize < nCountWriteBound d.maxSymbolValue d.tableLog ∧
      writeNCount buffer bufferSize d.nc d.maxSymbolValue d.tableLog = .error .dstSizeTooSmall) ∨
    ∃ n out, writeNCount buffer bufferSize d.nc d.maxSymbolValue d.tableLog = .ok (n, out) ∧
      n ≤ bufferSize ∧ ∀ j, bufferSize + 1 ≤ j → out j = buffer j := by
  obtain ⟨fs, hfs⟩ := d.exists_header
  have hok : ∀ n out, writeNCount buffer bufferSize d.nc d.maxSymbolValue d.tableLog = .ok (n, out) →
      n ≤ bufferSize ∧ ∀ j, bufferSize + 1 ≤ j → out j = buffer j := fun n out h => by
    obtain ⟨-, hle, -, hkept⟩ := writeNCount_header d hfs h
    exact ⟨hle, fun j hj => hkept j (by omega)⟩
  cases hrun : writeNCount buffer bufferSize d.nc d.maxSymbolValue d.tableLog with
  | ok w => exact .inr ⟨w.1, w.2, rfl, hok w.1 w.2 hrun⟩
  | error e =>
    obtain ⟨hsmall, rfl⟩ := writeNCount_error d h12 hrun
    exact .inl ⟨hsmall, rfl⟩

/-- The counts of `nCountWriteBound_short`. -/
def alternating : Distribution where
  nc := fun s => [0, 1, 0, 1, 0, 1, 0, 1, 0, 1, 0, 2, 0, 4, 0, 8, 0, 237].getD s 0
  maxSymbolValue := 17
  tableLog := 8
  ge := by decide
  sum_eq := by decide +kernel
  log_ge := by decide
  log_le := by decide
  symbol_le := by decide

theorem writeNCount_fits_short :
    ∃ n out, writeNCount (fun _ => 255) 21 alternating.nc 17 8 = .ok (n, out) ∧ n ≤ 21 ∧
      ∀ j, 22 ≤ j → out j = 255 := by
  rcases writeNCount_fits alternating (by decide) (fun _ => 255) 21 with ⟨h, -⟩ | h
  · exact absurd h (by decide)
  · exact h

/-- A buffer of `FSE_NCountWriteBound` bytes is taken to be safe; of this header, which it can hold, one
byte more is written. -/
theorem nCountWriteBound_short :
    nCountWriteBound 17 8 = 21 ∧
      ((writeNCount (fun _ => 255) 21 alternating.nc 17 8).toOption.map
        fun r => (r.1, r.2 21)) = some (21, 0) := by
  decide +kernel

end ZramUpgrade.Zstd
