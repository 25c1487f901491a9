import Mathlib.Data.LawfulXor.Basic
import ZramUpgrade.Lib.Mem

/-!
# Lz4.Primitives — words, copies, hashes and the index table of `lib/lz4.c`

The build is 64-bit little-endian aarch64 with clang: `reg_t` has 8 bytes, `LZ4_FAST_DEC_LOOP` is
`0` and no position table (`byPtr`) is used.  A C pointer is its offset in its buffer, so a
comparison `p > end - k` of pointers is `end < p + k` of offsets.  `LZ4_MEMORY_USAGE` is 14.
-/

namespace ZramUpgrade.Lz4

open Lib

abbrev MINMATCH : ℕ := 4
abbrev WILDCOPYLENGTH : ℕ := 8
abbrev LASTLITERALS : ℕ := 5
abbrev MFLIMIT : ℕ := 12
abbrev ML_MASK : ℕ := 15
abbrev RUN_MASK : ℕ := 15
abbrev LZ4_DISTANCE_MAX : ℕ := 65535
abbrev LZ4_HASHLOG : ℕ := 12
abbrev LZ4_skipTrigger : ℕ := 6
abbrev LZ4_minLength : ℕ := MFLIMIT + 1
abbrev LZ4_64Klimit : ℕ := 64 * 2 ^ 10 + (MFLIMIT - 1)
abbrev LZ4_MAX_INPUT_SIZE : ℕ := 0x7E000000

/-! ## Reads, writes and copies -/

def read16 (m : Mem) (p : ℕ) : ℕ := leValue m p 2
def read32 (m : Mem) (p : ℕ) : ℕ := leValue m p 4
def readARCH (m : Mem) (p : ℕ) : ℕ := leValue m p 8
def readLE16 (m : Mem) (p : ℕ) : ℕ := read16 m p
def write32 (m : Mem) (p value : ℕ) : Mem := leStore m p value 4
def writeLE16 (m : Mem) (p value : ℕ) : Mem := leStore m p value 2

/-- `LZ4_wildCopy8`: copies 8 bytes at a time up to `e` or a little past it.  `rd` is the memory the
source pointer points into: another buffer, or (`id`) the destination itself. -/
def wildCopy8 (rd : Mem → Mem) (m : Mem) (d s e : ℕ) : Mem :=
  let m := memcpy (rd m) m d s 8
  if d + 8 < e then wildCopy8 rd m (d + 8) (s + 8) e else m
termination_by e - d
decreasing_by omega

/-- The end of the bytes that `wildCopy8` writes from `d` on. -/
def wildCopyEnd (d e : ℕ) : ℕ := d + 8 * max 1 ((e - d + 7) / 8)

def inc32table : ℕ → ℕ
  | 1 => 1 | 2 => 2 | 3 => 1 | 5 => 4 | 6 => 4 | 7 => 4 | _ => 0

def dec64table : ℕ → ℤ
  | 3 => -1 | 4 => -4 | 5 => 1 | 6 => 2 | 7 => 3 | _ => 0

/-! ## Common length of two positions -/

/-- `__builtin_ctzll` on the low `n` bits. -/
def ctzll : ℕ → ℕ → ℕ
  | 0, _ => 0
  | n + 1, v => if v % 2 = 1 then 0 else ctzll n (v / 2) + 1

def nbCommonBytes (val : ℕ) : ℕ := ctzll 64 val >>> 3

/-- The tail of `LZ4_count`: at most one 4-byte, one 2-byte and one 1-byte comparison. -/
def countTail (m : Mem) (pIn pMatch pInLimit : ℕ) : ℕ :=
  let (pIn, pMatch) :=
    if pIn + 3 < pInLimit ∧ read32 m pMatch = read32 m pIn then (pIn + 4, pMatch + 4)
    else (pIn, pMatch)
  let (pIn, pMatch) :=
    if pIn + 1 < pInLimit ∧ read16 m pMatch = read16 m pIn then (pIn + 2, pMatch + 2)
    else (pIn, pMatch)
  if pIn < pInLimit ∧ m pMatch = m pIn then pIn + 1 else pIn

/-- The word loop of `LZ4_count` (its first `if` is the first round of the loop); where `pIn` ends. -/
def countWords (m : Mem) (pIn pMatch pInLimit : ℕ) : ℕ :=
  if pIn + 7 < pInLimit then
    let diff := readARCH m pMatch ^^^ readARCH m pIn
    if diff = 0 then countWords m (pIn + 8) (pMatch + 8) pInLimit else pIn + nbCommonBytes diff
  else countTail m pIn pMatch pInLimit
termination_by pInLimit - pIn
decreasing_by omega

def count (m : Mem) (pIn pMatch pInLimit : ℕ) : ℕ := countWords m pIn pMatch pInLimit - pIn

/-! ## The hash table -/

inductive TableType where
  | clearedTable
  | byU32
  | byU16
  deriving DecidableEq, Repr

/-- The `hashTable` of a stream as 16-bit cells.  A `byU16` entry is one cell, a `byU32` entry two,
low half first. -/
abbrev HashTable := ℕ → UInt16

def hash4 (sequence : ℕ) (tableType : TableType) : ℕ :=
  if tableType = .byU16 then
    (sequence * 2654435761 % 2 ^ 32) >>> (MINMATCH * 8 - (LZ4_HASHLOG + 1))
  else (sequence * 2654435761 % 2 ^ 32) >>> (MINMATCH * 8 - LZ4_HASHLOG)

def hash5 (sequence : ℕ) (tableType : TableType) : ℕ :=
  let hashLog := if tableType = .byU16 then LZ4_HASHLOG + 1 else LZ4_HASHLOG
  ((sequence <<< 24) % 2 ^ 64 * 889523592379 % 2 ^ 64) >>> (64 - hashLog)

def hashPosition (m : Mem) (p : ℕ) (tableType : TableType) : ℕ :=
  if tableType ≠ .byU16 then hash5 (readARCH m p) tableType else hash4 (read32 m p) tableType

/-- How many bytes `hashPosition` reads. -/
def hashReadSize (tableType : TableType) : ℕ := if tableType ≠ .byU16 then 8 else 4

def getIndexOnHash (h : ℕ) (hashTable : HashTable) : TableType → ℕ
  | .byU32 => (hashTable (2 * h)).toNat + 2 ^ 16 * (hashTable (2 * h + 1)).toNat
  | .byU16 => (hashTable h).toNat
  | .clearedTable => 0

def putIndexOnHash (idx h : ℕ) (hashTable : HashTable) : TableType → HashTable
  | .byU32 => Function.update (Function.update hashTable (2 * h) (UInt16.ofNat idx)) (2 * h + 1)
      (UInt16.ofNat (idx / 2 ^ 16))
  | .byU16 => Function.update hashTable h (UInt16.ofNat idx)
  | .clearedTable => hashTable

/-- The indices an entry of the table can hold. -/
def indexLimit : TableType → ℕ
  | .byU32 => 2 ^ 32
  | .byU16 => 2 ^ 16
  | .clearedTable => 1

/-- Reading an entry after a write: the new index in its own entry, the old ones elsewhere. -/
theorem getIndexOnHash_put {idx h h' : ℕ} {t : HashTable} {tt : TableType} (htt : tt ≠ .clearedTable)
    (hi : idx < indexLimit tt) :
    getIndexOnHash h' (putIndexOnHash idx h t tt) tt =
      if h' = h then idx else getIndexOnHash h' t tt := by
  cases tt with
  | clearedTable => exact absurd rfl htt
  | byU32 =>
    simp only [indexLimit] at hi
    by_cases hh : h' = h
    · subst hh
      simp [getIndexOnHash, putIndexOnHash]
      omega
    · have h1 : 2 * h' ≠ 2 * h + 1 := by omega
      have h2 : 2 * h' + 1 ≠ 2 * h := by omega
      simp [getIndexOnHash, putIndexOnHash, hh, h1, h2]
  | byU16 =>
    simp only [indexLimit] at hi
    by_cases hh : h' = h
    · subst hh
      simpa [getIndexOnHash, putIndexOnHash] using hi
    · simp [getIndexOnHash, putIndexOnHash, hh]

theorem getIndexOnHash_zero (h : ℕ) (tt : TableType) : getIndexOnHash h (fun _ => 0) tt = 0 := by
  cases tt <;> simp [getIndexOnHash]

/-! ## What the primitives do -/

section WildCopy

variable {rd : Mem → Mem} {m : Mem} {d s e : ℕ}

theorem wildCopy8_agree (rd : Mem → Mem) (m : Mem) (d s e : ℕ) :
    Agree (wildCopy8 rd m d s e) m d := by
  induction hk : e - d using Nat.strong_induction_on generalizing m d s with
  | _ k ih =>
    rw [wildCopy8]
    split
    · refine ((ih (e - (d + 8)) (by omega) _ _ _ rfl).mono (by omega)).trans ?_
      exact agree_memcpy _ _ _ _ le_rfl
    · exact agree_memcpy _ _ _ _ le_rfl

/-- `wildCopyEnd` is a bound on the bytes written. -/
theorem wildCopy8_out (rd : Mem → Mem) (m : Mem) (d s e : ℕ) {j : ℕ} (hj : wildCopyEnd d e ≤ j) :
    wildCopy8 rd m d s e j = m j := by
  induction hk : e - d using Nat.strong_induction_on generalizing m d s with
  | _ k ih =>
    simp only [wildCopyEnd] at hj
    rw [wildCopy8]
    split
    · rw [ih (e - (d + 8)) (by omega) _ _ _ (by simp only [wildCopyEnd]; omega) rfl]
      exact memcpy_out _ _ (by omega)
    · exact memcpy_out _ _ (by omega)

theorem wildCopyEnd_le (d e : ℕ) : wildCopyEnd d e ≤ max (d + 8) (e + 7) := by
  rw [wildCopyEnd]
  omega

/-- Copying from another buffer: the stream `p` grows to `e` if the source holds it. -/
theorem Agree.wildCopy8_ext {src p : Mem} (h : Agree m p d)
    (hs : ∀ k < e - d, src (s + k) = p (d + k)) :
    Agree (wildCopy8 (fun _ => src) m d s e) p e := by
  induction hk : e - d using Nat.strong_induction_on generalizing m d s with
  | _ k ih =>
    have hcopy : Agree (memcpy src m d s 8) p (d + min 8 (e - d)) :=
      h.memcpy (fun k hk' => hs k (by omega)) (by omega)
    rw [wildCopy8]
    split
    · refine ih (e - (d + 8)) (by omega) (hcopy.mono (by omega)) (fun k hk' => ?_) rfl
      rw [Nat.add_assoc, Nat.add_assoc]
      exact hs (8 + k) (by omega)
    · exact hcopy.mono (by omega)

/-- Copying within the buffer from at least 8 bytes back: a stream with that period grows to `e`,
and by at least 8 bytes. -/
theorem Agree.wildCopy8_self {p : Mem} (h : Agree m p d) (hsd : s + 8 ≤ d)
    (hp : ∀ k, p (s + k) = p (d + k)) : Agree (wildCopy8 id m d s e) p (max e (d + 8)) := by
  induction hk : e - d using Nat.strong_induction_on generalizing m d s with
  | _ k ih =>
    have hcopy : Agree (memcpy m m d s 8) p (d + 8) := h.memcpy_self s 8 hsd fun k _ => hp k
    rw [wildCopy8]
    simp only [id_eq]
    split
    · refine (ih (e - (d + 8)) (by omega) hcopy (by omega) (fun k => ?_) rfl).mono (by omega)
      rw [Nat.add_assoc, Nat.add_assoc]
      exact hp (8 + k)
    · exact hcopy.mono (by omega)

end WildCopy

section Count

variable {m : Mem}

theorem read32_eq_iff {p q : ℕ} : read32 m p = read32 m q ↔ ∀ k < 4, m (p + k) = m (q + k) :=
  leValue_inj 4

theorem ctzll_le (n : ℕ) : ∀ v, ctzll n v ≤ n := by
  induction n with
  | zero => intro v; simp [ctzll]
  | succ n ih =>
    intro v
    rw [ctzll]
    split
    · omega
    · have := ih (v / 2)
      omega

theorem two_pow_ctzll_dvd (n : ℕ) : ∀ v, 2 ^ ctzll n v ∣ v := by
  induction n with
  | zero => intro v; simp [ctzll]
  | succ n ih =>
    intro v
    rw [ctzll]
    split
    · simp
    · rw [Nat.pow_succ]
      have h := Nat.mul_dvd_mul_right (ih (v / 2)) 2
      rwa [Nat.div_mul_cancel (by omega)] at h

theorem nbCommonBytes_le (v : ℕ) : nbCommonBytes v ≤ 8 := by
  have := ctzll_le 64 v
  rw [nbCommonBytes, Nat.shiftRight_eq_div_pow]
  omega

/-- Two words agree in the bytes below the lowest set bit of their difference. -/
theorem nbCommonBytes_spec {p q : ℕ} :
    ∀ k < nbCommonBytes (readARCH m p ^^^ readARCH m q), m (p + k) = m (q + k) := by
  set v := readARCH m p ^^^ readARCH m q with hv
  have hle := nbCommonBytes_le v
  have hdvd : 256 ^ nbCommonBytes v ∣ v := by
    rw [show (256 : ℕ) = 2 ^ 8 by rfl, ← Nat.pow_mul]
    refine (Nat.pow_dvd_pow 2 ?_).trans (two_pow_ctzll_dvd 64 v)
    rw [nbCommonBytes, Nat.shiftRight_eq_div_pow]
    omega
  have hx : (readARCH m p % 256 ^ nbCommonBytes v) ^^^ (readARCH m q % 256 ^ nbCommonBytes v) = 0 := by
    rw [show (256 : ℕ) = 2 ^ 8 by rfl, ← Nat.pow_mul] at hdvd ⊢
    rw [← Nat.xor_mod_two_pow, ← hv]
    exact Nat.mod_eq_zero_of_dvd hdvd
  have he := xor_eq_zero_iff.mp hx
  rw [readARCH, readARCH, leValue_mod m 8 hle, leValue_mod m 8 hle] at he
  exact (leValue_inj _).mp he

/-- `ctzll` finds the largest power of two that divides a nonzero word. -/
theorem le_ctzll (n : ℕ) : ∀ {v j : ℕ}, j ≤ n → 2 ^ j ∣ v → j ≤ ctzll n v := by
  induction n with
  | zero => intro v j hj _; simpa [ctzll] using hj
  | succ n ih =>
    intro v j hj hd
    cases j with
    | zero => omega
    | succ j =>
      obtain ⟨w, rfl⟩ := hd
      have he : 2 ^ (j + 1) * w = 2 * (2 ^ j * w) := by rw [Nat.pow_succ]; ring
      rw [ctzll, he, if_neg (by omega), Nat.mul_div_cancel_left _ (by decide)]
      have := ih (v := 2 ^ j * w) (j := j) (by omega) (Nat.dvd_mul_right _ _)
      omega

/-- As long as the bytes are equal, `nbCommonBytes` counts them. -/
theorem le_nbCommonBytes {p q k : ℕ} (hk : k ≤ 8) (h : ∀ j < k, m (p + j) = m (q + j)) :
    k ≤ nbCommonBytes (readARCH m p ^^^ readARCH m q) := by
  have hw := (leValue_inj k).mpr h
  have hd : 2 ^ (8 * k) ∣ readARCH m p ^^^ readARCH m q := by
    apply Nat.dvd_of_mod_eq_zero
    rw [Nat.xor_mod_two_pow, Nat.pow_mul, show 2 ^ 8 = 256 by rfl, readARCH, readARCH,
      leValue_mod m 8 hk, leValue_mod m 8 hk, hw, Nat.xor_self]
  have := le_ctzll 64 (by omega) hd
  rw [nbCommonBytes, Nat.shiftRight_eq_div_pow]
  omega

/-- A step of equal bytes in front of equal bytes. -/
theorem eqBytes_append {p q n j : ℕ} (h : ∀ k < n, m (q + k) = m (p + k))
    (h' : ∀ k < j, m (q + n + k) = m (p + n + k)) : ∀ k < n + j, m (q + k) = m (p + k) := by
  intro k hk
  by_cases hkn : k < n
  · exact h k hkn
  · have := h' (k - n) (by omega)
    rwa [Nat.add_assoc, Nat.add_assoc, Nat.add_sub_cancel' (by omega)] at this

/-- `end_` is a position up to which the bytes from `p` equal those from `q`, at most `limit`. -/
def MatchEnd (m : Mem) (p q limit end_ : ℕ) : Prop :=
  p ≤ end_ ∧ end_ ≤ limit ∧ ∀ k < end_ - p, m (q + k) = m (p + k)

theorem MatchEnd.step {p q limit end_ n : ℕ} (h : ∀ k < n, m (q + k) = m (p + k))
    (h' : MatchEnd m (p + n) (q + n) limit end_) : MatchEnd m p q limit end_ := by
  obtain ⟨h1, h2, h3⟩ := h'
  refine ⟨by omega, h2, fun k hk => eqBytes_append (j := end_ - (p + n)) h h3 k (by omega)⟩

theorem countTail_spec {p q limit : ℕ} (hp : p ≤ limit) :
    MatchEnd m p q limit (countTail m p q limit) := by
  have byte : ∀ p q, p ≤ limit →
      MatchEnd m p q limit (if p < limit ∧ m q = m p then p + 1 else p) := by
    intro p q hp
    split
    · next h =>
      refine ⟨by omega, by omega, fun k hk => ?_⟩
      obtain rfl : k = 0 := by omega
      exact h.2
    · exact ⟨le_rfl, hp, fun k hk => by omega⟩
  have half : ∀ p q, p ≤ limit → MatchEnd m p q limit
      (let r := if p + 1 < limit ∧ read16 m q = read16 m p then (p + 2, q + 2) else (p, q)
       if r.1 < limit ∧ m r.2 = m r.1 then r.1 + 1 else r.1) := by
    intro p q hp
    by_cases h : p + 1 < limit ∧ read16 m q = read16 m p
    · simp only [if_pos h]
      exact MatchEnd.step ((leValue_inj 2).mp h.2) (byte _ _ (by omega))
    · simp only [if_neg h]
      exact byte p q hp
  by_cases h : p + 3 < limit ∧ read32 m q = read32 m p
  · simp only [countTail, if_pos h]
    exact MatchEnd.step ((leValue_inj 4).mp h.2) (half _ _ (by omega))
  · simp only [countTail, if_neg h]
    exact half p q hp

theorem countWords_spec {p q limit : ℕ} (hp : p ≤ limit) :
    MatchEnd m p q limit (countWords m p q limit) := by
  induction hk : limit - p using Nat.strong_induction_on generalizing p q with
  | _ k ih =>
    rw [countWords]
    by_cases h : p + 7 < limit
    · rw [if_pos h]
      simp only
      split
      · next hd =>
        have he := xor_eq_zero_iff.mp hd
        exact MatchEnd.step ((leValue_inj 8).mp he) (ih (limit - (p + 8)) (by omega) (by omega) rfl)
      · have := nbCommonBytes_le (readARCH m q ^^^ readARCH m p)
        refine ⟨by omega, by omega, fun k hk => nbCommonBytes_spec k (by omega)⟩
    · rw [if_neg h]
      exact countTail_spec hp

/-- The tail comparisons find all equal bytes of the last 7. -/
theorem le_countTail {p q limit e : ℕ} (hp : p ≤ limit) (h7 : limit ≤ p + 7) (he : e ≤ limit)
    (h : ∀ k < e - p, m (q + k) = m (p + k)) : e ≤ countTail m p q limit := by
  have byte : ∀ {p q}, p ≤ limit → e ≤ p + 1 → (∀ k < e - p, m (q + k) = m (p + k)) →
      e ≤ if p < limit ∧ m q = m p then p + 1 else p := by
    intro p q hp h1 h
    split
    · omega
    · next hn =>
      by_contra hlt
      exact hn ⟨by omega, h 0 (by omega)⟩
  have shift : ∀ {p q} n, (∀ k < e - p, m (q + k) = m (p + k)) →
      ∀ k < e - (p + n), m (q + n + k) = m (p + n + k) := by
    intro p q n h k hk
    rw [Nat.add_assoc, Nat.add_assoc]
    exact h (n + k) (by omega)
  have half : ∀ {p q}, p ≤ limit → e ≤ p + 3 → (∀ k < e - p, m (q + k) = m (p + k)) →
      e ≤ (let r := if p + 1 < limit ∧ read16 m q = read16 m p then (p + 2, q + 2) else (p, q)
        if r.1 < limit ∧ m r.2 = m r.1 then r.1 + 1 else r.1) := by
    intro p q hp h3 h
    by_cases hc : p + 1 < limit ∧ read16 m q = read16 m p
    · simp only [if_pos hc]
      exact byte (by omega) (by omega) (shift 2 h)
    · simp only [if_neg hc]
      refine byte hp ?_ h
      by_contra hlt
      exact hc ⟨by omega, leValue_congr fun k hk => h k (by omega)⟩
  by_cases hc : p + 3 < limit ∧ read32 m q = read32 m p
  · simp only [countTail, if_pos hc]
    exact half (by omega) (by omega) (shift 4 h)
  · simp only [countTail, if_neg hc]
    refine half hp ?_ h
    by_contra hlt
    exact hc ⟨by omega, leValue_congr fun k hk => h k (by omega)⟩

theorem le_countWords {p q limit e : ℕ} (hp : p ≤ limit) (he : e ≤ limit)
    (h : ∀ k < e - p, m (q + k) = m (p + k)) : e ≤ countWords m p q limit := by
  induction hk : limit - p using Nat.strong_induction_on generalizing p q with
  | _ k ih =>
    rw [countWords]
    by_cases hw : p + 7 < limit
    · rw [if_pos hw]
      simp only
      split
      · refine ih (limit - (p + 8)) (by omega) (by omega) (fun k hk => ?_) rfl
        rw [Nat.add_assoc, Nat.add_assoc]
        exact h (8 + k) (by omega)
      · next hd =>
        -- unequal words: fewer than 8 bytes are equal
        have h8 : e < p + 8 := by
          by_contra hge
          exact hd (xor_eq_zero_iff.mpr (leValue_congr fun k hk => h k (by omega)))
        have := le_nbCommonBytes (p := q) (q := p) (k := e - p) (by omega) h
        omega
    · rw [if_neg hw]
      exact le_countTail hp (by omega) he h

/-- `LZ4_count` misses no equal byte below the limit. -/
theorem le_count {p q limit e : ℕ} (hp : p ≤ limit) (he : e ≤ limit)
    (h : ∀ k < e - p, m (q + k) = m (p + k)) : e ≤ p + count m p q limit := by
  have h1 := (countWords_spec (m := m) (q := q) hp).1
  have h2 := le_countWords hp he h
  rw [count]
  omega

/-- `LZ4_count` counts equal bytes and stays below the limit. -/
theorem count_spec (p q limit : ℕ) (hp : p ≤ limit) :
    p + count m p q limit ≤ limit ∧ ∀ k < count m p q limit, m (q + k) = m (p + k) := by
  obtain ⟨h1, h2, h3⟩ := countWords_spec (m := m) (q := q) hp
  exact ⟨by rw [count]; omega, h3⟩

end Count

end ZramUpgrade.Lz4
