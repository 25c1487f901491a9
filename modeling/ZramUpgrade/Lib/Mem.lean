import Mathlib.Tactic

/-!
# Lib.Mem — byte memory, block copies and periodic extension

A buffer is its byte at every offset.  `memcpy` reads the whole source block before it writes.
`leValue` is a little-endian word; equal words are equal bytes (`leValue_inj`).  `extend p b off`
keeps `p` below `b` and repeats its last `off` bytes from there: the stream an overlapping match
copy writes (`extend_period`, `extend_agree`).  `fromOffset` is what a pointer into the buffer sees, and
`withFrom` the buffer after it was written there.  A step that fails has written too: its error carries
the buffer, and `Leaves` speaks of both ways out.
-/

namespace ZramUpgrade.Lib

/-- A buffer: the byte at every offset. -/
abbrev Mem := ℕ → UInt8

section Write

/-- Write one byte. -/
def store (m : Mem) (i : ℕ) (b : UInt8) : Mem := fun j => if j = i then b else m j

/-- Copy `n` bytes of `rd` from offset `s` to offset `d` of `m`. -/
def memcpy (rd m : Mem) (d s n : ℕ) : Mem :=
  fun j => if d ≤ j ∧ j < d + n then rd (s + (j - d)) else m j

/-- Write the `n` low bytes of `v`, least significant first. -/
def leStore (m : Mem) (i v n : ℕ) : Mem :=
  fun j => if i ≤ j ∧ j < i + n then UInt8.ofNat (v / 256 ^ (j - i)) else m j

@[simp] theorem store_self (m : Mem) (i : ℕ) (b : UInt8) : store m i b i = b := by simp [store]

theorem store_ne (m : Mem) {i j : ℕ} (b : UInt8) (h : j ≠ i) : store m i b j = m j := by
  simp [store, h]

theorem memcpy_in (rd m : Mem) {d s n j : ℕ} (h : d ≤ j) (h' : j < d + n) :
    memcpy rd m d s n j = rd (s + (j - d)) := by
  simp [memcpy, h, h']

theorem memcpy_out (rd m : Mem) {d s n j : ℕ} (h : j < d ∨ d + n ≤ j) :
    memcpy rd m d s n j = m j := by
  rw [memcpy, if_neg]
  omega

/-- A copy reads its block only. -/
theorem memcpy_congr {rd rd' : Mem} (m : Mem) {d s n : ℕ} (h : ∀ k < n, rd (s + k) = rd' (s + k)) :
    memcpy rd m d s n = memcpy rd' m d s n := by
  funext j
  rw [memcpy, memcpy]
  by_cases hj : d ≤ j ∧ j < d + n
  · rw [if_pos hj, if_pos hj, h _ (by omega)]
  · rw [if_neg hj, if_neg hj]

theorem leStore_in (m : Mem) {i v n j : ℕ} (h : i ≤ j) (h' : j < i + n) :
    leStore m i v n j = UInt8.ofNat (v / 256 ^ (j - i)) := by
  simp [leStore, h, h']

theorem leStore_out (m : Mem) (v : ℕ) {i n j : ℕ} (h : j < i ∨ i + n ≤ j) :
    leStore m i v n j = m j := by
  rw [leStore, if_neg]
  omega

end Write

/-! ## Agreement on a prefix -/

/-- The two memories have the same first `n` bytes. -/
def Agree (m m' : Mem) (n : ℕ) : Prop := ∀ i < n, m i = m' i

section Agree

variable {m m' p : Mem} {n k : ℕ}

theorem Agree.refl (m : Mem) (n : ℕ) : Agree m m n := fun _ _ => rfl

theorem Agree.symm (h : Agree m m' n) : Agree m' m n := fun i hi => (h i hi).symm

theorem Agree.trans (h : Agree m m' n) (h' : Agree m' p n) : Agree m p n :=
  fun i hi => (h i hi).trans (h' i hi)

theorem Agree.mono (h : Agree m m' n) (hk : k ≤ n) : Agree m m' k :=
  fun i hi => h i (by omega)

/-- A write past the prefix keeps it. -/
theorem agree_store (m : Mem) (b : UInt8) (h : n ≤ k) : Agree (store m k b) m n :=
  fun i hi => store_ne m b (by omega)

/-- A copy past the prefix keeps it. -/
theorem agree_memcpy (rd m : Mem) (s len : ℕ) (h : n ≤ k) : Agree (memcpy rd m k s len) m n :=
  fun i hi => memcpy_out rd m (by omega)

theorem agree_leStore (m : Mem) (v len : ℕ) (h : n ≤ k) : Agree (leStore m k v len) m n :=
  fun i hi => leStore_out m v (by omega)

/-- A copy that starts at the end of an agreeing prefix extends it by what it copies right. -/
theorem Agree.memcpy {rd : Mem} {d s len : ℕ} (h : Agree m p d)
    (hc : ∀ k < n, rd (s + k) = p (d + k)) (hn : n ≤ len) :
    Agree (memcpy rd m d s len) p (d + n) := by
  intro i hi
  by_cases hid : i < d
  · rw [memcpy_out rd m (by omega)]
    exact h i hid
  · rw [memcpy_in rd m (by omega) (by omega), hc (i - d) (by omega), Nat.add_sub_cancel' (by omega)]

/-- The same for a copy from within the buffer, at least `len` back in a stream with that period. -/
theorem Agree.memcpy_self {d : ℕ} (h : Agree m p d) (s len : ℕ) (hsd : s + len ≤ d)
    (hp : ∀ k < len, p (s + k) = p (d + k)) : Agree (Lib.memcpy m m d s len) p (d + len) :=
  h.memcpy (fun k hk => by rw [h (s + k) (by omega), hp k hk]) le_rfl

/-- And for a single byte. -/
theorem Agree.store {d : ℕ} {b : UInt8} (h : Agree m p d) (hb : b = p d) :
    Agree (store m d b) p (d + 1) := by
  intro i hi
  by_cases hid : i = d
  · rw [hid, store_self, hb]
  · rw [store_ne m b hid]
    exact h i (by omega)

end Agree

/-! ## Byte strings -/

/-- The first `n` bytes of a buffer. -/
def bytes (m : Mem) (n : ℕ) : List UInt8 := (List.range n).map m

section Bytes

variable {m m' : Mem} {n k : ℕ}

@[simp] theorem bytes_length (m : Mem) (n : ℕ) : (bytes m n).length = n := by simp [bytes]

theorem bytes_succ (m : Mem) (n : ℕ) : bytes m (n + 1) = bytes m n ++ [m n] := by
  simp [bytes, List.range_succ]

theorem bytes_congr (h : Agree m m' n) : bytes m n = bytes m' n :=
  List.map_congr_left fun i hi => h i (List.mem_range.mp hi)

theorem getElem_bytes (h : k < (bytes m n).length) : (bytes m n)[k] = m k := by simp [bytes]

/-- From position `k` on, the next byte comes first. -/
theorem drop_bytes (h : k < n) : (bytes m n).drop k = m k :: (bytes m n).drop (k + 1) := by
  rw [List.drop_eq_getElem_cons (by rwa [bytes_length]), getElem_bytes]

/-- A copy of the next `l` bytes is their string. -/
theorem bytes_append_take {d l : ℕ} (h : k + l ≤ n) :
    bytes m' d ++ ((bytes m n).drop k).take l = bytes (memcpy m m' d k l) (d + l) := by
  refine List.ext_getElem ?_ fun i hi hi' => ?_
  · simp
    omega
  · rw [getElem_bytes]
    by_cases hd : i < d
    · rw [List.getElem_append_left (by simpa using hd), getElem_bytes, memcpy_out _ _ (.inl hd)]
    · have hl : i < d + l := by simpa using hi'
      rw [List.getElem_append_right (by simp; omega), memcpy_in _ _ (by omega) hl,
        List.getElem_take, List.getElem_drop, getElem_bytes, bytes_length]

end Bytes

/-! ## Little-endian words -/

/-- The value of the `n` bytes at `i`, least significant first. -/
def leValue (m : Mem) (i : ℕ) : ℕ → ℕ
  | 0 => 0
  | n + 1 => (m i).toNat + 256 * leValue m (i + 1) n

/-- Equal words are equal bytes. -/
theorem leValue_inj {m m' : Mem} (n : ℕ) : ∀ {i j : ℕ},
    leValue m i n = leValue m' j n ↔ ∀ k < n, m (i + k) = m' (j + k) := by
  induction n with
  | zero => intro i j; simp [leValue]
  | succ n ih =>
    intro i j
    have h1 := (m i).toNat_lt
    have h2 := (m' j).toNat_lt
    constructor
    · intro h k hk
      simp only [leValue] at h
      have hb : m i = m' j := UInt8.toNat_inj.mp (by omega)
      have ht := ih.mp (by omega : leValue m (i + 1) n = leValue m' (j + 1) n)
      cases k with
      | zero => exact hb
      | succ k =>
        have := ht k (by omega)
        rwa [Nat.add_assoc, Nat.add_assoc, Nat.add_comm 1 k] at this
    · intro h
      have hb := h 0 (by omega)
      have ht : leValue m (i + 1) n = leValue m' (j + 1) n := ih.mpr fun k hk => by
        rw [Nat.add_assoc, Nat.add_assoc, Nat.add_comm 1 k]
        exact h (k + 1) (by omega)
      simp only [Nat.add_zero] at hb
      simp only [leValue, hb, ht]

theorem leValue_congr {m m' : Mem} {i j n : ℕ} (h : ∀ k < n, m (i + k) = m' (j + k)) :
    leValue m i n = leValue m' j n := (leValue_inj n).mpr h

/-- Reading back what `leStore` wrote. -/
theorem leValue_leStore (m : Mem) (n : ℕ) : ∀ i v : ℕ,
    leValue (leStore m i v n) i n = v % 256 ^ n := by
  induction n with
  | zero => intro i v; simp [leValue, Nat.mod_one]
  | succ n ih =>
    intro i v
    have hb : leStore m i v (n + 1) i = UInt8.ofNat v := by
      rw [leStore_in m (by omega) (by omega), Nat.sub_self, Nat.pow_zero, Nat.div_one]
    have ht : leValue (leStore m i v (n + 1)) (i + 1) n =
        leValue (leStore m (i + 1) (v / 256) n) (i + 1) n := leValue_congr fun k hk => by
      rw [leStore_in m (by omega) (by omega), leStore_in m (by omega) (by omega),
        Nat.div_div_eq_div_mul, ← Nat.pow_succ']
      congr 4
      omega
    rw [leValue, hb, ht, ih, Nat.pow_succ', Nat.mod_mul]
    simp

/-- The low bytes of a word are the word of the first bytes. -/
theorem leValue_mod (m : Mem) (n : ℕ) : ∀ {i k : ℕ}, k ≤ n →
    leValue m i n % 256 ^ k = leValue m i k := by
  induction n with
  | zero =>
    intro i k hk
    obtain rfl : k = 0 := by omega
    simp [leValue]
  | succ n ih =>
    intro i k hk
    cases k with
    | zero => simp [leValue, Nat.mod_one]
    | succ k =>
      have hb := (m i).toNat_lt
      have := ih (i := i + 1) (k := k) (by omega)
      rw [leValue, leValue, Nat.pow_succ', Nat.mod_mul, ← this]
      have e1 : ((m i).toNat + 256 * leValue m (i + 1) n) % 256 = (m i).toNat := by omega
      have e2 : ((m i).toNat + 256 * leValue m (i + 1) n) / 256 = leValue m (i + 1) n := by omega
      rw [e1, e2]

theorem leValue_lt (m : Mem) (n : ℕ) : ∀ {i : ℕ}, leValue m i n < 256 ^ n := by
  induction n with
  | zero => intro i; simp [leValue]
  | succ n ih =>
    intro i
    have hb := (m i).toNat_lt
    have := ih (i := i + 1)
    rw [leValue, Nat.pow_succ]
    omega

/-- A word is its low bytes and its high ones. -/
theorem leValue_add (m : Mem) (k : ℕ) : ∀ {i n : ℕ},
    leValue m i (k + n) = leValue m i k + 256 ^ k * leValue m (i + k) n := by
  induction k with
  | zero => intro i n; simp [leValue]
  | succ k ih =>
    intro i n
    rw [Nat.succ_add, leValue, leValue, ih, Nat.pow_succ', Nat.mul_add, Nat.mul_assoc,
      Nat.add_assoc i 1 k, Nat.add_comm 1 k, Nat.add_assoc]

/-- The high bytes of a word. -/
theorem leValue_div (m : Mem) {i k n : ℕ} (h : k ≤ n) :
    leValue m i n / 256 ^ k = leValue m (i + k) (n - k) := by
  obtain ⟨d, rfl⟩ := Nat.exists_eq_add_of_le h
  rw [leValue_add, Nat.add_mul_div_left _ _ (by positivity), Nat.div_eq_of_lt (leValue_lt m k),
    Nat.zero_add, Nat.add_sub_cancel_left]

/-! ## Pointers into a buffer -/

/-- The buffer from offset `i` on. -/
def fromOffset (m : Mem) (i : ℕ) : Mem := fun j => m (i + j)

/-- The buffer `m` with `w` from offset `i` on. -/
def withFrom (m : Mem) (i : ℕ) (w : Mem) : Mem := fun j => if j < i then m j else w (j - i)

@[simp] theorem fromOffset_withFrom (m : Mem) (i : ℕ) (w : Mem) : fromOffset (withFrom m i w) i = w := by
  funext j
  rw [fromOffset, withFrom, if_neg (by omega), Nat.add_sub_cancel_left]

theorem agree_withFrom (m : Mem) (w : Mem) {i n : ℕ} (h : n ≤ i) : Agree (withFrom m i w) m n :=
  fun j hj => if_pos (by omega)

/-! ## Steps that may fail -/

/-- `Q` of what the step returns, or `R` of the buffer it fails with. -/
def Leaves {ε α : Type} (Q : α → Prop) (R : Mem → Prop) : Except (ε × Mem) α → Prop
  | .ok a => Q a
  | .error (_, m) => R m

section Leaves

variable {ε α β : Type} {Q Q' : α → Prop} {P : β → Prop} {R R' : Mem → Prop} {x : Except (ε × Mem) α}

theorem Leaves.mono (h : Leaves Q R x) (hQ : ∀ a, Q a → Q' a) (hR : ∀ m, R m → R' m) : Leaves Q' R' x := by
  cases x with
  | error e => exact hR e.2 h
  | ok a => exact hQ a h

/-- One step after the other. -/
theorem Leaves.bind {k : α → Except (ε × Mem) β} (h : Leaves Q R x) (hk : ∀ a, Q a → Leaves P R (k a)) :
    Leaves P R (x >>= k) := by
  cases x with
  | error e => exact h
  | ok a => exact hk a h

end Leaves

/-! ## Periodic extension -/

/-- `p` below `b`, then its last `off` bytes again and again; zeros when `off = 0`. -/
def extend (p : Mem) (b off : ℕ) : Mem :=
  fun i => if i < b then p i else if off = 0 then 0 else p (b - off + (i - b) % off)

theorem extend_below (p : Mem) {b off i : ℕ} (h : i < b) : extend p b off i = p i := by
  simp [extend, h]

/-- From `b` on, `extend` repeats with every multiple of `off` that stays at or above `b - off`. -/
theorem extend_period (p : Mem) {b off i q : ℕ} (hoff : 0 < off) (hb : off ≤ b) (hi : b ≤ i)
    (hq : b - off ≤ i - q * off) (hqi : q * off ≤ i) :
    extend p b off i = extend p b off (i - q * off) := by
  have hne : off ≠ 0 := by omega
  simp only [extend, if_neg hne, if_neg (Nat.not_lt.mpr hi)]
  by_cases h : i - q * off < b
  · rw [if_pos h]
    -- the source lies in the last period below `b`: its distance from `b - off` is the remainder
    congr 1
    have hr : i - b = (i - q * off - (b - off)) + (q - 1) * off := by
      have : q ≠ 0 := by rintro rfl; omega
      obtain ⟨q, rfl⟩ := Nat.exists_eq_succ_of_ne_zero this
      rw [Nat.succ_mul] at *
      simp only [Nat.succ_eq_add_one, Nat.add_sub_cancel]
      omega
    rw [hr, Nat.add_mul_mod_self_right, Nat.mod_eq_of_lt (by omega)]
    omega
  · rw [if_neg h]
    congr 2
    have hr : i - b = (i - q * off - b) + q * off := by omega
    rw [hr, Nat.add_mul_mod_self_right]

/-- A stream that repeats `off` back over `n` bytes from `b` is its periodic extension there. -/
theorem extend_agree {p : Mem} {b off n : ℕ} (hoff : 0 < off) (hb : off ≤ b)
    (h : ∀ k < n, p (b + k) = p (b + k - off)) : Agree (extend p b off) p (b + n) := by
  intro i
  induction i using Nat.strong_induction_on with
  | _ i ih =>
    intro hi
    by_cases hib : i < b
    · exact extend_below p hib
    · have h1 := extend_period p (q := 1) hoff hb (by omega : b ≤ i) (by omega) (by omega)
      have h2 := h (i - b) (by omega)
      rw [Nat.add_sub_cancel' (by omega)] at h2
      rw [h1, h2, Nat.one_mul]
      exact ih (i - off) (by omega) (by omega)

end ZramUpgrade.Lib
