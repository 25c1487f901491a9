import ZramUpgrade.Lib.Bucket

/-!
# Lib.Tans — table-based asymmetric numeral systems

A table of `2 ^ L` cells gives every cell a symbol `sym u`.  Coder states lie in `2 ^ L .. 2 ^ (L + 1) - 1`;
cell `u` is the state `2 ^ L + u`.  To code `s` from `x`, the coder gives out the low bits of `x` until
what is left is one of `freq s .. 2 * freq s - 1`, and goes to the cell of `s` of that number
(`Codes`).  The decoder reads symbol, width and base off the cell, and is back at `x` (`Codes.inverse`).
-/

namespace ZramUpgrade.Lib.Tans

variable {κ : Type*} [DecidableEq κ] (sym : ℕ → κ) (L : ℕ)

/-- The cells of `s`. -/
def freq (s : κ) : ℕ := total sym s (2 ^ L)

/-- The number of cell `u`, from `freq` up. -/
def number (u : ℕ) : ℕ := freq sym L (sym u) + rank sym u

/-- The bits given out to get to the number `y`. -/
def width (y : ℕ) : ℕ := L - y.log2

/-- The state, less `2 ^ L`, a number comes from if the bits given out were zeros. -/
def base (y : ℕ) : ℕ := y <<< width L y - 2 ^ L

/-- A state. -/
def State (x : ℕ) : Prop := 2 ^ L ≤ x ∧ x < 2 ^ (L + 1)

/-- `s` is coded from `x` with `nb` bits, to the state `x'`. -/
structure Codes (x : ℕ) (s : κ) (nb x' : ℕ) : Prop where
  start : State L x
  state : State L x'
  sym_eq : sym (x' - 2 ^ L) = s
  number_eq : number sym L (x' - 2 ^ L) = x >>> nb

variable {sym L} {x x' nb u : ℕ} {s : κ}

theorem number_bounds (sym : ℕ → κ) (h : u < 2 ^ L) :
    freq sym L (sym u) ≤ number sym L u ∧ number sym L u < 2 * freq sym L (sym u) := by
  have := rank_lt sym h
  unfold number freq
  omega

/-- What is left of a state has `nb` bits less. -/
theorem width_shift (h : State L x) (hnb : nb ≤ L) : width L (x >>> nb) = nb := by
  have hpos : x >>> nb ≠ 0 := by
    rw [Nat.shiftRight_eq_div_pow]
    have hle : 2 ^ nb ≤ x := le_trans (Nat.pow_le_pow_right (by decide) hnb) h.1
    exact (Nat.div_pos hle (Nat.two_pow_pos nb)).ne'
  have hlog : (x >>> nb).log2 = L - nb := by
    rw [Nat.log2_eq_iff hpos, Nat.shiftRight_eq_div_pow]
    constructor
    · rw [Nat.le_div_iff_mul_le (Nat.two_pow_pos _), ← Nat.pow_add, Nat.sub_add_cancel hnb]
      exact h.1
    · rw [Nat.div_lt_iff_lt_mul (Nat.two_pow_pos _), ← Nat.pow_add]
      have : L - nb + 1 + nb = L + 1 := by omega
      rw [this]
      exact h.2
  rw [width, hlog]
  omega

/-- **A step of the decoder is a step of the coder backward.** -/
theorem Codes.inverse (h : Codes sym L x s nb x') (hnb : nb ≤ L) :
    width L (number sym L (x' - 2 ^ L)) = nb ∧
      base L (number sym L (x' - 2 ^ L)) + x % 2 ^ nb = x - 2 ^ L := by
  have hwidth := width_shift h.start hnb
  rw [h.number_eq]
  refine ⟨hwidth, ?_⟩
  have hdiv : x >>> nb * 2 ^ nb + x % 2 ^ nb = x := by
    rw [Nat.shiftRight_eq_div_pow]
    exact Nat.div_add_mod' x (2 ^ nb)
  have hbig : 2 ^ L ≤ x >>> nb * 2 ^ nb := by
    rw [Nat.shiftRight_eq_div_pow, show 2 ^ L = 2 ^ (L - nb) * 2 ^ nb by
      rw [← Nat.pow_add, Nat.sub_add_cancel hnb]]
    refine Nat.mul_le_mul_right _ ?_
    rw [Nat.le_div_iff_mul_le (Nat.two_pow_pos _), ← Nat.pow_add, Nat.sub_add_cancel hnb]
    exact h.start.1
  rw [base, hwidth, Nat.shiftLeft_eq]
  omega

/-- From every state there is a step to every number that the state can be cut to. -/
theorem exists_codes (sym : ℕ → κ) (nb : ℕ) (h : State L x) (hlow : freq sym L s ≤ x >>> nb)
    (hhigh : x >>> nb < 2 * freq sym L s) :
    ∃ u < 2 ^ L, sym u = s ∧ rank sym u = x >>> nb - freq sym L s ∧ Codes sym L x s nb (2 ^ L + u) := by
  obtain ⟨u, hu, hsym, hrank⟩ := exists_rank sym (k := s) (n := 2 ^ L)
    (r := x >>> nb - freq sym L s) (by unfold freq at *; omega)
  refine ⟨u, hu, hsym, hrank, h, ⟨Nat.le_add_right _ _, ?_⟩, ?_, ?_⟩
  · rw [Nat.pow_succ]
    omega
  · rw [Nat.add_sub_cancel_left, hsym]
  · rw [Nat.add_sub_cancel_left, number, hsym, hrank]
    omega

/-- A number below half the table takes at least one bit. -/
theorem width_pos {y : ℕ} (h0 : y ≠ 0) (h : y < 2 ^ L) : 0 < width L y := by
  have := (Nat.log2_lt h0).mpr h
  unfold width
  omega

end ZramUpgrade.Lib.Tans
