import Mathlib.Tactic

/-!
# Lib.Absorb — block-wise absorption of a byte stream

`absorb n f a l` feeds the full `n`-blocks of `l` to `f`, starting from the accumulator `a`, and
returns the final accumulator together with the undigested tail (fewer than `n` elements).  A
streaming object that keeps `(accumulator, tail)` may take its input in any chunks: absorbing
`l ++ r` is absorbing `l` and then `tail ++ r` (`absorb_append`).  Nothing here is about a
particular hash.
-/

namespace ZramUpgrade.Lib

section Absorb

variable {α β : Type} {n : ℕ} (hn : 0 < n) (f : β → List α → β)

/-- Feed the full `n`-blocks of the list to `f`; return the accumulator and the tail. -/
def absorb (hn : 0 < n) (f : β → List α → β) (a : β) (l : List α) : β × List α :=
  if n ≤ l.length then absorb hn f (f a (l.take n)) (l.drop n) else (a, l)
termination_by l.length
decreasing_by simp only [List.length_drop]; omega

theorem absorb_of_lt {l : List α} (h : l.length < n) (a : β) : absorb hn f a l = (a, l) := by
  rw [absorb, if_neg (by omega)]

theorem absorb_of_le {l : List α} (h : n ≤ l.length) (a : β) :
    absorb hn f a l = absorb hn f (f a (l.take n)) (l.drop n) := by
  rw [absorb, if_pos h]

/-- One full block in front is one step of `f`. -/
theorem absorb_block {b : List α} (hb : b.length = n) (l : List α) (a : β) :
    absorb hn f a (b ++ l) = absorb hn f (f a b) l := by
  rw [absorb_of_le hn f (by simp [hb]), List.take_left' hb, List.drop_left' hb]

/-- **Chunking is irrelevant**: absorb `l`, keep the tail, and go on with `tail ++ r`. -/
theorem absorb_append (a : β) (l r : List α) :
    absorb hn f a (l ++ r) = absorb hn f (absorb hn f a l).1 ((absorb hn f a l).2 ++ r) := by
  induction hk : l.length using Nat.strong_induction_on generalizing a l with
  | _ k ih =>
    by_cases h : n ≤ l.length
    · rw [absorb_of_le hn f h, absorb_of_le hn f (by simp; omega), List.take_append_of_le_length h,
        List.drop_append_of_le_length h]
      exact ih (l.drop n).length (by simp; omega) _ _ rfl
    · rw [absorb_of_lt hn f (Nat.lt_of_not_le h) a]

theorem absorb_length_lt (a : β) (l : List α) : (absorb hn f a l).2.length < n := by
  induction hk : l.length using Nat.strong_induction_on generalizing a l with
  | _ k ih =>
    by_cases h : n ≤ l.length
    · rw [absorb_of_le hn f h]
      exact ih (l.drop n).length (by simp; omega) _ _ rfl
    · rw [absorb_of_lt hn f (by omega)]
      simpa using h

/-- The tail is the end of the list past its last full block. -/
theorem absorb_snd (a : β) (l : List α) :
    (absorb hn f a l).2 = l.drop (n * (l.length / n)) := by
  induction hk : l.length using Nat.strong_induction_on generalizing a l with
  | _ k ih =>
    by_cases h : n ≤ l.length
    · rw [absorb_of_le hn f h, ih (l.drop n).length (by simp; omega) _ _ rfl, List.drop_drop,
        List.length_drop, hk]
      have hdiv : k / n = (k - n) / n + 1 := by
        rw [← Nat.sub_add_cancel (hk ▸ h : n ≤ k), Nat.add_div_right _ hn]
        simp
      rw [hdiv, Nat.mul_add, Nat.mul_one, Nat.add_comm]
    · rw [absorb_of_lt hn f (by omega), ← hk, Nat.div_eq_of_lt (by omega)]
      simp

theorem absorb_snd_length (a : β) (l : List α) : (absorb hn f a l).2.length = l.length % n := by
  rw [absorb_snd, List.length_drop]
  have := Nat.div_add_mod l.length n
  omega

/-- The accumulator is a fold of `f` over the block numbers. -/
theorem absorb_fst (a : β) (l : List α) :
    (absorb hn f a l).1 =
      (List.range (l.length / n)).foldl (fun b i => f b ((l.drop (n * i)).take n)) a := by
  induction hk : l.length using Nat.strong_induction_on generalizing a l with
  | _ k ih =>
    by_cases h : n ≤ l.length
    · rw [absorb_of_le hn f h, ih (l.drop n).length (by simp; omega) _ _ rfl, List.length_drop, hk]
      have hdiv : k / n = (k - n) / n + 1 := by
        rw [← Nat.sub_add_cancel (hk ▸ h : n ≤ k), Nat.add_div_right _ hn]
        simp
      rw [hdiv, List.range_succ_eq_map, List.foldl_cons, List.foldl_map]
      simp only [List.drop_drop, Nat.mul_zero, List.drop_zero, Nat.succ_eq_add_one, Nat.mul_add,
        Nat.mul_one, Nat.add_comm]
    · rw [absorb_of_lt hn f (by omega), ← hk, Nat.div_eq_of_lt (by omega)]
      simp

end Absorb

end ZramUpgrade.Lib
