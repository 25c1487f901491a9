import Mathlib.Tactic
import Mathlib.Data.List.Iterate

/-!
# Lib.Orbit — the first return of an orbit to a set

`seek f P n a` follows `f` from `a` to the first point of `P`.  Along an orbit that ends in `P` the
points of the first-return map are the points of the orbit that lie in `P`, in order
(`iterate_seek`).  A step prime to `N` visits every residue once (`iterate_step_perm`).
-/

namespace ZramUpgrade.Lib

section FirstReturn

variable {α : Type*} (f : α → α) (P : α → Prop) [DecidablePred P]

/-- Follow `f` until `P`, `n` times at most. -/
def seek : ℕ → α → α
  | 0, a => a
  | n + 1, a => if P a then a else seek n (f a)

variable {f P}

theorem seek_of_pos {n : ℕ} {a : α} (h : P a) : seek f P n a = a := by
  cases n with
  | zero => rfl
  | succ n => exact if_pos h

theorem seek_of_neg {n : ℕ} {a : α} (h : ¬ P a) : seek f P (n + 1) a = seek f P n (f a) := if_neg h

/-- Any two numbers of tries that reach `P` find the same point. -/
theorem seek_eq {k : ℕ} {a : α} (h : P (f^[k] a)) :
    ∀ {n m : ℕ}, k ≤ n → k ≤ m → seek f P n a = seek f P m a := by
  induction k generalizing a with
  | zero =>
    intro n m _ _
    rw [seek_of_pos (a := a) h, seek_of_pos (a := a) h]
  | succ k ih =>
    intro n m hn hm
    obtain ⟨n, rfl⟩ : ∃ n', n = n' + 1 := ⟨n - 1, by omega⟩
    obtain ⟨m, rfl⟩ : ∃ m', m = m' + 1 := ⟨m - 1, by omega⟩
    rw [seek, seek, ih (a := f a) h (by omega : k ≤ n) (by omega : k ≤ m)]

/-- **First return**: the iterates of the first-return map are the points of the orbit in `P`. -/
theorem iterate_seek {N k : ℕ} {a : α} (hk : k ≤ N) (h : P (f^[k] a)) :
    List.iterate (fun b => seek f P N (f b)) (seek f P N a)
        (((List.iterate f a k).filter P).length) = (List.iterate f a k).filter P ∧
      (fun b => seek f P N (f b))^[((List.iterate f a k).filter P).length] (seek f P N a) =
        f^[k] a := by
  induction k generalizing a with
  | zero => exact ⟨rfl, seek_of_pos h⟩
  | succ k ih =>
    obtain ⟨hlist, hend⟩ := ih (a := f a) (by omega) h
    by_cases hP : P a
    · have hfilter : (List.iterate f a (k + 1)).filter P = a :: (List.iterate f (f a) k).filter P :=
        List.filter_cons_of_pos (by simpa using hP)
      rw [hfilter, List.length_cons, seek_of_pos hP]
      exact ⟨congrArg (a :: ·) hlist, hend⟩
    · have hfilter : (List.iterate f a (k + 1)).filter P = (List.iterate f (f a) k).filter P :=
        List.filter_cons_of_neg (by simpa using hP)
      have hskip : seek f P N a = seek f P N (f a) := by
        rw [seek_eq (k := k + 1) h hk (Nat.le_succ_of_le hk), seek_of_neg hP]
      rw [hfilter, hskip]
      exact ⟨hlist, hend⟩

end FirstReturn

/-! ## Steps around a circle -/

section Circle

variable {N step : ℕ}

theorem iterate_add_mod (i a : ℕ) : (fun p => (p + step) % N)^[i] a % N = (a + i * step) % N := by
  induction i generalizing a with
  | zero => rw [Nat.zero_mul, Nat.add_zero]; rfl
  | succ i ih =>
    rw [Function.iterate_succ_apply, ih, Nat.mod_add_mod, Nat.succ_mul, Nat.add_assoc,
      Nat.add_comm step]

theorem iterate_step (hN : 0 < N) (i : ℕ) : (fun p => (p + step) % N)^[i] 0 = i * step % N := by
  have hlt : (fun p => (p + step) % N)^[i] 0 < N := by
    cases i with
    | zero => exact hN
    | succ i =>
      rw [Function.iterate_succ_apply']
      exact Nat.mod_lt _ hN
  rw [← Nat.mod_eq_of_lt hlt, iterate_add_mod, Nat.zero_add]

/-- **A step prime to `N`** visits every cell of `N` once, and is then back. -/
theorem iterate_step_perm (hN : 0 < N) (hstep : Nat.Coprime N step) :
    (List.iterate (fun p => (p + step) % N) 0 N).Perm (List.range N) ∧
      (fun p => (p + step) % N)^[N] 0 = 0 := by
  have heq : List.iterate (fun p => (p + step) % N) 0 N = (List.range N).map (fun i => i * step % N) := by
    rw [← List.range_map_iterate]
    exact List.map_congr_left fun i _ => iterate_step hN i
  refine ⟨?_, by rw [iterate_step hN, Nat.mul_mod_right]⟩
  have hnodup : ((List.range N).map fun i => i * step % N).Nodup := by
    refine List.Nodup.map_on (fun i hi j hj hij => ?_) List.nodup_range
    have hmod : i ≡ j [MOD N] := Nat.ModEq.cancel_right_of_coprime hstep hij
    exact Nat.ModEq.eq_of_lt_of_lt hmod (List.mem_range.mp hi) (List.mem_range.mp hj)
  have hsub : ((List.range N).map fun i => i * step % N) ⊆ List.range N := by
    intro x hx
    obtain ⟨i, -, rfl⟩ := List.mem_map.mp hx
    exact List.mem_range.mpr (Nat.mod_lt _ hN)
  rw [heq]
  exact (List.subperm_of_subset hnodup hsub).perm_of_length_le (by simp)

end Circle

end ZramUpgrade.Lib
