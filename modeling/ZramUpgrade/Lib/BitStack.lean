import Mathlib.Tactic

/-!
# Lib.BitStack — a stack of bit fields packed in a number

The field pushed last is the first to be popped, `pop_push`.  A field is a width and a value, of
which a push keeps the low bits.  `tops ns` pops fields of the widths `ns`; on a stack built by
`pushAll` it gives the fields back in reverse (`tops_pushAll`).
-/

namespace ZramUpgrade.Lib

/-- `len` bits, the field pushed last on top. -/
@[ext] structure BitStack where
  len : ℕ
  val : ℕ
  val_lt : val < 2 ^ len

namespace BitStack

def empty : BitStack := ⟨0, 0, Nat.one_pos⟩

/-- Push the `n` low bits of `v`. -/
def push (b : BitStack) (n v : ℕ) : BitStack where
  len := b.len + n
  val := b.val + 2 ^ b.len * (v % 2 ^ n)
  val_lt := by
    have hv := Nat.mod_lt v (Nat.two_pow_pos n)
    calc b.val + 2 ^ b.len * (v % 2 ^ n)
        < 2 ^ b.len * (v % 2 ^ n + 1) := by rw [Nat.mul_succ]; have := b.val_lt; omega
      _ ≤ 2 ^ b.len * 2 ^ n := Nat.mul_le_mul_left _ hv
      _ = 2 ^ (b.len + n) := (Nat.pow_add _ _ _).symm

/-- The top `n` bits. -/
def top (b : BitStack) (n : ℕ) : ℕ := b.val / 2 ^ (b.len - n)

/-- Drop the top `n` bits. -/
def pop (b : BitStack) (n : ℕ) : BitStack :=
  ⟨b.len - n, b.val % 2 ^ (b.len - n), Nat.mod_lt _ (Nat.two_pow_pos _)⟩

variable {b b' : BitStack} {n k v : ℕ}

@[simp] theorem empty_len : empty.len = 0 := rfl

@[simp] theorem push_len : (b.push n v).len = b.len + n := rfl

@[simp] theorem pop_len : (b.pop n).len = b.len - n := rfl

@[simp] theorem top_push (b : BitStack) (n v : ℕ) : (b.push n v).top n = v % 2 ^ n := by
  rw [top, push_len, Nat.add_sub_cancel, push, Nat.add_mul_div_left _ _ (Nat.two_pow_pos _),
    Nat.div_eq_of_lt b.val_lt, Nat.zero_add]

@[simp] theorem pop_push (b : BitStack) (n v : ℕ) : (b.push n v).pop n = b := by
  have hval : (b.val + 2 ^ b.len * (v % 2 ^ n)) % 2 ^ b.len = b.val := by
    rw [Nat.add_mul_mod_self_left, Nat.mod_eq_of_lt b.val_lt]
  ext
  · exact Nat.add_sub_cancel _ _
  · show (b.val + 2 ^ b.len * (v % 2 ^ n)) % 2 ^ (b.len + n - n) = b.val
    rw [Nat.add_sub_cancel, hval]

/-- A field without bits. -/
@[simp] theorem push_zero (b : BitStack) (v : ℕ) : b.push 0 v = b := by
  ext
  · rfl
  · show b.val + 2 ^ b.len * (v % 2 ^ 0) = b.val
    rw [Nat.pow_zero, Nat.mod_one, Nat.mul_zero, Nat.add_zero]

/-! ## Runs of fields -/

/-- Push fields (width, value), in order. -/
def pushAll (b : BitStack) (fs : List (ℕ × ℕ)) : BitStack := fs.foldl (fun b f => b.push f.1 f.2) b

/-- Pop fields of these widths: their values, and what is left. -/
def tops (b : BitStack) : List ℕ → List ℕ × BitStack
  | [] => ([], b)
  | n :: ns => (b.top n :: ((b.pop n).tops ns).1, ((b.pop n).tops ns).2)

theorem pushAll_append (b : BitStack) (fs gs : List (ℕ × ℕ)) :
    b.pushAll (fs ++ gs) = (b.pushAll fs).pushAll gs := List.foldl_append

theorem pushAll_len (b : BitStack) (fs : List (ℕ × ℕ)) :
    (b.pushAll fs).len = b.len + (fs.map Prod.fst).sum := by
  induction fs generalizing b with
  | nil => rfl
  | cons f fs ih =>
    rw [pushAll, List.foldl_cons, ← pushAll, ih, push_len, List.map_cons, List.sum_cons,
      Nat.add_assoc]

/-- **Last in, first out**: the widths in reverse give the values in reverse. -/
theorem tops_pushAll (b : BitStack) (fs : List (ℕ × ℕ)) :
    (b.pushAll fs).tops (fs.map Prod.fst).reverse =
      ((fs.map fun f => f.2 % 2 ^ f.1).reverse, b) := by
  induction fs using List.reverseRecOn with
  | nil => rfl
  | append_singleton fs f ih =>
    rw [pushAll_append, List.map_append, List.map_append, List.reverse_append, List.reverse_append]
    simp only [List.map_cons, List.map_nil, List.reverse_cons, List.reverse_nil, List.nil_append,
      List.singleton_append, tops, pushAll, List.foldl_cons, List.foldl_nil, top_push, pop_push]
    rw [← pushAll, ih]

/-! ## From the bottom -/

/-- What is pushed leaves what is below. -/
theorem pushAll_mod (b : BitStack) (fs : List (ℕ × ℕ)) : (b.pushAll fs).val % 2 ^ b.len = b.val := by
  induction fs generalizing b with
  | nil => exact Nat.mod_eq_of_lt b.val_lt
  | cons f fs ih =>
    have hpush := ih (b.push f.1 f.2)
    have hlow : (b.val + 2 ^ b.len * (f.2 % 2 ^ f.1)) % 2 ^ b.len = b.val := by
      rw [Nat.add_mul_mod_self_left, Nat.mod_eq_of_lt b.val_lt]
    calc ((b.push f.1 f.2).pushAll fs).val % 2 ^ b.len
        = ((b.push f.1 f.2).pushAll fs).val % 2 ^ (b.len + f.1) % 2 ^ b.len :=
          (Nat.mod_mod_of_dvd _ (Nat.pow_dvd_pow 2 (Nat.le_add_right _ _))).symm
      _ = b.val := by
          rw [← push_len (v := f.2), hpush]
          exact hlow

/-- The number `V` has these fields (width, value) one after the other from bit `q` on. -/
def FieldsAt (V : ℕ) : ℕ → List (ℕ × ℕ) → Prop
  | _, [] => True
  | q, f :: fs => V / 2 ^ q % 2 ^ f.1 = f.2 % 2 ^ f.1 ∧ FieldsAt V (q + f.1) fs

theorem fieldsAt_append {V q : ℕ} {fs gs : List (ℕ × ℕ)} :
    FieldsAt V q (fs ++ gs) ↔ FieldsAt V q fs ∧ FieldsAt V (q + (fs.map Prod.fst).sum) gs := by
  induction fs generalizing q with
  | nil => simp [FieldsAt]
  | cons f fs ih =>
    rw [List.cons_append, FieldsAt, FieldsAt, ih, and_assoc, List.map_cons, List.sum_cons, Nat.add_assoc]

/-- **First in, first out**: a number that ends in the stack has the fields from the bottom on. -/
theorem fieldsAt_pushAll {V : ℕ} {b : BitStack} {fs : List (ℕ × ℕ)}
    (h : V % 2 ^ (b.pushAll fs).len = (b.pushAll fs).val) : FieldsAt V b.len fs := by
  induction fs generalizing b with
  | nil => trivial
  | cons f fs ih =>
    refine ⟨?_, ih (b := b.push f.1 f.2) h⟩
    have hlow := pushAll_mod (b.push f.1 f.2) fs
    have hlen : (b.push f.1 f.2).len ≤ ((b.push f.1 f.2).pushAll fs).len := by
      rw [pushAll_len]
      exact Nat.le_add_right _ _
    have hV : V % 2 ^ (b.len + f.1) = b.val + 2 ^ b.len * (f.2 % 2 ^ f.1) := by
      rw [push_len] at hlen
      rw [← Nat.mod_mod_of_dvd V (Nat.pow_dvd_pow 2 hlen)]
      exact (congrArg (· % 2 ^ (b.len + f.1)) h).trans hlow
    rw [Nat.pow_add, Nat.mod_mul] at hV
    have hdiv := congrArg (· / 2 ^ b.len) hV
    rw [Nat.add_mul_div_left _ _ (Nat.two_pow_pos _), Nat.div_eq_of_lt (Nat.mod_lt _ (Nat.two_pow_pos _)),
      Nat.zero_add, Nat.add_mul_div_left _ _ (Nat.two_pow_pos _), Nat.div_eq_of_lt b.val_lt,
      Nat.zero_add] at hdiv
    exact hdiv

end BitStack

end ZramUpgrade.Lib
