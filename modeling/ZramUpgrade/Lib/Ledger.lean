import Mathlib.Data.Finset.Basic
import Mathlib.Tactic

/-!
# Lib.Ledger — ownership of heap blocks along a trace

A trace lists what a program does with its blocks: ask for one (granted or refused), free one, use
one.  `Ledger tr S` says that the trace respects ownership and that `S` are the blocks still owned.
From it: blocks granted and blocks freed balance, nothing is used after it was freed, and no null
pointer is used.  `Heap` is an allocator that writes such a trace and names a block by the number of
the request that got it.
-/

namespace ZramUpgrade.Lib

/-- What a program does with heap blocks; `null` is a use of a null pointer. -/
inductive MemEvent (β : Type) where
  | alloc (b : β)
  | refuse
  | free (b : β)
  | use (b : β)
  | null
deriving DecidableEq

variable {β : Type}

/-- What stands behind `x` in a trace that ends in `e`. -/
theorem snoc_eq_append_cons {tr pre post : List (MemEvent β)} {e x : MemEvent β}
    (h : tr ++ [e] = pre ++ x :: post) :
    post = [] ∨ ∃ post', post = post' ++ [e] ∧ tr = pre ++ x :: post' := by
  rcases List.eq_nil_or_concat post with rfl | ⟨post', e', rfl⟩
  · exact .inl rfl
  rw [List.concat_eq_append, ← List.cons_append, ← List.append_assoc] at h
  obtain ⟨htr, he⟩ := List.append_inj' h rfl
  cases he
  exact .inr ⟨post', List.concat_eq_append, htr⟩

variable [DecidableEq β]

/-- The trace respects ownership, and `S` are the blocks it still owns. -/
inductive Ledger : List (MemEvent β) → Finset β → Prop where
  | nil : Ledger [] ∅
  | alloc {tr : List (MemEvent β)} {S : Finset β} {b : β} (h : Ledger tr S)
      (hb : MemEvent.alloc b ∉ tr) : Ledger (tr ++ [.alloc b]) (insert b S)
  | refuse {tr : List (MemEvent β)} {S : Finset β} (h : Ledger tr S) : Ledger (tr ++ [.refuse]) S
  | free {tr : List (MemEvent β)} {S : Finset β} {b : β} (h : Ledger tr S) (hb : b ∈ S) :
      Ledger (tr ++ [.free b]) (S.erase b)
  | use {tr : List (MemEvent β)} {S : Finset β} {b : β} (h : Ledger tr S) (hb : b ∈ S) :
      Ledger (tr ++ [.use b]) S

namespace Ledger

variable {tr : List (MemEvent β)} {S : Finset β}

/-- **Balance**: every grant of a block is matched by a free of it or by its being owned. -/
theorem balance (h : Ledger tr S) (b : β) :
    tr.count (.alloc b) = tr.count (.free b) + if b ∈ S then 1 else 0 := by
  induction h with
  | nil => rfl
  | @alloc tr S c h hc ih =>
    by_cases hbc : b = c
    · subst hbc
      have h0 : tr.count (.alloc b) = 0 := List.count_eq_zero_of_not_mem hc
      have hn : b ∉ S := by
        intro hb
        rw [if_pos hb] at ih
        omega
      rw [if_neg hn] at ih
      simp [List.count_append, ← ih]
    · have hcb : ¬c = b := fun h => hbc h.symm
      simpa [List.count_append, List.count_cons, hbc, hcb] using ih
  | refuse h ih => simpa [List.count_append] using ih
  | @free tr S c h hc ih =>
    by_cases hbc : b = c
    · subst hbc
      rw [if_pos hc] at ih
      simpa [List.count_append] using ih
    · have hcb : ¬c = b := fun h => hbc h.symm
      simpa [List.count_append, List.count_cons, hbc, hcb] using ih
  | use h hc ih => simpa [List.count_append] using ih

/-- No block is granted twice. -/
theorem count_alloc_le (h : Ledger tr S) (b : β) : tr.count (.alloc b) ≤ 1 := by
  induction h with
  | nil => exact Nat.zero_le 1
  | @alloc tr S c h hc ih =>
    by_cases hbc : c = b
    · subst hbc
      simp [List.count_append, List.count_eq_zero_of_not_mem hc]
    · simpa [List.count_append, List.count_cons, hbc] using ih
  | refuse h ih => simpa [List.count_append] using ih
  | free h hc ih => simpa [List.count_append] using ih
  | use h hc ih => simpa [List.count_append] using ih

/-- A freed block is not owned. -/
theorem not_mem_of_freed (h : Ledger tr S) {b : β} (hf : MemEvent.free b ∈ tr) : b ∉ S := by
  intro hb
  have hbal := h.balance b
  have hle := h.count_alloc_le b
  have hpos := List.count_pos_iff.mpr hf
  rw [if_pos hb] at hbal
  omega

/-- Once all blocks are given back, each block granted was freed exactly once. -/
theorem freed_once (h : Ledger tr (∅ : Finset β)) {b : β} (hb : MemEvent.alloc b ∈ tr) :
    tr.count (.free b) = 1 := by
  have hbal := h.balance b
  have hle := h.count_alloc_le b
  have hpos := List.count_pos_iff.mpr hb
  rw [if_neg (Finset.notMem_empty b)] at hbal
  omega

/-- No block is used after it was freed. -/
theorem no_use_after_free (h : Ledger tr S) {b : β} {pre post : List (MemEvent β)}
    (htr : tr = pre ++ .free b :: post) : MemEvent.use b ∉ post := by
  induction h generalizing post with
  | nil => exact absurd htr.symm (by simp)
  | alloc h _ ih | refuse h ih | free h _ ih =>
    rcases snoc_eq_append_cons htr with rfl | ⟨post', rfl, htr'⟩
    · exact List.not_mem_nil
    · rw [List.mem_append, List.mem_singleton, not_or]
      exact ⟨ih htr', fun h => nomatch h⟩
  | @use tr S c h hc ih =>
    rcases snoc_eq_append_cons htr with rfl | ⟨post', rfl, htr'⟩
    · exact List.not_mem_nil
    · have hfreed : MemEvent.free b ∈ tr :=
        htr' ▸ List.mem_append_right pre List.mem_cons_self
      rw [List.mem_append, List.mem_singleton, not_or]
      refine ⟨ih htr', ?_⟩
      rintro ⟨⟩
      exact h.not_mem_of_freed hfreed hc

/-- No null pointer is used. -/
theorem no_null (h : Ledger tr S) : MemEvent.null ∉ tr := by
  induction h with
  | nil => exact List.not_mem_nil
  | alloc h hc ih | refuse h ih | free h hc ih | use h hc ih =>
    rw [List.mem_append, List.mem_singleton, not_or]
    exact ⟨ih, fun h => nomatch h⟩

end Ledger

/-! ## An allocator -/

/-- The number of requests so far, and the trace. -/
structure Heap where
  requests : ℕ
  trace : List (MemEvent ℕ)

namespace Heap

/-- The heap before any request. -/
def empty : Heap := ⟨0, []⟩

/-- Ask for a block; `grant` says which requests are granted. -/
def malloc (grant : ℕ → Bool) (h : Heap) : Option ℕ × Heap :=
  if grant h.requests then
    (some h.requests, ⟨h.requests + 1, h.trace ++ [.alloc h.requests]⟩)
  else (none, ⟨h.requests + 1, h.trace ++ [.refuse]⟩)

/-- Free what the pointer points to, if it is not null. -/
def free (p : Option ℕ) (h : Heap) : Heap :=
  match p with
  | none => h
  | some b => { h with trace := h.trace ++ [.free b] }

/-- Read or write through the pointer. -/
def use (p : Option ℕ) (h : Heap) : Heap :=
  match p with
  | none => { h with trace := h.trace ++ [.null] }
  | some b => { h with trace := h.trace ++ [.use b] }

@[simp] theorem free_requests (p : Option ℕ) (h : Heap) : (h.free p).requests = h.requests := by
  cases p <;> rfl

@[simp] theorem use_requests (p : Option ℕ) (h : Heap) : (h.use p).requests = h.requests := by
  cases p <;> rfl

/-- The trace respects ownership, `S` is owned, and every block has a past request's number. -/
structure Owns (h : Heap) (S : Finset ℕ) : Prop where
  ledger : Ledger h.trace S
  past : ∀ b, MemEvent.alloc b ∈ h.trace → b < h.requests

theorem owns_empty : empty.Owns ∅ := ⟨.nil, fun _ h => nomatch h⟩

variable {h : Heap} {S : Finset ℕ}

theorem Owns.lt_requests (hS : h.Owns S) {b : ℕ} (hb : b ∈ S) : b < h.requests := by
  have hbal := hS.ledger.balance b
  rw [if_pos hb] at hbal
  exact hS.past b (List.count_pos_iff.mp (by omega))

theorem malloc_granted {grant : ℕ → Bool} (hg : grant h.requests = true) :
    h.malloc grant =
      (some h.requests, ⟨h.requests + 1, h.trace ++ [.alloc h.requests]⟩) := if_pos hg

theorem malloc_refused {grant : ℕ → Bool} (hg : grant h.requests = false) :
    h.malloc grant = (none, ⟨h.requests + 1, h.trace ++ [.refuse]⟩) := by
  unfold malloc
  rw [hg, if_neg Bool.false_ne_true]

theorem Owns.granted (hS : h.Owns S) :
    Owns ⟨h.requests + 1, h.trace ++ [.alloc h.requests]⟩ (insert h.requests S) := by
  refine ⟨.alloc hS.ledger fun hm => Nat.lt_irrefl _ (hS.past _ hm), fun b hb => ?_⟩
  rcases List.mem_append.mp hb with hb | hb
  · exact Nat.lt_succ_of_lt (hS.past b hb)
  · cases List.mem_singleton.mp hb
    exact Nat.lt_succ_self _

theorem Owns.refused (hS : h.Owns S) : Owns ⟨h.requests + 1, h.trace ++ [.refuse]⟩ S := by
  refine ⟨.refuse hS.ledger, fun b hb => ?_⟩
  rcases List.mem_append.mp hb with hb | hb
  · exact Nat.lt_succ_of_lt (hS.past b hb)
  · exact nomatch List.mem_singleton.mp hb

theorem Owns.free (hS : h.Owns S) {b : ℕ} (hb : b ∈ S) : (h.free (some b)).Owns (S.erase b) := by
  refine ⟨.free hS.ledger hb, fun c hc => ?_⟩
  rcases List.mem_append.mp hc with hc | hc
  · exact hS.past c hc
  · exact nomatch List.mem_singleton.mp hc

theorem Owns.use (hS : h.Owns S) {b : ℕ} (hb : b ∈ S) : (h.use (some b)).Owns S := by
  refine ⟨.use hS.ledger hb, fun c hc => ?_⟩
  rcases List.mem_append.mp hc with hc | hc
  · exact hS.past c hc
  · exact nomatch List.mem_singleton.mp hc

/-! ## Calls of the allocator -/

/-- The requests and frees of the trace, granted or not, without the uses. -/
def calls (h : Heap) : List (MemEvent ℕ) :=
  h.trace.filter fun
    | .alloc _ | .refuse | .free _ => true
    | .use _ | .null => false

@[simp] theorem calls_use (p : Option ℕ) (h : Heap) : (h.use p).calls = h.calls := by
  cases p <;> simp [use, calls]

theorem calls_free_length (p : Option ℕ) (h : Heap) : h.calls.length ≤ (h.free p).calls.length := by
  cases p with
  | none => exact Nat.le_refl _
  | some b => simp [free, calls]

theorem calls_malloc_length (grant : ℕ → Bool) (h : Heap) :
    (h.malloc grant).2.calls.length = h.calls.length + 1 := by
  unfold malloc
  split_ifs <;> simp [calls]

end Heap

end ZramUpgrade.Lib
