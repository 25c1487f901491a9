import Mathlib.Tactic

/-!
# Lib.Bucket — tables filled cell by cell, and the rank of a cell among those of its key

`writeAll t ws` writes a list of cells; distinct cells keep what was written (`writeAll_mem`), and a
list that has every cell of `0 .. n - 1` once fills the table with its values (`map_writeAll_perm`).
`rank key u` counts the cells before `u` with the key of `u`; `deal` goes through the cells with one
counter a key, and hands cell `u` the number `start (key u) + rank key u` (`deal_eq`).
-/

namespace ZramUpgrade.Lib

section WriteAll

variable {ι β : Type*} [DecidableEq ι]

/-- Write the cells in order. -/
def writeAll (t : ι → β) (ws : List (ι × β)) : ι → β :=
  ws.foldl (fun t w => Function.update t w.1 w.2) t

theorem writeAll_append (t : ι → β) (ws vs : List (ι × β)) :
    writeAll t (ws ++ vs) = writeAll (writeAll t ws) vs := List.foldl_append

theorem writeAll_not_mem {ws : List (ι × β)} {i : ι} (h : i ∉ ws.map Prod.fst) (t : ι → β) :
    writeAll t ws i = t i := by
  induction ws generalizing t with
  | nil => rfl
  | cons w ws ih =>
    rw [List.map_cons, List.mem_cons, not_or] at h
    rw [writeAll, List.foldl_cons, ← writeAll, ih h.2, Function.update_of_ne h.1]

/-- A cell that is written once keeps its value. -/
theorem writeAll_mem {ws : List (ι × β)} (hnodup : (ws.map Prod.fst).Nodup) {i : ι} {v : β}
    (h : (i, v) ∈ ws) (t : ι → β) : writeAll t ws i = v := by
  induction ws generalizing t with
  | nil => cases h
  | cons w ws ih =>
    rw [List.map_cons, List.nodup_cons] at hnodup
    rw [writeAll, List.foldl_cons, ← writeAll]
    rcases List.mem_cons.mp h with rfl | h
    · rw [writeAll_not_mem hnodup.1, Function.update_self]
    · exact ih hnodup.2 h _

/-- What the cells hold is what was written. -/
theorem map_writeAll {ws : List (ι × β)} (hnodup : (ws.map Prod.fst).Nodup) (t : ι → β) :
    (ws.map Prod.fst).map (writeAll t ws) = ws.map Prod.snd := by
  rw [List.map_map]
  exact List.map_congr_left fun w hw => writeAll_mem hnodup (by exact hw) t

theorem map_writeAll_perm {n : ℕ} {ws : List (ℕ × β)} (h : (ws.map Prod.fst).Perm (List.range n))
    (t : ℕ → β) : ((List.range n).map (writeAll t ws)).Perm (ws.map Prod.snd) := by
  rw [← map_writeAll (h.nodup_iff.mpr List.nodup_range) t]
  exact (h.map _).symm

/-- A table all of whose cells are written does not depend on what it held. -/
theorem writeAll_eq {n : ℕ} {ws : List (ℕ × β)} (h : (ws.map Prod.fst).Perm (List.range n))
    (t t' : ℕ → β) {u : ℕ} (hu : u < n) : writeAll t ws u = writeAll t' ws u := by
  have hnodup := h.nodup_iff.mpr List.nodup_range
  obtain ⟨w, hw, rfl⟩ := List.mem_map.mp (h.mem_iff.mpr (List.mem_range.mpr hu))
  rw [writeAll_mem hnodup (by exact hw), writeAll_mem hnodup (by exact hw)]

end WriteAll

section Rank

variable {κ : Type*} [DecidableEq κ] (key : ℕ → κ)

/-- The cells below `n` with this key. -/
def total (k : κ) (n : ℕ) : ℕ := ((List.range n).map key).count k

/-- The cells before `u` with the key of `u`. -/
def rank (u : ℕ) : ℕ := total key (key u) u

variable {key}

theorem total_succ (key : ℕ → κ) (k : κ) (n : ℕ) : total key k (n + 1) = total key k n + if key n = k then 1 else 0 := by
  rw [total, List.range_succ, List.map_append, List.count_append, List.map_singleton, List.count_singleton]
  simp only [beq_iff_eq, total]

theorem total_congr {key' : ℕ → κ} {n : ℕ} (h : ∀ u < n, key u = key' u) (k : κ) :
    total key k n = total key' k n := by
  rw [total, List.map_congr_left fun u hu => h u (List.mem_range.mp hu), total]

theorem rank_congr {key' : ℕ → κ} {n u : ℕ} (h : ∀ u < n, key u = key' u) (hu : u < n) :
    rank key u = rank key' u := by
  rw [rank, rank, h u hu, total_congr fun v hv => h v (by omega)]

theorem total_mono (key : ℕ → κ) (k : κ) {m n : ℕ} (h : m ≤ n) : total key k m ≤ total key k n := by
  induction n, h using Nat.le_induction with
  | base => exact le_rfl
  | succ n _ ih =>
    rw [total_succ]
    omega

theorem total_le (key : ℕ → κ) (k : κ) (n : ℕ) : total key k n ≤ n := by
  unfold total
  refine List.count_le_length.trans ?_
  rw [List.length_map, List.length_range]

theorem total_pos {k : κ} {n : ℕ} : 0 < total key k n ↔ ∃ u < n, key u = k := by
  rw [total, List.count_pos_iff, List.mem_map]
  exact exists_congr fun u => by rw [List.mem_range]

/-- All the cells have one key. -/
theorem total_eq_iff {k : κ} {n : ℕ} : total key k n = n ↔ ∀ u < n, key u = k := by
  induction n with
  | zero => exact ⟨fun _ u hu => absurd hu (Nat.not_lt_zero u), fun _ => rfl⟩
  | succ n ih =>
    have hle := total_le key k n
    rw [total_succ]
    constructor
    · intro h u hu
      have hn : key n = k := by
        by_contra hne
        rw [if_neg hne] at h
        omega
      rw [if_pos hn] at h
      rcases Nat.lt_succ_iff_lt_or_eq.mp hu with hlt | rfl
      · exact ih.mp (by omega) u hlt
      · exact hn
    · intro h
      rw [if_pos (h n (Nat.lt_succ_self n)), ih.mpr fun u hu => h u (by omega)]

/-- Every cell has a key. -/
theorem sum_total (key : ℕ → ℕ) {m n : ℕ} (h : ∀ u < n, key u < m) :
    ∑ k ∈ Finset.range m, total key k n = n := by
  induction n with
  | zero => exact Finset.sum_eq_zero fun k _ => rfl
  | succ n ih =>
    simp only [total_succ]
    rw [Finset.sum_add_distrib, ih fun u hu => h u (by omega), Finset.sum_ite_eq,
      if_pos (Finset.mem_range.mpr (h n (Nat.lt_succ_self n)))]

theorem rank_lt (key : ℕ → κ) {u n : ℕ} (h : u < n) : rank key u < total key (key u) n := by
  have hsucc := total_succ key (key u) u
  rw [if_pos rfl] at hsucc
  have := total_mono key (key u) (by omega : u + 1 ≤ n)
  unfold rank
  omega

/-- Cells of one key have different ranks. -/
theorem rank_inj {u v : ℕ} (hkey : key u = key v) (hrank : rank key u = rank key v) : u = v := by
  by_contra hne
  rcases Nat.lt_or_gt_of_ne hne with hlt | hlt
  · have := rank_lt key hlt
    rw [hkey] at this
    exact absurd hrank this.ne
  · have := rank_lt key hlt
    rw [← hkey] at this
    exact absurd hrank this.ne'

/-- Every rank below the total is taken. -/
theorem exists_rank (key : ℕ → κ) {k : κ} {n r : ℕ} (h : r < total key k n) : ∃ u < n, key u = k ∧ rank key u = r := by
  induction n with
  | zero => exact absurd h (Nat.not_lt_zero _)
  | succ n ih =>
    rw [total_succ] at h
    by_cases hr : r < total key k n
    · obtain ⟨u, hu, hk, hrank⟩ := ih hr
      exact ⟨u, by omega, hk, hrank⟩
    · split_ifs at h with hkey
      · refine ⟨n, Nat.lt_succ_self n, hkey, ?_⟩
        rw [rank, hkey]
        omega
      · omega

end Rank

section Deal

variable {κ σ : Type*} [DecidableEq κ]

/-- Go through the cells below `n`; cell `u` gets the next number of its key. -/
def deal (key : ℕ → κ) (emit : σ → ℕ → ℕ → σ) (start : κ → ℕ) (init : σ) (n : ℕ) : (κ → ℕ) × σ :=
  (List.range n).foldl
    (fun st u => (Function.update st.1 (key u) (st.1 (key u) + 1), emit st.2 u (st.1 (key u))))
    (start, init)

/-- **Dealing**: the number of cell `u` is its rank from the start of its key. -/
theorem deal_eq (key : ℕ → κ) (emit : σ → ℕ → ℕ → σ) (start : κ → ℕ) (init : σ) (n : ℕ) :
    deal key emit start init n = (fun k => start k + total key k n,
      (List.range n).foldl (fun s u => emit s u (start (key u) + rank key u)) init) := by
  induction n with
  | zero => rfl
  | succ n ih =>
    have hstep : deal key emit start init (n + 1) =
        (Function.update (deal key emit start init n).1 (key n)
            ((deal key emit start init n).1 (key n) + 1),
          emit (deal key emit start init n).2 n ((deal key emit start init n).1 (key n))) := by
      rw [deal, List.range_succ, List.foldl_append, ← deal]
      rfl
    rw [hstep, ih]
    refine Prod.ext (funext fun k => ?_) ?_
    · dsimp only
      rw [total_succ]
      by_cases hk : k = key n
      · rw [hk, Function.update_self, if_pos rfl, Nat.add_assoc]
      · rw [Function.update_of_ne hk, if_neg (Ne.symm hk), Nat.add_zero]
    · rw [List.range_succ, List.foldl_append]
      rfl

/-- Dealing into a table: cell `u` writes one place of it. -/
theorem deal_writeAll {ι β : Type*} [DecidableEq ι] (key : ℕ → κ) (place : ℕ → ℕ → ι) (value : ℕ → ℕ → β)
    (start : κ → ℕ) (init : ι → β) (n : ℕ) :
    (deal key (fun t u next => Function.update t (place u next) (value u next)) start init n).2 =
      writeAll init ((List.range n).map fun u =>
        (place u (start (key u) + rank key u), value u (start (key u) + rank key u))) := by
  rw [deal_eq, writeAll, List.foldl_map]

end Deal

end ZramUpgrade.Lib
