import ZramUpgrade.Lib.Bucket
import ZramUpgrade.Lib.Loop

/-!
# Zstd.Hist — `HIST_countFast_wksp`

The symbols are counted in one table, or with many of them in four tables by turns, which are added up
at the end.  Either way the counts are those of the symbols, and the last symbol is the last that
occurs (`histCountFast_spec`).
-/

namespace ZramUpgrade.Zstd

open Lib

/-- The counts, `*maxSymbolValuePtr` and the largest count. -/
structure Histogram where
  count : ℕ → ℕ
  maxSymbolValue : ℕ
  largest : ℕ

/-- `while (!count[maxSymbolValue]) maxSymbolValue--;`, down to 0. -/
def lastCounted (count : ℕ → ℕ) : ℕ → ℕ
  | 0 => 0
  | s + 1 => if count (s + 1) = 0 then lastCounted count s else s + 1

/-- The largest of the counts of `n` symbols. -/
def largestCount (count : ℕ → ℕ) (n : ℕ) : ℕ :=
  (List.range n).foldl (fun largest s => if largest < count s then count s else largest) 0

/-- `HIST_count_simple`, over what `count` held. -/
def histCountSimple (count : ℕ → ℕ) (maxSymbolValue : ℕ) (src : ℕ → ℕ) (srcSize : ℕ) : Histogram :=
  let count := fun s => if s ≤ maxSymbolValue then 0 else count s
  if srcSize = 0 then ⟨count, 0, 0⟩
  else
    let count := (List.range srcSize).foldl
      (fun count i => Function.update count (src i) (count (src i) + 1)) count
    let maxSymbolValue := lastCounted count maxSymbolValue
    ⟨count, maxSymbolValue, largestCount count (maxSymbolValue + 1)⟩

/-- `Counting1` to `Counting4`. -/
def bumpCounting (counting : ℕ → ℕ → ℕ) (j s : ℕ) : ℕ → ℕ → ℕ :=
  Function.update counting j (Function.update (counting j) s (counting j s + 1))

/-- A stripe of 16 bytes. -/
def countStripe (src : ℕ → ℕ) (p : ℕ) (counting : ℕ → ℕ → ℕ) : ℕ → ℕ → ℕ :=
  (List.range 16).foldl (fun counting i => bumpCounting counting (i % 4) (src (p + i))) counting

/-- `while (ip < iend-15)`, where `ip` is the four cached bytes ahead of `p`. -/
def countStripes (src : ℕ → ℕ) (srcSize : ℕ) : ℕ → ℕ → (ℕ → ℕ → ℕ) → ℕ × (ℕ → ℕ → ℕ)
  | 0, p, counting => (p, counting)
  | fuel + 1, p, counting =>
    if p + 4 < srcSize - 15 then countStripes src srcSize fuel (p + 16) (countStripe src p counting)
    else (p, counting)

/-- `HIST_count_parallel_wksp`, which trusts its input. -/
def histCountParallel (count : ℕ → ℕ) (maxSymbolValue : ℕ) (src : ℕ → ℕ) (srcSize : ℕ) : Histogram :=
  if srcSize = 0 then ⟨fun s => if s ≤ maxSymbolValue then 0 else count s, 0, 0⟩
  else
    let (p, counting) := countStripes src srcSize srcSize 0 fun _ _ => 0
    -- last symbols
    let counting := (List.range (srcSize - p)).foldl
      (fun counting i => bumpCounting counting 0 (src (p + i))) counting
    let counting1 := fun s => counting 0 s + counting 1 s + counting 2 s + counting 3 s
    ⟨fun s => if s ≤ maxSymbolValue then counting1 s else count s, lastCounted counting1 255,
      largestCount counting1 256⟩

/-- `HIST_countFast_wksp`; its callers assert `HUF_WORKSPACE_SIZE`, more than the `HIST_WKSP_SIZE` it
asks for. -/
def histCountFast (count : ℕ → ℕ) (maxSymbolValue : ℕ) (src : ℕ → ℕ) (srcSize : ℕ) : Histogram :=
  if srcSize < 1500 then histCountSimple count maxSymbolValue src srcSize
  else histCountParallel count maxSymbolValue src srcSize

/-! ## The counts -/

variable {count src : ℕ → ℕ} {maxSymbolValue srcSize n p s : ℕ} {counting : ℕ → ℕ → ℕ}

theorem lastCounted_spec (count : ℕ → ℕ) (m : ℕ) :
    lastCounted count m ≤ m ∧ (∀ s ≤ m, count s ≠ 0 → s ≤ lastCounted count m) ∧
      ((∃ s ≤ m, count s ≠ 0) → count (lastCounted count m) ≠ 0) := by
  induction m with
  | zero =>
    refine ⟨le_rfl, fun s hs _ => hs, ?_⟩
    rintro ⟨s, hs, hne⟩
    obtain rfl := Nat.le_zero.mp hs
    exact hne
  | succ m ih =>
    obtain ⟨hle, hall, hlast⟩ := ih
    rw [lastCounted]
    split_ifs with h0
    · refine ⟨by omega, fun s hs hne => ?_, ?_⟩
      · rcases Nat.le_succ_iff.mp hs with hs | rfl
        · exact hall s hs hne
        · exact absurd h0 hne
      · rintro ⟨s, hs, hne⟩
        refine hlast ⟨s, ?_, hne⟩
        rcases Nat.le_succ_iff.mp hs with hs | rfl
        · exact hs
        · exact absurd h0 hne
    · exact ⟨le_rfl, fun s hs _ => hs, fun _ => h0⟩

theorem largestCount_spec (count : ℕ → ℕ) (n : ℕ) :
    (∀ s < n, count s ≤ largestCount count n) ∧
      (largestCount count n = 0 ∨ ∃ s < n, count s = largestCount count n) := by
  refine foldl_range (I := fun k largest => (∀ s < k, count s ≤ largest) ∧
    (largest = 0 ∨ ∃ s < k, count s = largest)) ⟨fun s hs => absurd hs (Nat.not_lt_zero s), .inl rfl⟩ ?_
  rintro k - largest ⟨hle, hof⟩
  split_ifs with hlt
  · refine ⟨fun s hs => ?_, .inr ⟨k, Nat.lt_succ_self k, rfl⟩⟩
    rcases Nat.lt_succ_iff_lt_or_eq.mp hs with hs | rfl
    · exact (hle s hs).trans hlt.le
    · exact le_rfl
  · refine ⟨fun s hs => ?_, hof.imp_right fun ⟨s, hs, heq⟩ => ⟨s, by omega, heq⟩⟩
    rcases Nat.lt_succ_iff_lt_or_eq.mp hs with hs | rfl
    · exact hle s hs
    · exact not_lt.mp hlt

/-- What the four tables count together. -/
def counted (counting : ℕ → ℕ → ℕ) (s : ℕ) : ℕ :=
  counting 0 s + counting 1 s + counting 2 s + counting 3 s

theorem counted_bump {j k : ℕ} (hj : j < 4) :
    counted (bumpCounting counting j k) s = counted counting s + if k = s then 1 else 0 := by
  unfold counted bumpCounting
  rcases eq_or_ne k s with rfl | hne
  · rw [if_pos rfl]
    interval_cases j <;> simp [Function.update_of_ne] <;> omega
  · rw [if_neg hne]
    have hsame : ∀ i, Function.update counting j (Function.update (counting j) k (counting j k + 1)) i s =
        counting i s := fun i => by
      rcases eq_or_ne i j with rfl | hij
      · rw [Function.update_self, Function.update_of_ne hne.symm]
      · rw [Function.update_of_ne hij]
    rw [hsame, hsame, hsame, hsame, Nat.add_zero]

/-- Symbols counted one after the other, each in any of the tables. -/
theorem counted_run (table : ℕ → ℕ) (htable : ∀ i, table i < 4)
    (h : ∀ s, counted counting s = total src s p) (k : ℕ) (s : ℕ) :
    counted ((List.range k).foldl (fun counting i => bumpCounting counting (table i) (src (p + i)))
      counting) s = total src s (p + k) := by
  refine foldl_range (I := fun k counting => ∀ s, counted counting s = total src s (p + k)) h ?_ s
  intro i _ counting hI s
  rw [counted_bump (htable i), hI s, ← Nat.add_assoc, total_succ]

theorem countStripes_spec : ∀ (fuel : ℕ) {p : ℕ} {counting : ℕ → ℕ → ℕ}, p ≤ srcSize →
    (∀ s, counted counting s = total src s p) →
      (countStripes src srcSize fuel p counting).1 ≤ srcSize ∧
        ∀ s, counted (countStripes src srcSize fuel p counting).2 s =
          total src s (countStripes src srcSize fuel p counting).1
  | 0, _, _, hp, h => ⟨hp, h⟩
  | fuel + 1, p, counting, hp, h => by
    rw [countStripes]
    split_ifs with hmore
    · exact countStripes_spec fuel (by omega) (counted_run _ (fun i => Nat.mod_lt i (by decide)) h 16)
    · exact ⟨hp, h⟩

/-- The counts of `n` symbols up to `maxSymbolValue`. -/
structure Histogram.Of (src : ℕ → ℕ) (n maxSymbolValue : ℕ) (h : Histogram) : Prop where
  count : ∀ s ≤ maxSymbolValue, h.count s = total src s n
  symbol_le : h.maxSymbolValue ≤ maxSymbolValue
  below : ∀ u < n, src u ≤ h.maxSymbolValue
  last : total src h.maxSymbolValue n ≠ 0
  largest : (∀ s, total src s n ≤ h.largest) ∧ ∃ s ≤ h.maxSymbolValue, total src s n = h.largest

/-- Counts whose last symbol and largest count are looked for up to `m`. -/
theorem Histogram.of_counts {m k : ℕ} (hn : 0 < n) (hsrc : ∀ u < n, src u ≤ maxSymbolValue)
    (hm : maxSymbolValue ≤ m) (hcount : ∀ s ≤ m, count s = total src s n)
    (hk : lastCounted count m < k) (hkm : k ≤ m + 1) {counts : ℕ → ℕ}
    (hcounts : ∀ s ≤ maxSymbolValue, counts s = count s) :
    Histogram.Of src n maxSymbolValue ⟨counts, lastCounted count m, largestCount count k⟩ := by
  obtain ⟨-, hall, hlast⟩ := lastCounted_spec count m
  obtain ⟨hle, hof⟩ := largestCount_spec count k
  have hpos : ∀ u < n, count (src u) ≠ 0 := fun u hu => by
    rw [hcount _ ((hsrc u hu).trans hm)]
    exact (total_pos.mpr ⟨u, hu, rfl⟩).ne'
  have hbelow : ∀ u < n, src u ≤ lastCounted count m := fun u hu =>
    hall _ ((hsrc u hu).trans hm) (hpos u hu)
  have hoccurs := hlast ⟨src 0, (hsrc 0 hn).trans hm, hpos 0 hn⟩
  rw [hcount _ (by omega)] at hoccurs
  obtain ⟨u, hu, hlastu⟩ := total_pos.mp (Nat.pos_of_ne_zero hoccurs)
  have hnone : ∀ s, lastCounted count m < s → total src s n = 0 := fun s hs => by
    by_contra h0
    obtain ⟨u, hu, rfl⟩ := total_pos.mp (Nat.pos_of_ne_zero h0)
    exact absurd (hbelow u hu) (by omega)
  refine ⟨fun s hs => (hcounts s hs).trans (hcount s (hs.trans hm)), hlastu ▸ hsrc u hu, hbelow, hoccurs,
    fun s => ?_, ?_⟩
  · dsimp only
    rcases Nat.lt_or_ge (lastCounted count m) s with hs | hs
    · rw [hnone s hs]
      exact Nat.zero_le _
    · rw [← hcount s (by omega)]
      exact hle s (by omega)
  · dsimp only
    rcases hof with h0 | ⟨s, hs, heq⟩
    · have := hle (src 0) (by have := hbelow 0 hn; omega)
      exact absurd (Nat.le_zero.mp (h0 ▸ this)) (hpos 0 hn)
    · rw [hcount s (by omega)] at heq
      refine ⟨s, ?_, heq⟩
      by_contra hgt
      have h0 := hle (src 0) (by have := hbelow 0 hn; omega)
      rw [← heq, hnone s (by omega)] at h0
      exact absurd (Nat.le_zero.mp h0) (hpos 0 hn)

/-- **Either way** the symbols are counted. -/
theorem histCountFast_spec (count : ℕ → ℕ) (hn : 0 < srcSize) (hmax : maxSymbolValue ≤ 255)
    (hsrc : ∀ u < srcSize, src u ≤ maxSymbolValue) :
    Histogram.Of src srcSize maxSymbolValue (histCountFast count maxSymbolValue src srcSize) := by
  unfold histCountFast
  split_ifs
  · unfold histCountSimple
    rw [if_neg hn.ne']
    refine Histogram.of_counts hn hsrc le_rfl (fun s hs => ?_) (Nat.lt_succ_self _)
      (Nat.succ_le_succ (lastCounted_spec _ _).1) fun s _ => rfl
    refine foldl_range (I := fun k (c : ℕ → ℕ) => ∀ s ≤ maxSymbolValue, c s = total src s k)
      (n := srcSize)
      (fun s hs => if_pos hs) (fun k _ c hI s hs => ?_) s hs
    rw [total_succ]
    rcases eq_or_ne s (src k) with rfl | hne
    · rw [Function.update_self, if_pos rfl, hI _ hs]
    · rw [Function.update_of_ne hne, if_neg hne.symm, hI s hs, Nat.add_zero]
  · unfold histCountParallel
    rw [if_neg hn.ne']
    have hnone : ∀ s, counted (fun _ _ => 0) s = total src s 0 := fun s => rfl
    obtain ⟨hp, hcounted⟩ := countStripes_spec srcSize (Nat.zero_le srcSize) hnone
    generalize countStripes src srcSize srcSize 0 (fun _ _ => 0) = st at *
    obtain ⟨p, counting⟩ := st
    have hrest := counted_run (fun _ => 0) (fun _ => by decide) hcounted (srcSize - p)
    dsimp only at hrest hp ⊢
    rw [show p + (srcSize - p) = srcSize by omega] at hrest
    exact Histogram.of_counts hn hsrc hmax (fun s _ => hrest s)
      (Nat.lt_succ_of_le (lastCounted_spec _ _).1) le_rfl fun s hs => if_pos hs

end ZramUpgrade.Zstd
