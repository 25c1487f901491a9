import ZramUpgrade.Zram.Apply

/-!
# Zram.Switch — what a switch of the algorithm leaves behind

Sequences of `apply` runs in which any step of any run may fail, and the single run in which every
step on zram0 succeeds.  Three laws a switch should keep, each with the condition under which the
script keeps it: zram0 swaps again, zram0 keeps its size, zram0 is served by the new driver.
-/

namespace ZramUpgrade.Zram

open Lib

/-- One `apply lz4` or `apply zstd`. -/
def applyRun (r : Algo × Outcomes) (k : Kernel) : Exit Kernel := apply (.algo r.1) r.2 k

/-- A run with a zram0 to work on keeps or rebuilds it. -/
theorem applyRun_cases (r : Algo × Outcomes) {k : Kernel} (hready : k.zram0.ready = true) :
    (LooksServed k r.1 ∧ applyRun r k = ⟨true, (ensureDriver r.1 r.2 k).state⟩) ∨
      (¬LooksServed k r.1 ∧ applyRun r k = reconfigure r.1 r.2 (ensureDriver r.1 r.2 k).state) := by
  unfold applyRun
  rw [apply_algo r.1 r.2 hready]
  by_cases h : LooksServed k r.1
  · exact .inl ⟨h, if_pos h⟩
  · exact .inr ⟨h, if_neg h⟩

/-! ## zram0 swaps again -/

/-- zram0 is in `/proc/swaps` and the name in the brackets is `a`. -/
def SwapsWith (a : Algo) (k : Kernel) : Prop :=
  k.zram0.compAlgo = .of a ∧ k.zram0.swapOn = true

/-- zram0 is out of use, yet the test of `apply` takes it for done. -/
def Stranded (a : Algo) (k : Kernel) : Prop := k.zram0.swapOn = false ∧ LooksServed k a

theorem applyRun_ready {r : Algo × Outcomes} {k : Kernel} (hready : k.zram0.ready = true) :
    (applyRun r k).state.zram0.ready = true := by
  have hsame := ensureDriver_sameUsers r.1 r.2 k
  have hready₁ : (ensureDriver r.1 r.2 k).state.zram0.ready = true := by rw [hsame.zram0, hready]
  rcases applyRun_cases r hready with ⟨-, he⟩ | ⟨-, he⟩
  · rw [he]
    exact hready₁
  · rw [he]
    refine Exit.Post.state (I := fun k => k.zram0.ready = true)
      ((reconfigure_post r.1 r.2 hready₁).mono ?_ ?_)
    · rintro k' ⟨-, h⟩
      rw [h.zram0]
      rfl
    · rintro k' ⟨-, ⟨-, rfl⟩ | ⟨-, h⟩⟩
      · exact hready₁
      · exact h.ready

/-- A run whose steps on zram0 all succeed exits 0. -/
theorem applyRun_ok {r : Algo × Outcomes} {k : Kernel} (hready : k.zram0.ready = true)
    (ho : r.2.StepsSucceed) : (applyRun r k).ok = true := by
  have hsame := ensureDriver_sameUsers r.1 r.2 k
  rcases applyRun_cases r hready with ⟨-, he⟩ | ⟨-, he⟩
  · rw [he]
  · rw [he]
    by_contra hf
    have hpost := reconfigure_post r.1 r.2 (k := (ensureDriver r.1 r.2 k).state)
      (by rw [hsame.zram0, hready])
    exact (hpost.2 (Bool.eq_false_of_not_eq_true hf)).1 ho

/-- Exit 0 means that zram0 swaps under the name asked for, and a run whose steps all succeed
brings the swap back. -/
def EndsSwapping (k : Kernel) (r : Algo × Outcomes) : Prop :=
  ((applyRun r k).ok = true → SwapsWith r.1 (applyRun r k).state) ∧
    (r.2.StepsSucceed → (applyRun r k).state.zram0.swapOn = true)

/-- One run ends swapping unless it starts stranded. -/
theorem endsSwapping_iff (r : Algo × Outcomes) {k : Kernel} (hready : k.zram0.ready = true) :
    EndsSwapping k r ↔ ¬Stranded r.1 k := by
  have hsame := ensureDriver_sameUsers r.1 r.2 k
  have hexit : EndsSwapping k r ↔
      ((applyRun r k).ok = true → SwapsWith r.1 (applyRun r k).state) :=
    and_iff_left_of_imp fun h ho => (h (applyRun_ok hready ho)).2
  rw [hexit]
  rcases applyRun_cases r hready with ⟨hl, he⟩ | ⟨hl, he⟩
  · rw [he]
    unfold SwapsWith Stranded
    rw [hsame.zram0]
    cases hon : k.zram0.swapOn with
    | false => simp [hl]
    | true => simp [(looksServed_iff.mp hl).1]
  · rw [he]
    refine iff_of_true (fun hok => ?_) fun h => hl h.2
    obtain ⟨-, h⟩ := (reconfigure_post r.1 r.2 (by rw [hsame.zram0, hready])).1 hok
    unfold SwapsWith
    rw [h.zram0]
    exact ⟨rfl, rfl⟩

/-- **Swap after apply**: over any sequence of runs, each run ends swapping exactly if no run
starts with zram0 out of use, its name equal to the one asked for and the new driver of that name
in use. -/
theorem apply_leaves_swap_iff (k : Kernel) (hready : k.zram0.ready = true)
    (rs : List (Algo × Outcomes)) :
    EachRun applyRun EndsSwapping k rs ↔ EachRun applyRun (fun k r => ¬Stranded r.1 k) k rs :=
  EachRun.iff_of_invariant (I := fun k => k.zram0.ready = true) (fun _ _ => applyRun_ready)
    (fun _ r h => endsSwapping_iff r h) hready

/-- A world in which every step succeeds; the kernel's default name is not one of ours. -/
def smooth : Outcomes where
  modules := ⟨fun _ => true, fun _ => true⟩
  swapoff := fun _ => true
  sizeRead := true
  reset := true
  afterReset := .other
  compAlgorithm := true
  disksize := true
  mkswap := true
  swapon := true

/-- The kernel after a list of events from boot with one CPU, if they are all accepted. -/
def phone (es : List Event) : Kernel :=
  (runAll Kernel.step (Kernel.boot 1 Nat.one_pos) es).getD (Kernel.boot 1 Nat.one_pos)

theorem phone_reachable {es : List Event}
    (h : runAll Kernel.step (Kernel.boot 1 Nat.one_pos) es = some (phone es)) :
    (phone es).Reachable :=
  Kernel.reachable_of_runAll Nat.one_pos h

/-- zram0 of 64 KiB in use as swap through the built-in lz4, both modules in. -/
def swapping : List Event :=
  [.create (.of .lz4), .disksize 65536, .mkswap, .swapon, .insmod .lz4, .insmod .zstd]

/-- Two runs that fail, at `mkswap` and at `comp_algorithm`, and leave another name than the next run
asks for. -/
theorem apply_leaves_swap_failures :
    EachRun applyRun EndsSwapping (phone swapping)
      [(.zstd, { smooth with mkswap := false }), (.lz4, { smooth with compAlgorithm := false }),
        (.lz4, smooth)] :=
  (apply_leaves_swap_iff (phone swapping) rfl _).mpr
    ⟨(fun h => nomatch h.1), (fun h => nomatch h.2.1), (fun h => nomatch h.2.1), trivial⟩

/-- A run that loses only its `mkswap`, then the remedy of the README with every step in order: it
exits 0 and zram0 is not in use. -/
theorem apply_leaves_no_swap :
    ¬∀ k : Kernel, k.Reachable → k.zram0.ready = true → k.zram0.swapOn = true →
      ∀ rs : List (Algo × Outcomes), EachRun applyRun EndsSwapping k rs := by
  intro h
  have hrun := h (phone swapping) (phone_reachable rfl) rfl rfl
    [(.lz4, { smooth with mkswap := false }), (.lz4, smooth)]
  have hswap : (applyRun (.lz4, smooth)
      (applyRun (.lz4, { smooth with mkswap := false }) (phone swapping)).state).state.zram0.swapOn =
      false := rfl
  have hon := (hrun.2.1.1 rfl).2
  rw [hswap] at hon
  exact nomatch hon

/-! ## zram0 keeps its size -/

/-- The run gets as far as reading the size and finds nothing or 0. -/
def LosesSize (r : Algo × Outcomes) (k : Kernel) : Prop :=
  ¬LooksServed k r.1 ∧ ¬SwapoffLost r.2 k ∧ (r.2.sizeRead = false ∨ k.zram0.disksize = 0)

/-- zram0 has `D` bytes, or none and is out of use. -/
structure SizedOrOff (D : ℕ) (k : Kernel) : Prop where
  ready : k.zram0.ready = true
  size : k.zram0.disksize = D ∨ k.zram0.disksize = 0 ∧ k.zram0.swapOn = false

theorem swapoffLost_congr {o : Outcomes} {k k' : Kernel} (h : k'.zram0 = k.zram0) :
    SwapoffLost o k' ↔ SwapoffLost o k := by
  unfold SwapoffLost
  rw [h]

theorem origSize_congr {o : Outcomes} {k k' : Kernel} (h : k'.zram0 = k.zram0) :
    origSize o k' = origSize o k := by
  unfold origSize
  rw [h]

theorem applyRun_sized {D : ℕ} (hD : 0 < D) {r : Algo × Outcomes} {k : Kernel}
    (hk : SizedOrOff D k) (hr : D = DEFAULT_SIZE ∨ ¬LosesSize r k) :
    SizedOrOff D (applyRun r k).state := by
  have hsame := ensureDriver_sameUsers r.1 r.2 k
  have hk₁ : SizedOrOff D (ensureDriver r.1 r.2 k).state := by
    refine ⟨?_, ?_⟩ <;> rw [hsame.zram0]
    · exact hk.ready
    · exact hk.size
  rcases applyRun_cases r hk.ready with ⟨-, he⟩ | ⟨hl, he⟩
  · rw [he]
    exact hk₁
  rw [he]
  have hsize : ¬SwapoffLost r.2 k → origSize r.2 (ensureDriver r.1 r.2 k).state = D := by
    intro hlost
    rw [origSize_congr hsame.zram0]
    unfold origSize
    rcases hr with rfl | hr
    · rcases hk.size with hd | ⟨hd, -⟩
      · rw [hd, ite_self]
      · rw [if_pos (.inr hd)]
    · have hread : ¬(r.2.sizeRead = false ∨ k.zram0.disksize = 0) := fun h => hr ⟨hl, hlost, h⟩
      rw [if_neg hread]
      exact hk.size.resolve_right fun h => hread (.inr h.1)
  have hlost := swapoffLost_congr (o := r.2) hsame.zram0
  refine Exit.Post.state ((reconfigure_post r.1 r.2 hk₁.ready).mono ?_ ?_)
  · rintro k' ⟨hn, h⟩
    rw [hsize (hlost.not.mp hn)] at h
    refine ⟨?_, .inl ?_⟩ <;> rw [h.zram0]
    · rfl
    · rfl
  · rintro k' ⟨-, ⟨-, rfl⟩ | ⟨hn, h⟩⟩
    · exact hk₁
    · refine ⟨h.ready, ?_⟩
      rcases h.disksize with hd | hd | hd
      · rw [hd]
        exact hk₁.size.imp_right fun h' => ⟨h'.1, h.swapOn⟩
      · exact .inr ⟨hd, h.swapOn⟩
      · exact .inl (hd.trans (hsize (hlost.not.mp hn)))

/-- A run that loses the size and then succeeds in every step leaves zram0 in use with 16 GiB. -/
theorem applyRun_losesSize {r : Algo × Outcomes} {k : Kernel} (hready : k.zram0.ready = true)
    (hl : LosesSize r k) (ho : r.2.StepsSucceed) :
    (applyRun r k).state.zram0.swapOn = true ∧
      (applyRun r k).state.zram0.disksize = DEFAULT_SIZE := by
  have hsame := ensureDriver_sameUsers r.1 r.2 k
  rcases applyRun_cases r hready with ⟨h, -⟩ | ⟨-, he⟩
  · exact absurd h hl.1
  have hok := applyRun_ok hready ho
  rw [he] at hok ⊢
  obtain ⟨-, h⟩ := (reconfigure_post r.1 r.2 (by rw [hsame.zram0, hready])).1 hok
  rw [h.zram0]
  refine ⟨rfl, ?_⟩
  unfold rebuilt
  rw [origSize_congr hsame.zram0]
  exact if_pos hl.2.2

/-- **Size across switches**: while no run loses the size (or the size is the fallback's), zram0
has its old size whenever it is in use after a run; a run that loses it and then succeeds in every
step breaks the law, unless the size was the fallback's. -/
theorem apply_keeps_size (D : ℕ) (hD : 0 < D) (k : Kernel) (hready : k.zram0.ready = true)
    (hsize : k.zram0.disksize = D) :
    (∀ rs : List (Algo × Outcomes),
        EachRun applyRun (fun k r => D = DEFAULT_SIZE ∨ ¬LosesSize r k) k rs →
        EachRun applyRun (fun k r => (applyRun r k).state.zram0.swapOn = true →
          (applyRun r k).state.zram0.disksize = D) k rs) ∧
      ∀ (rs : List (Algo × Outcomes)) (r : Algo × Outcomes),
        LosesSize r (after applyRun k rs) → r.2.StepsSucceed → D ≠ DEFAULT_SIZE →
        (applyRun r (after applyRun k rs)).state.zram0.swapOn = true ∧
          (applyRun r (after applyRun k rs)).state.zram0.disksize ≠ D := by
  constructor
  · intro rs h
    refine h.of_invariant (I := SizedOrOff D) (fun k r hk => applyRun_sized hD hk) ?_
      ⟨hready, .inl hsize⟩
    intro k r hk hr hon
    exact (applyRun_sized hD hk hr).size.resolve_right fun h' => nomatch hon.symm.trans h'.2
  · intro rs r hl ho hne
    have hready' := after_invariant (c := applyRun) (I := fun k => k.zram0.ready = true)
      (fun _ _ => applyRun_ready) hready rs
    obtain ⟨hon, hd⟩ := applyRun_losesSize hready' hl ho
    exact ⟨hon, fun h => hne (h.symm.trans hd)⟩

theorem apply_keeps_size_phone :
    EachRun applyRun (fun k r => (applyRun r k).state.zram0.swapOn = true →
      (applyRun r k).state.zram0.disksize = 65536) (phone swapping)
      [(.lz4, { smooth with reset := false }), (.lz4, smooth)] :=
  (apply_keeps_size 65536 (by decide) (phone swapping) rfl rfl).1 _
    ⟨.inr fun h => h.2.2.elim (fun h => nomatch h) (fun h => nomatch h),
      .inr fun h => h.2.2.elim (fun h => nomatch h) (fun h => nomatch h), trivial⟩

/-- A run that stops at `comp_algorithm` after the reset, then one with every step in order: zram0
of 64 KiB comes back with 16 GiB. -/
theorem apply_resizes :
    ¬∀ (D : ℕ) (k : Kernel), 0 < D → k.Reachable → k.zram0.ready = true → k.zram0.disksize = D →
      ∀ rs : List (Algo × Outcomes),
        EachRun applyRun (fun k r => (applyRun r k).state.zram0.swapOn = true →
          (applyRun r k).state.zram0.disksize = D) k rs := by
  intro h
  have hrun := h 65536 (phone swapping) (by decide) (phone_reachable rfl) rfl rfl
    [(.lz4, { smooth with compAlgorithm := false }), (.lz4, smooth)]
  exact absurd (hrun.2.1 rfl) (by decide)

/-! ## zram0 is served by the new driver -/

/-- **Driver after apply**: for a run whose steps on zram0 all succeed and whose module can be
inserted, exit 0 means that every context of zram0 is the new driver's, exactly if the test of
`apply` is not fooled by somebody else's contexts and the lz4 module does not stop the load. -/
theorem apply_served_iff (a : Algo) (o : Outcomes) (k : Kernel) (ho : o.StepsSucceed)
    (ha : o.modules.Insertable a) :
    ((apply (.algo a) o k).ok = true → (apply (.algo a) o k).state.ServedBy a) ↔
      (k.zram0.ready = true →
        ¬(LooksServed k a ∧ ¬k.ServedBy a) ∧ ¬Blocked a o.modules k) := by
  by_cases hready : k.zram0.ready = true
  swap
  · have he : apply (.algo a) o k = ⟨false, k⟩ := if_pos (Bool.eq_false_of_not_eq_true hready)
    rw [he]
    exact iff_of_true (fun h => nomatch h) fun h => absurd h hready
  simp only [hready, true_implies]
  have hsame := ensureDriver_sameUsers a o k
  have hserved : (ensureDriver a o k).state.ServedBy a ↔ k.ServedBy a := by
    unfold Kernel.ServedBy
    rw [hsame.zram0]
  rcases applyRun_cases (a, o) hready with ⟨hl, he⟩ | ⟨hl, he⟩
  · have hreg := k.held a (looksServed_iff.mp hl).2
    have hfree : ¬Blocked a o.modules k := by
      rintro ⟨rfl, h, -⟩
      exact nomatch hreg.symm.trans h
    rw [show apply (.algo a) o k = _ from he]
    simp only [true_implies, hserved, hl, true_and, not_not, hfree, not_false_eq_true, and_true]
  · rw [show apply (.algo a) o k = _ from he]
    have hok : (reconfigure a o (ensureDriver a o k).state).ok = true := by
      rw [← he]
      exact applyRun_ok hready ho
    obtain ⟨-, h⟩ := (reconfigure_post a o (by rw [hsame.zram0, hready])).1 hok
    have hbound : (reconfigure a o (ensureDriver a o k).state).state.ServedBy a ↔
        ¬Blocked a o.modules k := by
      rw [← ensureDriver_registered ha]
      unfold Kernel.ServedBy
      rw [h.zram0]
      exact Kernel.bound_new_iff.trans (and_iff_right rfl)
    simp only [hok, true_implies, hbound, hl, false_and, not_false_eq_true, true_and]

/-- zram0 on the built-in lz4, rebuilt onto the new driver. -/
theorem apply_served_phone :
    (apply (.algo .lz4) smooth (phone swapping)).ok = true ∧
      (apply (.algo .lz4) smooth (phone swapping)).state.ServedBy .lz4 := by
  refine ⟨rfl, (apply_served_iff .lz4 smooth (phone swapping) ?_ ⟨rfl, rfl⟩).mpr ?_ rfl⟩
  · exact ⟨fun _ => rfl, rfl, rfl, rfl, rfl, rfl⟩
  · exact fun _ => ⟨by decide, fun h => nomatch h.1⟩

/-- zram0 on the built-in lz4, another device on the new one: exit 0, nothing rebuilt. -/
theorem apply_not_served :
    ¬∀ (a : Algo) (o : Outcomes) (k : Kernel), k.Reachable → o.StepsSucceed →
      o.modules.Insertable a → (apply (.algo a) o k).ok = true →
      (apply (.algo a) o k).state.ServedBy a := by
  intro h
  have hserved := h .lz4 smooth (phone (swapping ++ [.hold (.of .lz4) 1]))
    (phone_reachable rfl) ⟨fun _ => rfl, rfl, rfl, rfl, rfl, rfl⟩ ⟨rfl, rfl⟩ rfl
  exact absurd hserved (by decide)

end ZramUpgrade.Zram
