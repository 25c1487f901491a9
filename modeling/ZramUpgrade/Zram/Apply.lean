import ZramUpgrade.Zram.Load

/-!
# Zram.Apply — `bin/zram-algo.sh apply`

`apply` loads the driver if it is missing, leaves zram0 alone when the name is right and the new
driver's refcnt is above 1, and otherwise rebuilds zram0 with `reconfigure`: swapoff, reset,
comp_algorithm, disksize, mkswap, swapon.  The result of `ensure_driver` is not looked at, and the
size of zram0 lives in a shell variable of one run.
-/

namespace ZramUpgrade.Zram

open Lib

/-- The value of `ALGO`: `lz4`, `zstd` or `default`. -/
inductive Choice where
  | algo (a : Algo)
  | default
deriving DecidableEq, Repr

abbrev DEFAULT_SIZE : ℕ := 17179869184

/-- What the world decides in one run of `apply`: each kernel-facing step may fail.  `swapoff n` is
the attempt after which `n` more are left, `afterReset` the name the kernel puts back. -/
structure Outcomes where
  modules : Modules
  swapoff : ℕ → Bool
  sizeRead : Bool
  reset : Bool
  afterReset : CompAlgo
  compAlgorithm : Bool
  disksize : Bool
  mkswap : Bool
  swapon : Bool

/-- Every step on zram0 does what the kernel permits. -/
structure Outcomes.StepsSucceed (o : Outcomes) : Prop where
  swapoff : ∀ n, o.swapoff n = true
  reset : o.reset = true
  compAlgorithm : o.compAlgorithm = true
  disksize : o.disksize = true
  mkswap : o.mkswap = true
  swapon : o.swapon = true

/-- `ensure_driver`. -/
def ensureDriver (a : Algo) (o : Outcomes) (k : Kernel) : Exit Kernel :=
  if k.registered a then ⟨true, k⟩
  else
    let k := (load o.modules k).state
    if k.registered a then ⟨true, k⟩ else ⟨false, k⟩

/-- The swapoff loop of `reconfigure`: at most `n` more attempts while zram0 is in `/proc/swaps`. -/
def swapoffLoop (o : Outcomes) : ℕ → Kernel → Kernel
  | 0, k => k
  | n + 1, k =>
    if k.zram0.swapOn then
      swapoffLoop o n (attempt Kernel.step (o.swapoff n) .swapoff k).state
    else k

/-- `orig_size`: what `disksize` reads, or 16 GiB where it reads nothing or 0. -/
def origSize (o : Outcomes) (k : Kernel) : ℕ :=
  if o.sizeRead = false ∨ k.zram0.disksize = 0 then DEFAULT_SIZE else k.zram0.disksize

/-- The writes of `reconfigure` after the size is read. -/
def rebuild (a : Algo) (o : Outcomes) (size : ℕ) (k : Kernel) : Exit Kernel :=
  (attempt Kernel.step o.reset (.reset o.afterReset) k).andThen fun k =>
  (attempt Kernel.step o.compAlgorithm (.compAlgorithm (.of a)) k).andThen fun k =>
  (attempt Kernel.step o.disksize (.disksize size) k).andThen fun k =>
  (attempt Kernel.step o.mkswap .mkswap k).andThen fun k =>
  attempt Kernel.step o.swapon .swapon k

/-- `reconfigure`. -/
def reconfigure (a : Algo) (o : Outcomes) (k : Kernel) : Exit Kernel :=
  let k := swapoffLoop o 5 k
  if k.zram0.swapOn then ⟨false, k⟩ else rebuild a o (origSize o k) k

/-- The test for "no rebuild needed": the name is right and `refcnt` reads more than 1. -/
def LooksServed (k : Kernel) (a : Algo) : Prop :=
  k.zram0.compAlgo = .of a ∧ (k.refcnt a).any (fun r => 1 < r) = true

instance (k : Kernel) (a : Algo) : Decidable (LooksServed k a) := by unfold LooksServed; infer_instance

/-- `apply`, with the exit status. -/
def apply (c : Choice) (o : Outcomes) (k : Kernel) : Exit Kernel :=
  match c with
  | .default => ⟨true, k⟩
  | .algo a =>
    if k.zram0.ready = false then ⟨false, k⟩
    else
      let k := (ensureDriver a o k).state
      if LooksServed k a then ⟨true, k⟩ else reconfigure a o k

/-! ## ensure_driver -/

theorem ensureDriver_state (a : Algo) (o : Outcomes) (k : Kernel) :
    (ensureDriver a o k).state = if k.registered a then k else (load o.modules k).state := by
  unfold ensureDriver
  by_cases h : k.registered a = true
  · rw [if_pos h, if_pos h]
  · rw [if_neg h, if_neg h]
    dsimp only
    split_ifs <;> rfl

theorem ensureDriver_sameUsers (a : Algo) (o : Outcomes) (k : Kernel) :
    k.SameUsers (ensureDriver a o k).state := by
  rw [ensureDriver_state]
  split_ifs
  · exact .refl k
  · exact load_sameUsers o.modules k

/-- The lz4 module keeps the load of the zstd driver from being tried. -/
def Blocked (a : Algo) (m : Modules) (k : Kernel) : Prop :=
  a = .zstd ∧ k.registered .zstd = false ∧ k.registered .lz4 = false ∧ ¬m.Insertable .lz4

theorem ensureDriver_registered {a : Algo} {o : Outcomes} (ha : o.modules.Insertable a)
    (k : Kernel) :
    (ensureDriver a o k).state.registered a = true ↔ ¬Blocked a o.modules k := by
  rw [ensureDriver_state]
  by_cases hr : k.registered a = true
  · rw [if_pos hr]
    refine iff_of_true hr ?_
    rintro ⟨rfl, h, -⟩
    rw [h] at hr
    exact nomatch hr
  rw [if_neg hr]
  cases a with
  | lz4 =>
    rw [load_registered_lz4]
    exact iff_of_true (.inr ha) fun h => nomatch h.1
  | zstd =>
    rw [load_registered_zstd]
    unfold Blocked
    rw [Bool.not_eq_true] at hr
    simp only [hr, ha, Bool.false_eq_true, false_or, and_true, true_and, not_and, not_not]
    cases k.registered .lz4 <;> simp

/-! ## reconfigure -/

/-- The loop leaves zram0 in use only if each attempt is lost. -/
theorem swapoffLoop_spec (o : Outcomes) {k₀ k : Kernel} {z : Device} (hk : k₀.Became z k)
    (hready : z.ready = true) (n : ℕ) :
    (z.swapOn = true ∧ (∀ i < n, o.swapoff i = false) → swapoffLoop o n k = k) ∧
      (¬(z.swapOn = true ∧ ∀ i < n, o.swapoff i = false) →
        k₀.Became { z with swapOn := false } (swapoffLoop o n k)) := by
  have hon : k.zram0.swapOn = z.swapOn := by rw [hk.zram0]
  by_cases hz : z.swapOn = true
  swap
  · have hfix : swapoffLoop o n k = k := by
      cases n with
      | zero => rfl
      | succ n => rw [swapoffLoop, hon, if_neg hz]
    rw [Bool.not_eq_true] at hz
    rw [hfix, ← hz]
    exact ⟨fun _ => rfl, fun _ => hk⟩
  induction n with
  | zero => exact ⟨fun _ => rfl, fun h => absurd ⟨hz, fun _ hi => absurd hi (Nat.not_lt_zero _)⟩ h⟩
  | succ n ih =>
    rw [swapoffLoop, hon, if_pos hz]
    cases hs : o.swapoff n with
    | false =>
      rw [attempt_deny]
      simpa only [Nat.forall_lt_succ_right, hs, and_true] using ih
    | true =>
      obtain ⟨k', hk', hb⟩ := Kernel.swapoff_accepted hk hready hz
      have hoff : k'.zram0.swapOn = false := by rw [hb.zram0]
      have hfix : swapoffLoop o n k' = k' := by
        cases n with
        | zero => rfl
        | succ n => rw [swapoffLoop, hoff, if_neg Bool.false_ne_true]
      rw [attempt_accept rfl hk', hfix]
      refine ⟨fun h => ?_, fun _ => hb⟩
      have hn := h.2 n (Nat.lt_succ_self n)
      rw [hs] at hn
      exact nomatch hn

/-- A rebuild that stopped half way: zram0 is not in use as swap. -/
structure Halted (k : Kernel) (size : ℕ) (k' : Kernel) : Prop where
  ready : k'.zram0.ready = true
  swapOn : k'.zram0.swapOn = false
  disksize : k'.zram0.disksize = k.zram0.disksize ∨ k'.zram0.disksize = 0 ∨ k'.zram0.disksize = size

/-- zram0 as a rebuild that went through leaves it. -/
def rebuilt (k : Kernel) (a : Algo) (size : ℕ) : Device :=
  ⟨true, .of a, size, List.replicate k.ncpu (k.lookup (.of a)), true, true⟩

theorem rebuild_post (a : Algo) (o : Outcomes) {size : ℕ} {k₀ k : Kernel} {z : Device}
    (hk : k₀.Became z k) (hready : z.ready = true) (hoff : z.swapOn = false) (hn : 0 < size) :
    (rebuild a o size k).Post (k₀.Became (rebuilt k₀ a size))
      fun k' => ¬o.StepsSucceed ∧ Halted k size k' := by
  have hstop : ∀ {z' : Device} {k' : Kernel} {b : Bool}, k₀.Became z' k' → z'.ready = true →
      z'.swapOn = false → z'.disksize = z.disksize ∨ z'.disksize = 0 ∨ z'.disksize = size →
      (o.StepsSucceed → b = true) → b = false → ¬o.StepsSucceed ∧ Halted k size k' := by
    intro z' k' b hk' h₁ h₂ h₃ hb hf
    refine ⟨fun h => ?_, ?_⟩
    · rw [hb h] at hf
      exact nomatch hf
    · refine ⟨?_, ?_, ?_⟩ <;> rw [hk'.zram0]
      · exact h₁
      · exact h₂
      · rw [hk.zram0]
        exact h₃
  unfold rebuild
  refine Exit.Post.andThen (attempt_granted (Kernel.reset_accepted hk hready hoff _)
    (hstop hk hready hoff (.inl rfl) (·.reset))) fun k₁ h₁ => ?_
  refine Exit.Post.andThen (attempt_granted (Kernel.compAlgorithm_accepted h₁ rfl rfl _)
    (hstop h₁ rfl rfl (.inr (.inl rfl)) (·.compAlgorithm))) fun k₂ h₂ => ?_
  refine Exit.Post.andThen (attempt_granted (Kernel.disksize_accepted h₂ rfl rfl hn)
    (hstop h₂ rfl rfl (.inr (.inl rfl)) (·.disksize))) fun k₃ h₃ => ?_
  refine Exit.Post.andThen (attempt_granted (Kernel.mkswap_accepted h₃ rfl rfl hn)
    (hstop h₃ rfl rfl (.inr (.inr rfl)) (·.mkswap))) fun k₄ h₄ => ?_
  exact attempt_granted (Kernel.swapon_accepted h₄ rfl rfl hn rfl)
    (hstop h₄ rfl rfl (.inr (.inr rfl)) (·.swapon))

theorem origSize_pos (o : Outcomes) (k : Kernel) : 0 < origSize o k := by
  unfold origSize
  split_ifs with h
  · decide
  · omega

/-- Every swapoff attempt of `reconfigure` is lost, so it stops before it reads the size. -/
def SwapoffLost (o : Outcomes) (k : Kernel) : Prop :=
  k.zram0.swapOn = true ∧ ∀ i < 5, o.swapoff i = false

instance (o : Outcomes) (k : Kernel) : Decidable (SwapoffLost o k) := by
  unfold SwapoffLost; infer_instance

/-- **`reconfigure`**: it rebuilds zram0 with the size it read, or stops with zram0 out of use, or
does nothing where zram0 could not be taken out of use. -/
theorem reconfigure_post (a : Algo) (o : Outcomes) {k : Kernel} (hready : k.zram0.ready = true) :
    (reconfigure a o k).Post
      (fun k' => ¬SwapoffLost o k ∧ k.Became (rebuilt k a (origSize o k)) k')
      fun k' => ¬o.StepsSucceed ∧
        (SwapoffLost o k ∧ k' = k ∨ ¬SwapoffLost o k ∧ Halted k (origSize o k) k') := by
  have hk : k.Became k.zram0 k := ⟨rfl, rfl, rfl⟩
  have hloop := swapoffLoop_spec o hk hready 5
  unfold reconfigure
  by_cases hl : SwapoffLost o k
  · have hon : k.zram0.swapOn = true := hl.1
    rw [hloop.1 hl, if_pos hon]
    refine ⟨(fun h => nomatch h), fun _ => ⟨fun h => ?_, .inl ⟨hl, rfl⟩⟩⟩
    have h0 := hl.2 0 (by omega)
    rw [h.swapoff 0] at h0
    exact nomatch h0
  · have hloop := hloop.2 hl
    have hoff : (swapoffLoop o 5 k).zram0.swapOn = false := by rw [hloop.zram0]
    have hds : (swapoffLoop o 5 k).zram0.disksize = k.zram0.disksize := by rw [hloop.zram0]
    have hsize : origSize o (swapoffLoop o 5 k) = origSize o k := by rw [origSize, origSize, hds]
    rw [if_neg (by rw [hoff]; exact Bool.false_ne_true), hsize]
    refine (rebuild_post a o hloop hready rfl (origSize_pos o k)).mono ?_ ?_
    · intro k' h
      exact ⟨hl, h⟩
    · rintro k' ⟨hs, h⟩
      refine ⟨hs, .inr ⟨hl, h.ready, h.swapOn, ?_⟩⟩
      rw [← hds]
      exact h.disksize

/-! ## apply -/

theorem looksServed_iff {k : Kernel} {a : Algo} :
    LooksServed k a ↔ k.zram0.compAlgo = .of a ∧ k.InUse a :=
  and_congr_right fun _ => Kernel.refcnt_gt_one

theorem Kernel.SameUsers.looksServed {k k' : Kernel} (h : k.SameUsers k') (a : Algo) :
    LooksServed k' a ↔ LooksServed k a := by
  rw [looksServed_iff, looksServed_iff, h.zram0, h.inUse]

/-- `apply lz4` and `apply zstd` on a device that exists: keep it or rebuild it. -/
theorem apply_algo (a : Algo) (o : Outcomes) {k : Kernel} (hready : k.zram0.ready = true) :
    apply (.algo a) o k =
      if LooksServed k a then ⟨true, (ensureDriver a o k).state⟩
      else reconfigure a o (ensureDriver a o k).state := by
  have hs := (ensureDriver_sameUsers a o k).looksServed a
  unfold apply
  simp only [hready, Bool.true_eq_false, if_false, hs]

/-! ## Events -/

theorem loadAlgo_reaches (m : Modules) (a : Algo) (k : Kernel) :
    Reaches Kernel.step k (loadAlgo m a k).state := by
  unfold loadAlgo
  split_ifs
  · exact .refl
  · exact .refl
  · refine andThen_reaches (attempt_reaches _ _ _ _) fun t => ?_
    split_ifs
    · exact .refl
    · exact .refl

theorem ensureDriver_reaches (a : Algo) (o : Outcomes) (k : Kernel) :
    Reaches Kernel.step k (ensureDriver a o k).state := by
  rw [ensureDriver_state]
  split_ifs
  · exact .refl
  · exact andThen_reaches (loadAlgo_reaches _ _ k) (loadAlgo_reaches _ _)

theorem swapoffLoop_reaches (o : Outcomes) (n : ℕ) (k : Kernel) :
    Reaches Kernel.step k (swapoffLoop o n k) := by
  induction n generalizing k with
  | zero => exact .refl
  | succ n ih =>
    unfold swapoffLoop
    split_ifs
    · exact (attempt_reaches _ _ _ k).trans (ih _)
    · exact .refl

theorem rebuild_reaches (a : Algo) (o : Outcomes) (size : ℕ) (k : Kernel) :
    Reaches Kernel.step k (rebuild a o size k).state := by
  unfold rebuild
  refine andThen_reaches (attempt_reaches _ _ _ k) fun k₁ => ?_
  refine andThen_reaches (attempt_reaches _ _ _ k₁) fun k₂ => ?_
  refine andThen_reaches (attempt_reaches _ _ _ k₂) fun k₃ => ?_
  exact andThen_reaches (attempt_reaches _ _ _ k₃) fun k₄ => attempt_reaches _ _ _ k₄

/-- Whatever fails in it, a run of `apply` moves the kernel by events the kernel accepts. -/
theorem apply_reaches (c : Choice) (o : Outcomes) (k : Kernel) :
    Reaches Kernel.step k (apply c o k).state := by
  cases c with
  | default => exact .refl
  | algo a =>
    have hload := ensureDriver_reaches a o k
    unfold apply reconfigure
    dsimp only
    split_ifs
    · exact .refl
    · exact hload
    · exact hload.trans (swapoffLoop_reaches o 5 _)
    · exact (hload.trans (swapoffLoop_reaches o 5 _)).trans (rebuild_reaches a o _ _)

theorem Kernel.Reachable.apply {k : Kernel} (hk : k.Reachable) (c : Choice) (o : Outcomes) :
    (Zram.apply c o k).state.Reachable := by
  obtain ⟨ncpu, h, hreach⟩ := hk
  exact ⟨ncpu, h, hreach.trans (apply_reaches c o k)⟩

end ZramUpgrade.Zram
