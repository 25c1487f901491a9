import ZramUpgrade.Lib.Script

/-!
# Zram.Kernel — the kernel the scripts of `magisk/piano_zram` write to

zram0, the crypto drivers of the two algorithm names, and everybody else who holds compression
contexts.  `Kernel.step` is one event the kernel accepts or refuses: a write to a sysfs file of
zram0, `swapoff`, `mkswap`, `swapon`, a module going in or out, another user taking or dropping
contexts.  A context is bound when `disksize` is written, to the registered driver of the highest
priority, and stays bound until the device is reset.
-/

namespace ZramUpgrade.Zram

open Lib

/-- The algorithms this package brings a driver for. -/
inductive Algo where
  | lz4
  | zstd
deriving DecidableEq, Repr

/-- A name of `comp_algorithm`; the ones without a driver in this package are one. -/
inductive CompAlgo where
  | of (a : Algo)
  | other
deriving DecidableEq, Repr

/-- A crypto driver: `lz4-new-generic`, `zstd-new-generic`, or the built-in one of a name. -/
inductive Driver where
  | new (a : Algo)
  | builtin (c : CompAlgo)
deriving DecidableEq, Repr

/-- A zram device; `ready` says that its directory under `/sys/block` exists. -/
structure Device where
  ready : Bool
  compAlgo : CompAlgo
  disksize : ℕ
  ctxs : List Driver
  header : Bool
  swapOn : Bool
deriving DecidableEq, Repr

/-- The kernel state the scripts see; a module that a context is bound to cannot be absent. -/
structure Kernel where
  ncpu : ℕ
  zram0 : Device
  registered : Algo → Bool
  holders : Driver → ℕ
  ncpu_pos : 0 < ncpu
  held : ∀ a, Driver.new a ∈ zram0.ctxs ∨ 0 < holders (.new a) → registered a = true

namespace Kernel

/-- The driver a request for a name gets: ours has priority 100, the built-in ones 0. -/
def lookup (k : Kernel) : CompAlgo → Driver
  | .of a => if k.registered a then .new a else .builtin (.of a)
  | .other => .builtin .other

/-- The `refcnt` line of a new driver in `/proc/crypto`, if it is registered. -/
def refcnt (k : Kernel) (a : Algo) : Option ℕ :=
  if k.registered a then some (1 + k.zram0.ctxs.count (.new a) + k.holders (.new a)) else none

theorem lookup_of {k : Kernel} {a : Algo} (h : k.registered a = true) :
    k.lookup (.of a) = .new a := by
  rw [lookup, if_pos h]

theorem lookup_new {k : Kernel} {a : Algo} {c : CompAlgo} (h : k.lookup c = .new a) :
    c = .of a ∧ k.registered a = true := by
  cases c with
  | other => cases h
  | of b =>
    rw [lookup] at h
    split_ifs at h with hr
    · cases h; exact ⟨rfl, hr⟩

/-! ## State updates -/

/-- A new state of zram0 that binds no context it did not have. -/
def withZram (k : Kernel) (z : Device) (h : z.ctxs ⊆ k.zram0.ctxs) : Kernel :=
  { k with
    zram0 := z
    held := fun a ha => k.held a (ha.imp (fun hz => h hz) id) }

/-- zram0 with `n` bytes: one context for each CPU. -/
def sized (k : Kernel) (n : ℕ) : Kernel :=
  { k with
    zram0 := { k.zram0 with
      disksize := n
      ctxs := List.replicate k.ncpu (k.lookup k.zram0.compAlgo) }
    held := by
      rintro a (ha | ha)
      · exact (lookup_new (List.eq_of_mem_replicate ha).symm).2
      · exact k.held a (.inr ha) }

/-- The driver of `a` registered by its module. -/
def register (k : Kernel) (a : Algo) : Kernel :=
  { k with
    registered := Function.update k.registered a true
    held := by
      intro b hb
      by_cases h : b = a
      · rw [h, Function.update_self]
      · rw [Function.update_of_ne h]; exact k.held b hb }

/-- The driver of `a` gone; no context may be bound to it. -/
def unregister (k : Kernel) (a : Algo) (h : Driver.new a ∉ k.zram0.ctxs ∧ k.holders (.new a) = 0) :
    Kernel :=
  { k with
    registered := Function.update k.registered a false
    held := by
      intro b hb
      by_cases hba : b = a
      · subst hba
        rcases hb with hb | hb
        · exact absurd hb h.1
        · exact absurd h.2 (Nat.pos_iff_ne_zero.mp hb)
      · rw [Function.update_of_ne hba]; exact k.held b hb }

/-- Another user takes `n` contexts of the name `c`. -/
def hold (k : Kernel) (c : CompAlgo) (n : ℕ) : Kernel :=
  { k with
    holders := Function.update k.holders (k.lookup c) (k.holders (k.lookup c) + n)
    held := by
      rintro a (ha | ha)
      · exact k.held a (.inl ha)
      · by_cases h : Driver.new a = k.lookup c
        · exact (lookup_new h.symm).2
        · rw [Function.update_of_ne h] at ha; exact k.held a (.inr ha) }

/-- Another user drops `n` contexts bound to `d`. -/
def release (k : Kernel) (d : Driver) (n : ℕ) : Kernel :=
  { k with
    holders := Function.update k.holders d (k.holders d - n)
    held := by
      rintro a (ha | ha)
      · exact k.held a (.inl ha)
      · by_cases h : Driver.new a = d
        · rw [h, Function.update_self] at ha
          exact k.held a (.inr (by rw [h]; omega))
        · rw [Function.update_of_ne h] at ha; exact k.held a (.inr ha) }

end Kernel

/-! ## Events -/

/-- What the kernel is asked to do.  `reset c` carries the name the kernel puts back. -/
inductive Event where
  | create (c : CompAlgo)
  | swapoff
  | reset (c : CompAlgo)
  | compAlgorithm (c : CompAlgo)
  | disksize (n : ℕ)
  | mkswap
  | swapon
  | insmod (a : Algo)
  | rmmod (a : Algo)
  | hold (c : CompAlgo) (n : ℕ)
  | release (d : Driver) (n : ℕ)
deriving DecidableEq, Repr

namespace Kernel

/-- One event, or `none` where the kernel refuses it. -/
def step (k : Kernel) : Event → Option Kernel
  | .create c =>
    if k.zram0.ready then none
    else some (k.withZram ⟨true, c, 0, [], false, false⟩ (List.nil_subset _))
  | .swapoff =>
    if k.zram0.ready ∧ k.zram0.swapOn then
      some (k.withZram { k.zram0 with swapOn := false } (List.Subset.refl _))
    else none
  | .reset c =>
    -- `-EBUSY` while the device is open as swap
    if k.zram0.ready ∧ k.zram0.swapOn = false then
      some (k.withZram ⟨true, c, 0, [], false, false⟩ (List.nil_subset _))
    else none
  | .compAlgorithm c =>
    if k.zram0.ready ∧ k.zram0.disksize = 0 then
      some (k.withZram { k.zram0 with compAlgo := c } (List.Subset.refl _))
    else none
  | .disksize n =>
    if k.zram0.ready ∧ k.zram0.disksize = 0 ∧ 0 < n then some (k.sized n) else none
  | .mkswap =>
    if k.zram0.ready ∧ 0 < k.zram0.disksize ∧ k.zram0.swapOn = false then
      some (k.withZram { k.zram0 with header := true } (List.Subset.refl _))
    else none
  | .swapon =>
    if k.zram0.ready ∧ 0 < k.zram0.disksize ∧ k.zram0.header ∧ k.zram0.swapOn = false then
      some (k.withZram { k.zram0 with swapOn := true } (List.Subset.refl _))
    else none
  | .insmod a => if k.registered a then none else some (k.register a)
  | .rmmod a =>
    if h : k.registered a ∧ Driver.new a ∉ k.zram0.ctxs ∧ k.holders (.new a) = 0 then
      some (k.unregister a h.2)
    else none
  | .hold c n => some (k.hold c n)
  | .release d n => if n ≤ k.holders d then some (k.release d n) else none

/-- The kernel before zram0 exists and before any module of this package is in. -/
def boot (ncpu : ℕ) (h : 0 < ncpu) : Kernel where
  ncpu := ncpu
  zram0 := ⟨false, .other, 0, [], false, false⟩
  registered := fun _ => false
  holders := fun _ => 0
  ncpu_pos := h
  held := by
    rintro a (ha | ha)
    · cases ha
    · exact absurd ha (Nat.lt_irrefl 0)

/-- The states of the kernel after boot, in any order of events. -/
def Reachable (k : Kernel) : Prop := ∃ (ncpu : ℕ) (h : 0 < ncpu), Reaches step (boot ncpu h) k

theorem reachable_of_runAll {ncpu : ℕ} (h : 0 < ncpu) {es : List Event} {k : Kernel}
    (hk : runAll step (boot ncpu h) es = some k) : k.Reachable :=
  ⟨ncpu, h, reaches_of_runAll hk⟩

/-- zram0 in use has a size and a header, and holds one context for each CPU while it has a size. -/
structure Sound (k : Kernel) : Prop where
  inUse : k.zram0.swapOn = true → 0 < k.zram0.disksize ∧ k.zram0.header = true
  ctxs : k.zram0.ctxs.length = if k.zram0.disksize = 0 then 0 else k.ncpu

theorem step_sound {k k' : Kernel} {e : Event} (hk : k.Sound) (h : k.step e = some k') :
    k'.Sound := by
  obtain ⟨huse, hctx⟩ := hk
  cases e with
  | create c | reset c =>
    rw [step] at h
    split_ifs at h
    cases h
    exact ⟨(fun h => nomatch h), rfl⟩
  | swapoff =>
    rw [step] at h
    split_ifs at h
    cases h
    exact ⟨(fun h => nomatch h), hctx⟩
  | disksize n =>
    rw [step] at h
    split_ifs at h with hc
    cases h
    refine ⟨fun hon => ⟨hc.2.2, (huse hon).2⟩, ?_⟩
    exact List.length_replicate.trans (if_neg (Nat.pos_iff_ne_zero.mp hc.2.2)).symm
  | mkswap =>
    rw [step] at h
    split_ifs at h with hc
    cases h
    exact ⟨fun _ => ⟨hc.2.1, rfl⟩, hctx⟩
  | swapon =>
    rw [step] at h
    split_ifs at h with hc
    cases h
    exact ⟨fun _ => ⟨hc.2.1, hc.2.2.1⟩, hctx⟩
  | compAlgorithm _ | insmod _ | release _ _ =>
    rw [step] at h
    split_ifs at h
    cases h
    exact ⟨huse, hctx⟩
  | rmmod a =>
    rw [step] at h
    split_ifs at h
    cases h
    exact ⟨huse, hctx⟩
  | hold c n =>
    rw [step] at h
    cases h
    exact ⟨huse, hctx⟩

/-- Every kernel state after boot is sound. -/
theorem Reachable.sound {k : Kernel} (hk : k.Reachable) : k.Sound := by
  obtain ⟨ncpu, h, hreach⟩ := hk
  exact hreach.invariant (fun _ _ _ => step_sound) ⟨(fun h => nomatch h), rfl⟩

/-! ## What an accepted write leaves -/

/-- `k'` is `k` with zram0 in the state `z`. -/
structure Became (k : Kernel) (z : Device) (k' : Kernel) : Prop where
  zram0 : k'.zram0 = z
  registered : k'.registered = k.registered
  ncpu : k'.ncpu = k.ncpu

theorem Became.lookup {k k' : Kernel} {z : Device} (h : k.Became z k') (c : CompAlgo) :
    k'.lookup c = k.lookup c := by
  cases c with
  | other => rfl
  | of a => unfold Kernel.lookup; rw [h.registered]

section writes

variable {k₀ k : Kernel} {z : Device}

theorem reset_accepted (hk : k₀.Became z k) (hready : z.ready = true) (hoff : z.swapOn = false)
    (c : CompAlgo) :
    ∃ k', k.step (.reset c) = some k' ∧ k₀.Became ⟨true, c, 0, [], false, false⟩ k' := by
  refine ⟨_, if_pos ?_, rfl, hk.registered, hk.ncpu⟩
  rw [hk.zram0]
  exact ⟨hready, hoff⟩

theorem compAlgorithm_accepted (hk : k₀.Became z k) (hready : z.ready = true)
    (h0 : z.disksize = 0) (c : CompAlgo) :
    ∃ k', k.step (.compAlgorithm c) = some k' ∧ k₀.Became { z with compAlgo := c } k' := by
  refine ⟨_, if_pos ?_, ?_, hk.registered, hk.ncpu⟩
  · rw [hk.zram0]
    exact ⟨hready, h0⟩
  · rw [← hk.zram0]
    rfl

theorem disksize_accepted (hk : k₀.Became z k) (hready : z.ready = true) (h0 : z.disksize = 0)
    {n : ℕ} (hn : 0 < n) :
    ∃ k', k.step (.disksize n) = some k' ∧ k₀.Became
      { z with disksize := n, ctxs := List.replicate k₀.ncpu (k₀.lookup z.compAlgo) } k' := by
  refine ⟨_, if_pos ?_, ?_, hk.registered, hk.ncpu⟩
  · rw [hk.zram0]
    exact ⟨hready, h0, hn⟩
  · rw [← hk.ncpu, ← hk.lookup, ← hk.zram0]
    rfl

theorem mkswap_accepted (hk : k₀.Became z k) (hready : z.ready = true) (hoff : z.swapOn = false)
    (hn : 0 < z.disksize) :
    ∃ k', k.step .mkswap = some k' ∧ k₀.Became { z with header := true } k' := by
  refine ⟨_, if_pos ?_, ?_, hk.registered, hk.ncpu⟩
  · rw [hk.zram0]
    exact ⟨hready, hn, hoff⟩
  · rw [← hk.zram0]
    rfl

theorem swapon_accepted (hk : k₀.Became z k) (hready : z.ready = true) (hoff : z.swapOn = false)
    (hn : 0 < z.disksize) (hh : z.header = true) :
    ∃ k', k.step .swapon = some k' ∧ k₀.Became { z with swapOn := true } k' := by
  refine ⟨_, if_pos ?_, ?_, hk.registered, hk.ncpu⟩
  · rw [hk.zram0]
    exact ⟨hready, hn, hh, hoff⟩
  · rw [← hk.zram0]
    rfl

theorem swapoff_accepted (hk : k₀.Became z k) (hready : z.ready = true) (hon : z.swapOn = true) :
    ∃ k', k.step .swapoff = some k' ∧ k₀.Became { z with swapOn := false } k' := by
  refine ⟨_, if_pos ?_, ?_, hk.registered, hk.ncpu⟩
  · rw [hk.zram0]
    exact ⟨hready, hon⟩
  · rw [← hk.zram0]
    rfl

end writes

/-! ## Who is served by a new driver -/

/-- Some context, of zram0 or of anybody else, is bound to the new driver of `a`. -/
def InUse (k : Kernel) (a : Algo) : Prop :=
  Driver.new a ∈ k.zram0.ctxs ∨ 0 < k.holders (.new a)

/-- Every compression context of zram0 is bound to the new driver of `a`. -/
def ServedBy (k : Kernel) (a : Algo) : Prop := ∀ d ∈ k.zram0.ctxs, d = Driver.new a

instance (k : Kernel) (a : Algo) : Decidable (k.InUse a) := by unfold InUse; infer_instance

instance (k : Kernel) (a : Algo) : Decidable (k.ServedBy a) := by unfold ServedBy; infer_instance

/-- `refcnt > 1` says that somebody uses the driver, not who. -/
theorem refcnt_gt_one {k : Kernel} {a : Algo} :
    (k.refcnt a).any (fun r => 1 < r) = true ↔ k.InUse a := by
  have hcount : 0 < k.zram0.ctxs.count (.new a) ↔ Driver.new a ∈ k.zram0.ctxs := List.count_pos_iff
  unfold refcnt InUse
  by_cases hr : k.registered a = true
  · rw [if_pos hr, Option.any_some, decide_eq_true_eq, ← hcount]
    omega
  · rw [if_neg hr, Option.any_none]
    exact ⟨(fun h => nomatch h), fun h => absurd (k.held a h) hr⟩

/-- The contexts a `disksize` write makes are the new driver's exactly if the name is right and
that driver is registered by then. -/
theorem bound_new_iff {k : Kernel} {c : CompAlgo} {a : Algo} :
    (∀ d ∈ List.replicate k.ncpu (k.lookup c), d = Driver.new a) ↔
      c = .of a ∧ k.registered a = true := by
  constructor
  · intro h
    exact lookup_new (h _ (List.mem_replicate.mpr ⟨Nat.pos_iff_ne_zero.mp k.ncpu_pos, rfl⟩))
  · rintro ⟨rfl, hr⟩ d hd
    rw [List.eq_of_mem_replicate hd, lookup_of hr]

end Kernel

end ZramUpgrade.Zram
