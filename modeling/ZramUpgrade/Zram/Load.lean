import ZramUpgrade.Zram.Kernel

/-!
# Zram.Load — `bin/zstd-upgrade.sh load`

The script inserts the lz4 module, then the zstd module, and stops at the first failure.  It moves
no context, so all that it can change is which of the two drivers is registered.
-/

namespace ZramUpgrade.Zram

open Lib

/-- What decides an insmod outside the script: the `.ko` is there, the running kernel takes it. -/
structure Modules where
  file : Algo → Bool
  accepted : Algo → Bool

/-- `load_algo`.  A module is in `/proc/modules` exactly while its driver is registered: its init
returns what `crypto_register_alg` returns. -/
def loadAlgo (m : Modules) (a : Algo) (k : Kernel) : Exit Kernel :=
  if k.registered a then ⟨true, k⟩
  else if m.file a = false then ⟨false, k⟩
  else
    (attempt Kernel.step (m.accepted a) (.insmod a) k).andThen fun k =>
      if k.registered a then ⟨true, k⟩ else ⟨false, k⟩

/-- `load`: `load_algo lz4 || exit; load_algo zstd || exit`. -/
def load (m : Modules) (k : Kernel) : Exit Kernel := (loadAlgo m .lz4 k).andThen (loadAlgo m .zstd)

/-- The module of `a` can be inserted. -/
def Modules.Insertable (m : Modules) (a : Algo) : Prop := m.file a = true ∧ m.accepted a = true

instance (m : Modules) (a : Algo) : Decidable (m.Insertable a) := by
  unfold Modules.Insertable; infer_instance

/-! ## What loading changes -/

/-- `k'` has the devices, the other users and the CPUs of `k`. -/
structure Kernel.SameUsers (k k' : Kernel) : Prop where
  zram0 : k'.zram0 = k.zram0
  holders : k'.holders = k.holders
  ncpu : k'.ncpu = k.ncpu

theorem Kernel.SameUsers.refl (k : Kernel) : k.SameUsers k := ⟨rfl, rfl, rfl⟩

theorem Kernel.SameUsers.trans {k k₁ k₂ : Kernel} (h : k.SameUsers k₁) (h' : k₁.SameUsers k₂) :
    k.SameUsers k₂ :=
  ⟨h'.zram0.trans h.zram0, h'.holders.trans h.holders, h'.ncpu.trans h.ncpu⟩

theorem Kernel.SameUsers.inUse {k k' : Kernel} (h : k.SameUsers k') (a : Algo) :
    k'.InUse a ↔ k.InUse a := by
  unfold Kernel.InUse
  rw [h.zram0, h.holders]

/-- `load_algo` in closed form. -/
theorem loadAlgo_eq (m : Modules) (a : Algo) (k : Kernel) :
    loadAlgo m a k =
      if k.registered a then ⟨true, k⟩
      else if m.Insertable a then ⟨true, k.register a⟩ else ⟨false, k⟩ := by
  unfold loadAlgo
  by_cases hr : k.registered a = true
  · rw [if_pos hr, if_pos hr]
  rw [if_neg hr, if_neg hr]
  by_cases hf : m.file a = true
  · rw [if_neg (by simp [hf])]
    by_cases hi : m.accepted a = true
    · have hs : k.step (.insmod a) = some (k.register a) := by rw [Kernel.step, if_neg hr]
      have hreg : (k.register a).registered a = true := Function.update_self ..
      have hins : m.Insertable a := ⟨hf, hi⟩
      rw [attempt_accept hi hs, andThen_true, if_pos hreg, if_pos hins]
    · have hins : ¬m.Insertable a := fun h => hi h.2
      rw [if_neg hins, Bool.not_eq_true] at *
      rw [hi, attempt_deny, andThen_false]
  · have hins : ¬m.Insertable a := fun h => hf h.1
    rw [if_neg hins, if_pos (Bool.not_eq_true _ ▸ hf)]

theorem loadAlgo_sameUsers (m : Modules) (a : Algo) (k : Kernel) :
    k.SameUsers (loadAlgo m a k).state := by
  rw [loadAlgo_eq]
  split_ifs
  · exact .refl k
  · exact ⟨rfl, rfl, rfl⟩
  · exact .refl k

/-- A load registers the driver it is about, if the module can be inserted, and no other. -/
theorem loadAlgo_registered (m : Modules) (a b : Algo) (k : Kernel) :
    (loadAlgo m a k).state.registered b = true ↔
      k.registered b = true ∨ b = a ∧ m.Insertable a := by
  rw [loadAlgo_eq]
  by_cases hr : k.registered a = true
  · rw [if_pos hr]
    constructor
    · exact .inl
    · rintro (h | ⟨rfl, -⟩)
      · exact h
      · exact hr
  rw [if_neg hr]
  by_cases hi : m.Insertable a
  · rw [if_pos hi]
    by_cases hb : b = a
    · subst hb
      simp [Kernel.register, hi]
    · simp [Kernel.register, hb]
  · rw [if_neg hi]
    simp [hi]

theorem loadAlgo_ok (m : Modules) (a : Algo) (k : Kernel) :
    (loadAlgo m a k).ok = true ↔ k.registered a = true ∨ m.Insertable a := by
  rw [loadAlgo_eq]
  split_ifs with hr hi
  · simp [hr]
  · simp [hi]
  · simp [hr, hi]

theorem load_sameUsers (m : Modules) (k : Kernel) : k.SameUsers (load m k).state := by
  have h₁ := loadAlgo_sameUsers m .lz4 k
  unfold load
  rcases hl : loadAlgo m .lz4 k with ⟨ok, k₁⟩
  rw [hl] at h₁
  cases ok with
  | false => exact h₁
  | true => exact h₁.trans (loadAlgo_sameUsers m .zstd k₁)

theorem load_registered_lz4 (m : Modules) (k : Kernel) :
    (load m k).state.registered .lz4 = true ↔ k.registered .lz4 = true ∨ m.Insertable .lz4 := by
  have h₁ := loadAlgo_registered m .lz4 .lz4 k
  unfold load
  rcases hl : loadAlgo m .lz4 k with ⟨ok, k₁⟩
  rw [hl] at h₁
  cases ok with
  | false => simpa using h₁
  | true =>
    rw [andThen_true, loadAlgo_registered]
    simpa using h₁

/-- The zstd driver is reached only past a successful load of the lz4 module. -/
theorem load_registered_zstd (m : Modules) (k : Kernel) :
    (load m k).state.registered .zstd = true ↔
      k.registered .zstd = true ∨
        (k.registered .lz4 = true ∨ m.Insertable .lz4) ∧ m.Insertable .zstd := by
  have h₁ := loadAlgo_registered m .lz4 .zstd k
  have h₂ := loadAlgo_ok m .lz4 k
  unfold load
  rcases hl : loadAlgo m .lz4 k with ⟨ok, k₁⟩
  rw [hl] at h₁ h₂
  have h₁ : k₁.registered .zstd = true ↔ k.registered .zstd = true := by simpa using h₁
  cases ok with
  | false =>
    rw [andThen_false, h₁]
    simpa using fun h => absurd (h₂.mpr h) (by simp)
  | true =>
    rw [andThen_true, loadAlgo_registered, h₁]
    simp [h₂.mp rfl]

end ZramUpgrade.Zram
