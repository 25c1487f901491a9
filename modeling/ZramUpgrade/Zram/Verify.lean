import ZramUpgrade.Zram.Boot
import ZramUpgrade.Zram.Vermagic

/-!
# Zram.Verify — `bin/verify.sh`, its exit status and what its PASS says about zram0

The script checks that both drivers are registered, watches their refcnt while a temporary device
asks for each name, and for zram0 compares the name in the brackets.  Its exit status forgets the
lines of step 0, and all the others where `hot_add` cannot be read.  Which driver serves zram0 is
decided by the history of the kernel: by what was registered when its size was last written.
-/

namespace ZramUpgrade.Zram

open Lib

/-! ## The script -/

/-- What `verify.sh` finds outside: the running release, how its `grep` takes a NUL, the `.ko`s it can
read, whether `hot_add` can be read, the id it gives (`none` where it is no number), which writes to
the temporary device go through, and which reads of `/proc/crypto` (in section 2, before and after
the writes) and of `comp_algorithm` do. -/
structure VerifyEnv where
  krel : Text
  nulEnds : Bool
  ko : Algo → Option Text
  hotAddReadable : Bool
  hotAdd : Option ℕ
  select : Algo → Bool
  size : Algo → Bool
  reset : Algo → Bool
  hotRemove : Bool
  crypto : Algo → Bool
  before : Algo → Bool
  after : Algo → Bool
  compAlgorithm : Bool

/-- A line that says FAIL or MISSING. -/
inductive Complaint where
  | koMismatch (a : Algo)
  | driverMissing (a : Algo)
  | proofFailed (a : Algo)
  | zram0Algo
deriving DecidableEq, Repr

/-- How `verify.sh` ends; `pass` and `fail` are the two total verdicts. -/
inductive Verdict where
  | readOnly
  | noProof
  | badId
  | pass
  | fail
deriving DecidableEq, Repr

/-- The verdict, the complaints before it and the kernel left. -/
structure Report where
  verdict : Verdict
  complaints : List Complaint
  kernel : Kernel

/-- The exit status: `exit 0` of the two early ends, `exit 1` for a bad id, `[ "$pass" = 1 ]`. -/
def Verdict.exitCode : Verdict → ℕ
  | .readOnly => 0
  | .noProof => 0
  | .badId => 1
  | .pass => 0
  | .fail => 1

/-- Section 0: each `.ko` against `uname -r`. -/
def koComplaints (e : VerifyEnv) : List Complaint :=
  ([.zstd, .lz4].filter fun a => checkKo e.krel (koVermagic e.nulEnds (e.ko a)) ≠ .ok).map
    .koMismatch

/-- Section 2: each new driver in `/proc/crypto`. -/
def driverComplaints (e : VerifyEnv) (k : Kernel) : List Complaint :=
  ([.zstd, .lz4].filter fun a => !(e.crypto a && k.registered a)).map .driverMissing

/-- `$(refcnt_of "$DRIVER")`, empty where `/proc/crypto` cannot be read. -/
def readRefcnt (readable : Bool) (k : Kernel) (a : Algo) : Option ℕ :=
  if readable then k.refcnt a else none

/-- A refcnt experiment: its complaints, the driver the temporary device is left bound to, if it
still has its size, and the kernel. -/
structure TempTest where
  complaints : List Complaint
  bound : Option Driver
  kernel : Kernel

/-- The contexts of the temporary device go. -/
def freeTemp (allow : Bool) (bound : Option Driver) (k : Kernel) : Option Driver × Kernel :=
  match allow, bound with
  | true, some d => (none, k.release d k.ncpu)
  | _, _ => (bound, k)

/-- `[ -n "$after" ] && [ -n "$before" ] && [ "$after" -gt "$before" ]`. -/
def refcntRose (before after : Option ℕ) : Bool :=
  match after, before with
  | some y, some x => decide (x < y)
  | _, _ => false

/-- One experiment of section 3: select the name, write 16M, compare, reset. -/
def tempTest (e : VerifyEnv) (a : Algo) (before : Option ℕ) (bound : Option Driver) (k : Kernel) :
    TempTest :=
  -- a device that still has its size refuses another name
  if bound.isSome ∨ e.select a = false then
    let r := freeTemp (e.reset a) bound k
    ⟨[.proofFailed a], r.1, r.2⟩
  else
    let bound := if e.size a then some (k.lookup (.of a)) else none
    let k := if e.size a then k.hold (.of a) k.ncpu else k
    let r := freeTemp (e.reset a) bound k
    ⟨if refcntRose before (readRefcnt (e.after a) k a) then [] else [.proofFailed a], r.1, r.2⟩

/-- Section 3: the zstd test, the lz4 test, and the temporary device removed. -/
def tempTests (e : VerifyEnv) (k : Kernel) : List Complaint × Kernel :=
  let zstd := tempTest e .zstd (readRefcnt (e.before .zstd) k .zstd) none k
  let lz4 := tempTest e .lz4 (readRefcnt (e.before .lz4) k .lz4) zstd.bound zstd.kernel
  (zstd.complaints ++ lz4.complaints, (freeTemp e.hotRemove lz4.bound lz4.kernel).2)

/-- Section 5: `[$ALGO]` in `comp_algorithm`, where `ALGO` is `lz4` or `zstd`. -/
def zram0Complaints (e : VerifyEnv) (d : ModuleDir) (k : Kernel) : List Complaint :=
  match Choice.ofWord d.algoWord with
  | some (.algo a) => if e.compAlgorithm ∧ k.zram0.compAlgo = .of a then [] else [.zram0Algo]
  | _ => []

/-- `verify.sh`; `pass` is cleared by the complaints of the sections 2, 3 and 5. -/
def verify (e : VerifyEnv) (d : ModuleDir) (k : Kernel) : Report :=
  if d.enabled = false then ⟨.readOnly, koComplaints e, k⟩
  else if e.hotAddReadable = false then ⟨.noProof, koComplaints e ++ driverComplaints e k, k⟩
  else if e.hotAdd.all (· = 0) then ⟨.badId, koComplaints e ++ driverComplaints e k, k⟩
  else
    let t := tempTests e k
    let clearing := driverComplaints e k ++ t.1 ++ zram0Complaints e d t.2
    ⟨if clearing.isEmpty then .pass else .fail, koComplaints e ++ clearing, t.2⟩

theorem freeTemp_zram0 (allow : Bool) (bound : Option Driver) (k : Kernel) :
    (freeTemp allow bound k).2.zram0 = k.zram0 := by
  unfold freeTemp
  split <;> rfl

theorem tempTest_zram0 (e : VerifyEnv) (a : Algo) (before : Option ℕ) (bound : Option Driver)
    (k : Kernel) : (tempTest e a before bound k).kernel.zram0 = k.zram0 := by
  unfold tempTest
  by_cases hsel : bound.isSome = true ∨ e.select a = false
  · rw [if_pos hsel]
    exact freeTemp_zram0 _ _ _
  · rw [if_neg hsel]
    dsimp only
    rw [freeTemp_zram0]
    split_ifs
    · rfl
    · rfl

theorem tempTests_zram0 (e : VerifyEnv) (k : Kernel) : (tempTests e k).2.zram0 = k.zram0 := by
  unfold tempTests
  dsimp only
  rw [freeTemp_zram0, tempTest_zram0, tempTest_zram0]

/-- `verify.sh` does not touch zram0. -/
theorem verify_zram0 (e : VerifyEnv) (d : ModuleDir) (k : Kernel) :
    (verify e d k).kernel.zram0 = k.zram0 := by
  unfold verify
  split_ifs
  · rfl
  · rfl
  · rfl
  · exact tempTests_zram0 e k

/-- PASS means that the name of zram0 is the one in `zram_algo`. -/
theorem verify_pass {e : VerifyEnv} {d : ModuleDir} {k : Kernel} {a : Algo}
    (hword : d.algoWord = a.word) (hpass : (verify e d k).verdict = .pass) :
    k.zram0.compAlgo = .of a := by
  have hw : Choice.ofWord d.algoWord = some (.algo a) := Choice.ofWord_eq_some.mpr hword
  unfold verify at hpass
  split_ifs at hpass with h₁ h₂ h₃
  dsimp only at hpass
  split_ifs at hpass with h₄
  obtain ⟨-, hcheck⟩ := List.append_eq_nil_iff.mp (List.isEmpty_iff.mp h₄)
  unfold zram0Complaints at hcheck
  rw [hw, tempTests_zram0] at hcheck
  dsimp only at hcheck
  split_ifs at hcheck with hname
  exact hname.2

/-! ## The history of zram0 -/

/-- The kernel in which the size of zram0 was last written, unless the device was made new or reset
since; `last` is the answer so far. -/
def lastSized (k : Kernel) (last : Option Kernel) : List Event → Option Kernel
  | [] => last
  | e :: es =>
    match k.step e with
    | none => last
    | some k' =>
      match e with
      | .disksize _ => lastSized k' (some k) es
      | .create _ => lastSized k' none es
      | .reset _ => lastSized k' none es
      | _ => lastSized k' last es

/-- The contexts of zram0 are those made when its size was written, under the name it still has. -/
def BoundBy (k : Kernel) : Option Kernel → Prop
  | none => k.zram0.ctxs = []
  | some k₀ => k.zram0.ctxs = List.replicate k₀.ncpu (k₀.lookup k.zram0.compAlgo) ∧
      0 < k.zram0.disksize

/-- One event keeps the contexts and the name of a zram0 that has its size. -/
theorem step_keeps_bound {k k' : Kernel} {e : Event} (h : k.step e = some k')
    (hsize : ∀ n, e ≠ .disksize n) (hcreate : ∀ c, e ≠ .create c) (hreset : ∀ c, e ≠ .reset c) :
    k'.zram0.ctxs = k.zram0.ctxs ∧ k'.zram0.disksize = k.zram0.disksize ∧
      (k'.zram0.compAlgo = k.zram0.compAlgo ∨ k.zram0.disksize = 0) := by
  cases e with
  | disksize n => exact absurd rfl (hsize n)
  | create c => exact absurd rfl (hcreate c)
  | reset c => exact absurd rfl (hreset c)
  | compAlgorithm c =>
    rw [Kernel.step] at h
    split_ifs at h with hc
    cases h
    exact ⟨rfl, rfl, .inr hc.2⟩
  | swapoff | mkswap | swapon | insmod _ | release _ _ =>
    rw [Kernel.step] at h
    split_ifs at h
    cases h
    exact ⟨rfl, rfl, .inl rfl⟩
  | rmmod a =>
    rw [Kernel.step] at h
    split_ifs at h
    cases h
    exact ⟨rfl, rfl, .inl rfl⟩
  | hold c n =>
    rw [Kernel.step] at h
    cases h
    exact ⟨rfl, rfl, .inl rfl⟩

theorem step_boundBy {k k' : Kernel} {e : Event} (h : k.step e = some k') {last : Option Kernel}
    (hb : BoundBy k last) :
    BoundBy k' (lastSized k last [e]) := by
  have hstay : (∀ n, e ≠ .disksize n) → (∀ c, e ≠ .create c) → (∀ c, e ≠ .reset c) →
      BoundBy k' last := by
    intro h₁ h₂ h₃
    obtain ⟨hctx, hds, hname⟩ := step_keeps_bound h h₁ h₂ h₃
    cases last with
    | none => exact hctx.trans hb
    | some k₀ =>
      have hname := hname.resolve_right (Nat.pos_iff_ne_zero.mp hb.2)
      refine ⟨?_, by rw [hds]; exact hb.2⟩
      rw [hctx, hname]
      exact hb.1
  unfold lastSized
  rw [h]
  cases e with
  | disksize n =>
    rw [Kernel.step] at h
    split_ifs at h with hc
    cases h
    exact ⟨rfl, hc.2.2⟩
  | create c =>
    rw [Kernel.step] at h
    split_ifs at h
    cases h
    rfl
  | reset c =>
    rw [Kernel.step] at h
    split_ifs at h
    cases h
    rfl
  | swapoff | mkswap | swapon | compAlgorithm _ | insmod _ | rmmod _ | hold _ _ | release _ _ =>
    exact hstay (by simp) (by simp) (by simp)

/-- Along every run, zram0 holds exactly the contexts of the last time its size was written. -/
theorem runAll_boundBy {es : List Event} {k k' : Kernel} (h : runAll Kernel.step k es = some k')
    (last : Option Kernel) (hb : BoundBy k last) : BoundBy k' (lastSized k last es) := by
  induction es generalizing k last with
  | nil =>
    cases h
    exact hb
  | cons e es ih =>
    obtain ⟨k₁, h₁, h₂⟩ := Option.bind_eq_some_iff.mp h
    have hstep := ih h₂ _ (step_boundBy h₁ hb)
    have hcons : lastSized k last (e :: es) = lastSized k₁ (lastSized k last [e]) es := by
      rw [lastSized, lastSized, h₁]
      cases e <;> rfl
    rw [hcons]
    exact hstep

/-- **Soundness of PASS**: after any history from boot, a PASS of `verify.sh` with `lz4` or `zstd`
in `zram_algo` means that zram0 is served by the new driver, exactly if that driver was registered
when the size of zram0 was last written. -/
theorem verify_pass_served_iff {ncpu : ℕ} (h : 0 < ncpu) {es : List Event} {k : Kernel}
    (hrun : runAll Kernel.step (Kernel.boot ncpu h) es = some k) {a : Algo} {d : ModuleDir}
    (hword : d.algoWord = a.word) {e : VerifyEnv} (hpass : (verify e d k).verdict = .pass) :
    (verify e d k).kernel.ServedBy a ↔
      ∀ k₀, lastSized (Kernel.boot ncpu h) none es = some k₀ → k₀.registered a = true := by
  have hb := runAll_boundBy hrun none rfl
  have hname := verify_pass hword hpass
  unfold Kernel.ServedBy
  rw [verify_zram0]
  cases hl : lastSized (Kernel.boot ncpu h) none es with
  | none =>
    rw [hl] at hb
    have hnil : k.zram0.ctxs = [] := hb
    rw [hnil]
    exact iff_of_true (fun _ hm => nomatch hm) fun _ hm => nomatch hm
  | some k₀ =>
    rw [hl] at hb
    have hctx := hb.1
    rw [hname] at hctx
    rw [hctx, Kernel.bound_new_iff]
    constructor
    · rintro ⟨-, hr⟩ k₁ hk₁
      cases hk₁
      exact hr
    · intro hr
      exact ⟨rfl, hr k₀ rfl⟩

/-- A world in which `verify.sh` meets no obstacle. -/
def clear : VerifyEnv :=
  { krel := "6.6.118-4k".toList
    nulEnds := false
    ko := fun _ => some modinfo
    hotAddReadable := true
    hotAdd := some 1
    select := fun _ => true
    size := fun _ => true
    reset := fun _ => true
    hotRemove := true
    crypto := fun _ => true
    before := fun _ => true
    after := fun _ => true
    compAlgorithm := true }

/-- Both modules in before zram0 gets its size. -/
def early : List Event :=
  [.insmod .lz4, .insmod .zstd, .create (.of .lz4), .disksize 65536, .mkswap, .swapon]

theorem verify_pass_served_early :
    (verify clear (edited ⟨1, 1⟩ []) (phone early)).kernel.ServedBy .lz4 := by
  have hrun : runAll Kernel.step (Kernel.boot 1 Nat.one_pos) early = some (phone early) := rfl
  refine (verify_pass_served_iff Nat.one_pos hrun (a := .lz4) rfl rfl).mpr ?_
  intro k₀ hk₀
  cases hk₀
  rfl

/-- zram0 set up on the built-in lz4 before the modules came in: PASS. -/
theorem verify_pass_builtin :
    ¬∀ (e : VerifyEnv) (d : ModuleDir) (k : Kernel) (a : Algo), k.Reachable → d.enabled = true →
      d.algoWord = a.word → (verify e d k).verdict = .pass → (verify e d k).kernel.ServedBy a := by
  intro h
  have hserved := h clear (edited ⟨1, 1⟩ []) (phone swapping) .lz4
    (phone_reachable rfl) rfl rfl rfl
  exact absurd hserved (by decide)

/-! ## The exit status -/

section ExitStatus

variable {e : VerifyEnv} {d : ModuleDir} {k : Kernel} {a b : Algo} {n : ℕ}

/-- Step 0 complains about both modules, whatever they are. -/
theorem koComplaints_eq (e : VerifyEnv) : koComplaints e = [.koMismatch .zstd, .koMismatch .lz4] := by
  have hne : ∀ a ∈ [Algo.zstd, .lz4],
      decide (checkKo e.krel (koVermagic e.nulEnds (e.ko a)) ≠ .ok) = true := fun a _ =>
    decide_eq_true (checkKo_ne_ok _ _ _)
  rw [koComplaints, List.filter_eq_self.mpr hne]
  rfl

theorem driverComplaints_eq_nil :
    driverComplaints e k = [] ↔ ∀ a, e.crypto a = true ∧ k.registered a = true := by
  rw [driverComplaints, List.map_eq_nil_iff, List.filter_eq_nil_iff]
  constructor
  · intro h a
    have ha := h a (by cases a <;> simp)
    simpa using ha
  · intro h a _
    simp [h a]

theorem zram0Complaints_eq_nil : zram0Complaints e d k = [] ↔
    ∀ a : Algo, d.algoWord = a.word → e.compAlgorithm = true ∧ k.zram0.compAlgo = .of a := by
  rw [zram0Complaints]
  constructor
  · intro h a hword
    rw [Choice.ofWord_eq_some.mpr (show d.algoWord = (Choice.algo a).word from hword)] at h
    dsimp only at h
    split_ifs at h with hname
    exact hname
  · intro h
    rcases hw : Choice.ofWord d.algoWord with _ | a | _
    · rfl
    · exact if_pos (h a (Choice.ofWord_eq_some.mp hw))
    · rfl

/-- Contexts taken under the name of `a` show in the refcnt of its driver, and in no other. -/
theorem hold_refcnt (hr : k.registered a = true) (n : ℕ) :
    (k.hold (.of a) n).refcnt a = (k.refcnt a).map (· + n) := by
  rw [Kernel.refcnt, Kernel.refcnt, if_pos hr, if_pos (show (k.hold _ n).registered a = true from hr),
    Option.map_some]
  have hheld : (k.hold (.of a) n).holders (.new a) = k.holders (.new a) + n := by
    show Function.update k.holders (k.lookup (.of a)) (k.holders (k.lookup (.of a)) + n) _ = _
    rw [Kernel.lookup_of hr, Function.update_self]
  rw [hheld, ← Nat.add_assoc]
  rfl

theorem hold_refcnt_ne (h : b ≠ a) : (k.hold (.of a) n).refcnt b = k.refcnt b := by
  have hne : Driver.new b ≠ k.lookup (.of a) := by
    intro heq
    obtain ⟨hab, -⟩ := Kernel.lookup_new heq.symm
    cases hab
    exact h rfl
  have hheld : (k.hold (.of a) n).holders (.new b) = k.holders (.new b) :=
    Function.update_of_ne hne ..
  rw [Kernel.refcnt, Kernel.refcnt, hheld]
  rfl

theorem freeTemp_refcnt {allow : Bool} {bound : Option Driver} (h : bound ≠ some (.new b)) :
    (freeTemp allow bound k).2.refcnt b = k.refcnt b := by
  unfold freeTemp
  split
  · next d =>
    have hne : Driver.new b ≠ d := fun heq => h (by rw [heq])
    have hheld : (k.release d k.ncpu).holders (.new b) = k.holders (.new b) :=
      Function.update_of_ne hne ..
    rw [Kernel.refcnt, Kernel.refcnt, hheld]
    rfl
  · rfl

theorem freeTemp_registered (allow : Bool) (bound : Option Driver) (k : Kernel) :
    (freeTemp allow bound k).2.registered = k.registered := by
  unfold freeTemp
  split <;> rfl

/-- An experiment leaves the other driver as it was. -/
theorem tempTest_other (before : Option ℕ) (h : b ≠ a) :
    (tempTest e a before none k).kernel.registered = k.registered ∧
      (tempTest e a before none k).kernel.refcnt b = k.refcnt b := by
  unfold tempTest
  by_cases hsel : (none : Option Driver).isSome = true ∨ e.select a = false
  · rw [if_pos hsel]
    exact ⟨freeTemp_registered _ _ _, freeTemp_refcnt (fun hb => nomatch hb)⟩
  · rw [if_neg hsel]
    dsimp only
    by_cases hsize : e.size a = true
    · rw [if_pos hsize, if_pos hsize]
      have hne : some (k.lookup (.of a)) ≠ some (.new b) := by
        intro heq
        obtain ⟨hab, -⟩ := Kernel.lookup_new (Option.some.inj heq)
        cases hab
        exact h rfl
      exact ⟨freeTemp_registered _ _ _, (freeTemp_refcnt hne).trans (hold_refcnt_ne h)⟩
    · rw [if_neg hsize, if_neg hsize]
      exact ⟨freeTemp_registered _ _ _, freeTemp_refcnt (fun hb => nomatch hb)⟩

/-- An experiment has something to count: the writes go through and both counters can be read. -/
def Proves (e : VerifyEnv) (a : Algo) : Prop :=
  e.select a = true ∧ e.size a = true ∧ e.before a = true ∧ e.after a = true

/-- The count goes up exactly when the device got its size, both counters could be read and the
driver is registered; `k₀` is the kernel of the first count. -/
theorem refcntRose_iff {k₀ : Kernel} (hr : k.registered a = k₀.registered a)
    (hc : k.refcnt a = k₀.refcnt a) :
    refcntRose (readRefcnt (e.before a) k₀ a)
        (readRefcnt (e.after a) (if e.size a = true then k.hold (.of a) k.ncpu else k) a) = true ↔
      e.size a = true ∧ e.before a = true ∧ e.after a = true ∧ k₀.registered a = true := by
  by_cases hreg : k₀.registered a = true
  · have hcount : k₀.refcnt a = some (1 + k₀.zram0.ctxs.count (.new a) + k₀.holders (.new a)) := by
      rw [Kernel.refcnt, if_pos hreg]
    have hpos := k.ncpu_pos
    by_cases hsize : e.size a = true
    · rw [if_pos hsize, readRefcnt, readRefcnt, hold_refcnt (hr.trans hreg), hc, hcount]
      cases e.before a <;> cases e.after a <;> simp [refcntRose, hsize, hreg, hpos]
    · rw [if_neg hsize, readRefcnt, readRefcnt, hc, hcount]
      cases e.before a <;> cases e.after a <;> simp [refcntRose, hsize]
  · have hnone : k₀.refcnt a = none := by rw [Kernel.refcnt, if_neg hreg]
    rw [readRefcnt, hnone, ite_self]
    refine iff_of_false ?_ (fun h => hreg h.2.2.2)
    unfold refcntRose
    split <;> simp_all

/-- **An experiment** passes exactly when the device took the name and a size, both counters could
be read, and the driver is registered. -/
theorem tempTest_complaints {bound : Option Driver} {k₀ : Kernel} (hr : k.registered a = k₀.registered a)
    (hc : k.refcnt a = k₀.refcnt a) :
    (tempTest e a (readRefcnt (e.before a) k₀ a) bound k).complaints = [] ↔
      bound = none ∧ Proves e a ∧ k₀.registered a = true := by
  have hrose := refcntRose_iff (e := e) hr hc
  unfold tempTest
  by_cases hsel : bound.isSome = true ∨ e.select a = false
  · rw [if_pos hsel]
    refine iff_of_false (fun h => nomatch h) ?_
    rintro ⟨rfl, hp, -⟩
    rcases hsel with hsome | hno
    · cases hsome
    · rw [hp.1] at hno
      cases hno
  · obtain ⟨hnone, hyes⟩ := not_or.mp hsel
    have hb : bound = none := by simpa using hnone
    have hs : e.select a = true := by simpa using hyes
    rw [if_neg hsel]
    dsimp only
    set rise := refcntRose (readRefcnt (e.before a) k₀ a)
        (readRefcnt (e.after a) (if e.size a = true then k.hold (.of a) k.ncpu else k) a)
    by_cases hrise : rise = true
    · rw [if_pos hrise]
      obtain ⟨h1, h2, h3, h4⟩ := hrose.mp hrise
      exact iff_of_true rfl ⟨hb, ⟨hs, h1, h2, h3⟩, h4⟩
    · rw [if_neg hrise]
      refine iff_of_false (fun h => nomatch h) ?_
      rintro ⟨-, ⟨-, h1, h2, h3⟩, h4⟩
      exact hrise (hrose.mpr ⟨h1, h2, h3, h4⟩)

/-- A device that got a size loses it again only by an accepted reset. -/
theorem tempTest_bound {before : Option ℕ} (h : Proves e a) :
    (tempTest e a before none k).bound = none ↔ e.reset a = true := by
  obtain ⟨hsel, hsize, -, -⟩ := h
  have hgo : ¬((none : Option Driver).isSome = true ∨ e.select a = false) := by simp [hsel]
  unfold tempTest
  rw [if_neg hgo]
  dsimp only
  rw [if_pos hsize, if_pos hsize]
  unfold freeTemp
  cases e.reset a <;> simp

/-- Section 3 is silent when both experiments pass and the device is reset in between. -/
theorem tempTests_eq_nil : (tempTests e k).1 = [] ↔
    (∀ a, Proves e a ∧ k.registered a = true) ∧ e.reset .zstd = true := by
  have hother : Algo.lz4 ≠ Algo.zstd := by decide
  obtain ⟨hreg, hcount⟩ := tempTest_other (e := e) (k := k) (readRefcnt (e.before .zstd) k .zstd)
    hother
  unfold tempTests
  dsimp only
  rw [List.append_eq_nil_iff, tempTest_complaints rfl rfl,
    tempTest_complaints (congrFun hreg .lz4) hcount]
  constructor
  · rintro ⟨⟨-, hz, hzr⟩, hb, hl, hlr⟩
    refine ⟨fun a => ?_, (tempTest_bound hz).mp hb⟩
    cases a with
    | lz4 => exact ⟨hl, hlr⟩
    | zstd => exact ⟨hz, hzr⟩
  · rintro ⟨hall, hreset⟩
    obtain ⟨hz, hzr⟩ := hall .zstd
    obtain ⟨hl, hlr⟩ := hall .lz4
    exact ⟨⟨rfl, hz, hzr⟩, (tempTest_bound hz).mpr hreset, hl, hlr⟩

/-- Nothing for the sections 2, 3 and 5 to complain about. -/
structure Clean (e : VerifyEnv) (d : ModuleDir) (k : Kernel) : Prop where
  drivers : ∀ a, e.crypto a = true ∧ k.registered a = true
  proves : ∀ a, Proves e a
  reset : e.reset .zstd = true
  zram0 : ∀ a : Algo, d.algoWord = a.word → e.compAlgorithm = true ∧ k.zram0.compAlgo = .of a

theorem clearing_eq_nil :
    driverComplaints e k ++ (tempTests e k).1 ++ zram0Complaints e d (tempTests e k).2 = [] ↔
      Clean e d k := by
  rw [List.append_eq_nil_iff, List.append_eq_nil_iff, driverComplaints_eq_nil, tempTests_eq_nil,
    zram0Complaints_eq_nil, tempTests_zram0]
  constructor
  · rintro ⟨⟨hd, hp, hr⟩, hz⟩
    exact ⟨hd, fun a => (hp a).1, hr, hz⟩
  · rintro ⟨hd, hp, hr, hz⟩
    exact ⟨⟨hd, fun a => ⟨hp a, (hd a).2⟩, hr⟩, hz⟩

/-- **When the exit status is honest**: only where the script does not exit 0, since step 0 always
complains.  It exits 0 where `hot_add` cannot be read, whatever it found before, and where the
sections 2, 3 and 5 have nothing to complain about. -/
theorem verify_exit_honest_iff (hd : d.enabled = true) :
    ((verify e d k).verdict.exitCode = 0 → (verify e d k).complaints = []) ↔
      e.hotAddReadable = true ∧ (e.hotAdd.all (· = 0) = true ∨ ¬Clean e d k) := by
  have hko : ∀ l, koComplaints e ++ l ≠ [] := by
    intro l
    rw [koComplaints_eq]
    exact List.cons_ne_nil _ _
  unfold verify
  rw [if_neg (by simp [hd])]
  by_cases hread : e.hotAddReadable = true
  · rw [if_neg (by simp [hread])]
    by_cases hid : e.hotAdd.all (· = 0) = true
    · rw [if_pos hid]
      exact iff_of_true (fun h => nomatch h) ⟨hread, .inl hid⟩
    · rw [if_neg hid]
      dsimp only
      by_cases hclean : Clean e d k
      · rw [clearing_eq_nil.mpr hclean]
        refine iff_of_false (fun h => hko _ (h rfl)) ?_
        rintro ⟨-, hbad | hdirty⟩
        · exact hid hbad
        · exact hdirty hclean
      · have hne := mt clearing_eq_nil.mp hclean
        rw [if_neg (by simpa using hne)]
        exact iff_of_true (fun h => nomatch h) ⟨hread, .inr hclean⟩
  · rw [if_pos (by simpa using hread)]
    exact iff_of_false (fun h => hko _ (h rfl)) fun h => hread h.1

end ExitStatus

/-- zstd cannot be selected on the temporary device: FAIL, and exit status 1. -/
theorem verify_exit_honest_refused :
    let r := verify { clear with select := fun a => a = .lz4 } (edited ⟨1, 1⟩ []) (phone early)
    r.verdict.exitCode = 1 ∧ (r.verdict.exitCode = 0 → r.complaints = []) := by
  refine ⟨rfl, (verify_exit_honest_iff rfl).mpr ⟨rfl, .inr fun h => ?_⟩⟩
  have hsel := (h.proves .zstd).1
  exact absurd hsel (by decide)

/-- The package of another kernel on a phone that has the drivers in: both modules FAIL, exit 0.
No driver registered and no `hot_add`: two are MISSING, exit 0. -/
theorem verify_exit_dishonest :
    ((verify { clear with krel := "6.6.57-4k".toList } (edited ⟨1, 1⟩ []) (phone early)).verdict.exitCode
        = 0 ∧
      (verify { clear with krel := "6.6.57-4k".toList } (edited ⟨1, 1⟩ [])
        (phone early)).complaints ≠ []) ∧
    (verify { clear with hotAddReadable := false } (edited ⟨1, 1⟩ []) (phone [])).verdict.exitCode = 0 ∧
      .driverMissing .lz4 ∈
        (verify { clear with hotAddReadable := false } (edited ⟨1, 1⟩ []) (phone [])).complaints := by
  refine ⟨⟨rfl, ?_⟩, rfl, ?_⟩
  · decide
  · decide

end ZramUpgrade.Zram
