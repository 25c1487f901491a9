import ZramUpgrade.Zram.Install
import ZramUpgrade.Zram.Switch

/-!
# Zram.Boot — one boot: `post-fs-data.sh`, then `service.sh`

Three scripts read `zram_algo` with a `case` statement each.  `post-fs-data.sh` takes a text that is
neither `lz4` nor `zstd` for "leave zram0 alone"; `service.sh` and `zram-algo.sh` take it for `lz4`
unless it is `default`.
-/

namespace ZramUpgrade.Zram

open Lib

/-! ## The scripts -/

/-- `ALGO` in `post-fs-data.sh`; `none` where no algorithm is selected. -/
def postFsDataAlgo (d : ModuleDir) : Option Algo :=
  match Choice.ofWord d.algoWord with
  | some (.algo a) => some a
  | _ => none

/-- `ALGO` in `service.sh`. -/
def serviceAlgo (d : ModuleDir) : Choice :=
  match Choice.ofWord d.algoWord with
  | some (.algo a) => .algo a
  | some .default => .default
  | none => .algo .lz4

/-- `ALGO` in `zram-algo.sh`, whose second argument goes before the file. -/
def zramAlgoAlgo (d : ModuleDir) (arg : Text) : Choice :=
  (Choice.ofWord arg).getD ((Choice.ofWord d.algoWord).getD (.algo .lz4))

/-- What `post-fs-data.sh` finds outside the module directory. -/
structure BootEnv where
  kernelCheck : Bool
  modules : Modules
  systemConf : Bool
  mount : Bool
  remount : Bool

/-- How `post-fs-data.sh` ends. -/
inductive PostFsData where
  | skipped
  | leftAlone
  | noConf
  | bound (compAlgo : Text)
  | notBound
deriving DecidableEq

/-- `post-fs-data.sh`, with the kernel it leaves. -/
def postFsData (e : BootEnv) (d : ModuleDir) (k : Kernel) : PostFsData × Kernel :=
  if d.enabled = false ∨ e.kernelCheck = false then (.skipped, k)
  else
    let k := (load e.modules k).state
    match postFsDataAlgo d with
    | none => (.leftAlone, k)
    | some _ =>
      match d.perfinit with
      | none => (.noConf, k)
      | some c =>
        if e.systemConf = false then (.noConf, k)
        else if e.mount || e.remount then (.bound c, k) else (.notBound, k)

/-- `service.sh`, as far as it touches drivers and zram0. -/
def service (kernelCheck : Bool) (d : ModuleDir) (o : Outcomes) (k : Kernel) : Kernel :=
  if kernelCheck = false then k
  else if d.enabled then
    let k := (load o.modules k).state
    if serviceAlgo d = .default then k else (apply (zramAlgoAlgo d []) o k).state
  else k

/-! ## Agreement -/

/-- (i) What `post-fs-data.sh` leaves alone `service.sh` leaves alone, on any kernel it may find. -/
def LeavesAlone (d : ModuleDir) : Prop :=
  ∀ (e : BootEnv) (k : Kernel), (postFsData e d k).1 = .leftAlone →
    ∀ (o : Outcomes) (k' : Kernel), (service e.kernelCheck d o k').zram0 = k'.zram0

/-- (ii) A bound `perfinit.conf` names the algorithm `service.sh` switches to. -/
def BindsChoice (d : ModuleDir) : Prop :=
  ∀ (e : BootEnv) (k : Kernel) (c : Text), (postFsData e d k).1 = .bound c →
    ∃ a : Algo, c = a.word ∧ serviceAlgo d = .algo a ∧ zramAlgoAlgo d [] = .algo a

/-- The two later scripts read the same algorithm. -/
theorem zramAlgoAlgo_eq (d : ModuleDir) : zramAlgoAlgo d [] = serviceAlgo d := by
  unfold zramAlgoAlgo serviceAlgo
  have h : Choice.ofWord [] = none := rfl
  rw [h, Option.getD_none]
  rcases Choice.ofWord d.algoWord with _ | (a | _)
  · rfl
  · rfl
  · rfl

section Reads

variable {d : ModuleDir}

/-- What the first two scripts make of the text. -/
theorem reads_choice {c : Choice} (hw : Choice.ofWord d.algoWord = some c) : serviceAlgo d = c := by
  unfold serviceAlgo
  rw [hw]
  cases c <;> rfl

theorem reads_algo {a : Algo} (hw : Choice.ofWord d.algoWord = some (.algo a)) :
    postFsDataAlgo d = some a := by
  unfold postFsDataAlgo
  rw [hw]

theorem reads_default (hw : Choice.ofWord d.algoWord = some .default) : postFsDataAlgo d = none := by
  unfold postFsDataAlgo
  rw [hw]

/-- A text that is none of the three words divides them. -/
theorem reads_nothing (hw : Choice.ofWord d.algoWord = none) :
    postFsDataAlgo d = none ∧ serviceAlgo d = .algo .lz4 := by
  unfold postFsDataAlgo serviceAlgo
  rw [hw]
  exact ⟨rfl, rfl⟩

end Reads

/-- `post-fs-data.sh` without a failure outside. -/
def quiet : BootEnv := ⟨true, ⟨fun _ => true, fun _ => true⟩, true, true, true⟩

theorem postFsData_leftAlone {d : ModuleDir} (hd : d.enabled = true) :
    (∃ e k, (postFsData e d k).1 = .leftAlone) ↔ postFsDataAlgo d = none := by
  constructor
  · rintro ⟨e, k, h⟩
    by_contra hne
    obtain ⟨a, ha⟩ := Option.ne_none_iff_exists'.mp hne
    unfold postFsData at h
    rw [ha] at h
    rcases hp : d.perfinit with _ | c
    · rw [hp] at h
      split_ifs at h
    · rw [hp] at h
      dsimp only at h
      split_ifs at h
  · intro h
    refine ⟨quiet, Kernel.boot 1 Nat.one_pos, ?_⟩
    unfold postFsData
    rw [if_neg (by simp [hd, quiet]), h]

theorem postFsData_bound {d : ModuleDir} (hd : d.enabled = true) {c : Text} :
    (∃ e k, (postFsData e d k).1 = .bound c) ↔
      (∃ a, postFsDataAlgo d = some a) ∧ d.perfinit = some c := by
  constructor
  · rintro ⟨e, k, h⟩
    unfold postFsData at h
    rcases ha : postFsDataAlgo d with _ | a
    · rw [ha] at h
      split_ifs at h
    · rcases hp : d.perfinit with _ | c'
      · rw [ha, hp] at h
        split_ifs at h
      · rw [ha, hp] at h
        dsimp only at h
        split_ifs at h
        cases h
        exact ⟨⟨a, rfl⟩, rfl⟩
  · rintro ⟨⟨a, ha⟩, hp⟩
    refine ⟨quiet, Kernel.boot 1 Nat.one_pos, ?_⟩
    unfold postFsData
    rw [if_neg (by simp [hd, quiet]), ha, hp]
    rfl

/-- A service run with `default` touches no device. -/
theorem service_default {kc : Bool} {d : ModuleDir} (h : serviceAlgo d = .default) (o : Outcomes)
    (k : Kernel) : (service kc d o k).zram0 = k.zram0 := by
  unfold service
  rw [if_pos h]
  split_ifs
  · rfl
  · exact (load_sameUsers o.modules k).zram0
  · rfl

/-- A service run with an algorithm rebuilds some zram0: one that has never been set up. -/
theorem service_algo {d : ModuleDir} (hd : d.enabled = true) {a : Algo}
    (h : serviceAlgo d = .algo a) :
    (service true d smooth (phone [.create .other])).zram0 ≠ (phone [.create .other]).zram0 := by
  have hsame := load_sameUsers smooth.modules (phone [.create .other])
  have hready : (load smooth.modules (phone [.create .other])).state.zram0.ready = true := by
    rw [hsame.zram0]
    rfl
  have hlooks : ¬LooksServed (load smooth.modules (phone [.create .other])).state a := by
    intro hl
    have hc := hl.1
    rw [hsame.zram0] at hc
    exact nomatch hc
  have hok := applyRun_ok (r := (a, smooth)) hready
    ⟨fun _ => rfl, rfl, rfl, rfl, rfl, rfl⟩
  have hend := ((endsSwapping_iff (a, smooth) hready).mpr fun hs => hlooks hs.2).1 hok
  unfold service
  rw [if_neg (by decide), if_pos hd, h, if_neg (fun h => nomatch h), zramAlgoAlgo_eq, h]
  intro heq
  have hon := hend.2
  unfold applyRun at hon
  rw [heq] at hon
  exact nomatch hon

/-- **One effective algorithm**: after an installation with the driver option on and any edits of
`zram_algo`, the boot stages agree exactly if the file reads one of the three words and, where it
names an algorithm, the installer was not told another one. -/
theorem boot_agrees_iff (p : Picks) (es : List Edit) (hd : (edited p es).enabled = true) :
    LeavesAlone (edited p es) ∧ BindsChoice (edited p es) ↔
      ∃ c : Choice, (edited p es).algoWord = c.word ∧
        ∀ a b : Algo, c = .algo a → p.choice = .algo b → a = b := by
  obtain ⟨hen, hconf⟩ := edited_frame p es
  rw [install_perfinit (hen ▸ hd)] at hconf
  generalize edited p es = d at hd hconf
  constructor
  · rintro ⟨hi, hii⟩
    rcases hw : Choice.ofWord d.algoWord with _ | c
    · -- no word of the three: the first script leaves alone what the others rebuild
      obtain ⟨hpost, hserv⟩ := reads_nothing hw
      obtain ⟨e, k, he⟩ := (postFsData_leftAlone hd).mpr hpost
      have hkc : e.kernelCheck = true := by
        by_contra hf
        unfold postFsData at he
        rw [if_pos (.inr (Bool.eq_false_of_not_eq_true hf))] at he
        exact nomatch he
      have hkeep := hi e k he smooth (phone [.create .other])
      rw [hkc] at hkeep
      exact absurd hkeep (service_algo hd hserv)
    · refine ⟨c, Choice.ofWord_eq_some.mp hw, ?_⟩
      rintro a b rfl hb
      rw [hb] at hconf
      obtain ⟨e, k, he⟩ := (postFsData_bound hd).mpr ⟨⟨a, reads_algo hw⟩, hconf⟩
      obtain ⟨a', ha', hs, -⟩ := hii e k _ he
      rw [reads_choice hw] at hs
      cases hs
      exact (Algo.word_injective ha').symm
  · rintro ⟨c, hw, hc⟩
    have hw := Choice.ofWord_eq_some.mpr hw
    cases c with
    | default =>
      refine ⟨fun e k _ o k' => service_default (reads_choice hw) o k', fun e k t he => ?_⟩
      obtain ⟨⟨a, ha⟩, -⟩ := (postFsData_bound hd).mp ⟨e, k, he⟩
      rw [reads_default hw] at ha
      exact nomatch ha
    | algo a =>
      have hserv := reads_choice hw
      refine ⟨fun e k he => ?_, fun e k t he => ?_⟩
      · have hnone := (postFsData_leftAlone hd).mp ⟨e, k, he⟩
        rw [reads_algo hw] at hnone
        exact nomatch hnone
      · obtain ⟨-, hp⟩ := (postFsData_bound hd).mp ⟨e, k, he⟩
        rw [hp] at hconf
        refine ⟨a, ?_, hserv, (zramAlgoAlgo_eq d).trans hserv⟩
        cases hb : p.choice with
        | default => rw [hb] at hconf; exact nomatch hconf
        | algo b =>
          rw [hb] at hconf
          rw [hc a b rfl hb]
          exact Option.some.inj hconf

/-- The driver option on, zstd picked; `zram_algo` removed, and `zstd` written into it again with an
end of line. -/
theorem boot_agrees_rewritten :
    LeavesAlone (edited ⟨1, 2⟩ [.remove, .write (Algo.zstd.word ++ ['\n'])]) ∧
      BindsChoice (edited ⟨1, 2⟩ [.remove, .write (Algo.zstd.word ++ ['\n'])]) :=
  (boot_agrees_iff ⟨1, 2⟩ [.remove, .write (Algo.zstd.word ++ ['\n'])] rfl).mpr
    ⟨.algo .zstd, rfl, fun _ _ h₁ h₂ => by cases h₁; cases h₂; rfl⟩

/-- Either half fails: for a removed `zram_algo`, and for `zstd` written after lz4 was picked. -/
theorem boot_disagrees :
    (¬∀ (p : Picks) (es : List Edit), (edited p es).enabled = true → LeavesAlone (edited p es)) ∧
      ¬∀ (p : Picks) (es : List Edit), (edited p es).enabled = true → BindsChoice (edited p es) := by
  constructor
  · intro h
    have hkeep := h ⟨1, 3⟩ [.remove] rfl quiet (Kernel.boot 1 Nat.one_pos) rfl smooth
      (phone [.create .other])
    exact service_algo (d := edited ⟨1, 3⟩ [.remove]) rfl rfl hkeep
  · intro h
    obtain ⟨a, hc, hs, -⟩ := h ⟨1, 1⟩ [.write Algo.zstd.word] rfl quiet (Kernel.boot 1 Nat.one_pos)
      Algo.lz4.word rfl
    cases hs
    exact nomatch hc

end ZramUpgrade.Zram
