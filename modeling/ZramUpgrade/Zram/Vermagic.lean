import ZramUpgrade.Lib.Text
import ZramUpgrade.Zram.Install

/-!
# Zram.Vermagic — the vermagic of a `.ko`, and step 0 of `verify.sh`

`ko_vermagic` of `verify.sh` and `kc_ko_vermagic` of `kernel-check.sh` are the same pipeline.  It
stops at the blank behind the release, so no blank is ever in what it prints; step 0 asks for the
running release with a blank behind it.
-/

namespace ZramUpgrade.Zram

open Lib

abbrev NUL : Char := Char.ofNat 0

/-- `$( )`: the shell drops NUL bytes and the newlines at the end. -/
def commandSubst (t : Text) : Text := (t.filter (· ≠ NUL)).rdropWhile (· = '\n')

def vermagicKey : Text := "vermagic=".toList

/-- What `[^ ]*` does not run over.  For BusyBox a line ends at a NUL too (`nulEnds`). -/
def endsRelease (nulEnds : Bool) (c : Char) : Bool :=
  c == ' ' || c == '\n' || nulEnds && c == NUL

/-- `ko_vermagic`; `none` is a file that cannot be read. -/
def koVermagic (nulEnds : Bool) (ko : Option Text) : Text :=
  commandSubst (unlines '\n'
    ((sedStrip vermagicKey (grepO vermagicKey (endsRelease nulEnds) 0 (ko.getD []))).take 1))

/-- `kc_ko_vermagic`; the scripts that use it run under BusyBox. -/
def kcKoVermagic (ko : Option Text) : Text := koVermagic true ko

/-- The line of step 0 about one `.ko`. -/
inductive KoLine where
  | ok
  | unreadable
  | mismatch (vm : Text)
  deriving DecidableEq

/-- The `case "$vm" in "$KREL "*) … "") … *) …`. -/
def checkKo (krel vm : Text) : KoLine :=
  if krel ++ [' '] <+: vm then .ok else if vm = [] then .unreadable else .mismatch vm

/-! ## What the pipeline prints -/

section Pipeline

variable {ko release : Text}

theorem commandSubst_line {l : Text} (h : '\n' ∉ l) :
    commandSubst (l ++ ['\n']) = l.filter (· ≠ NUL) := by
  have hnl : ('\n' : Char) ≠ NUL := by decide
  rw [commandSubst, List.filter_append, List.filter_cons_of_pos (by simpa using hnl),
    List.filter_nil, List.rdropWhile_concat_pos _ _ _ (by simp), List.rdropWhile_eq_self_iff]
  intro hne hlast
  have hmem := List.mem_of_mem_filter (List.getLast_mem hne)
  rw [of_decide_eq_true hlast] at hmem
  exact h hmem

/-- The symbols of a run. -/
theorem ne_of_mem_run {nulEnds : Bool} {after : Text} {c : Char}
    (h : c ∈ after.takeWhile (!endsRelease nulEnds ·)) :
    c ≠ ' ' ∧ c ≠ '\n' ∧ (nulEnds = true → c ≠ NUL) := by
  have hrun := List.mem_takeWhile_imp h
  simp only [endsRelease, Bool.not_eq_true', Bool.or_eq_false_iff, beq_eq_false_iff_ne, ne_eq,
    Bool.and_eq_false_iff] at hrun
  obtain ⟨⟨hblank, hnl⟩, hnul⟩ := hrun
  refine ⟨hblank, hnl, fun hn => ?_⟩
  rcases hnul with hf | hc
  · exact absurd hn (by simp [hf])
  · exact hc

/-- **The pipeline** prints the run behind the first `vermagic=`, without its NUL bytes. -/
theorem koVermagic_eq (nulEnds : Bool) (ko : Option Text) :
    koVermagic nulEnds ko = match afterFirst vermagicKey (ko.getD []) with
      | none => []
      | some after => (after.takeWhile (!endsRelease nulEnds ·)).filter (· ≠ NUL) := by
  have hhead := grepStrip_head? vermagicKey (endsRelease nulEnds) (ko.getD [])
  rw [koVermagic]
  set ls := sedStrip vermagicKey (grepO vermagicKey (endsRelease nulEnds) 0 (ko.getD [])) with hls
  cases ha : afterFirst vermagicKey (ko.getD []) with
  | none =>
    rw [ha, Option.map_none, List.head?_eq_none_iff] at hhead
    rw [hhead]
    rfl
  | some after =>
    rw [ha, Option.map_some] at hhead
    obtain ⟨ms, hms⟩ := List.head?_eq_some_iff.mp hhead
    have hline : '\n' ∉ after.takeWhile (!endsRelease nulEnds ·) := fun hmem =>
      (ne_of_mem_run hmem).2.1 rfl
    have hone : ∀ l : Text, unlines '\n' ((l :: ms).take 1) = l ++ ['\n'] := fun l => by
      rw [List.take_succ_cons, List.take_zero, unlines, List.flatMap_singleton]
    rw [hms, hone]
    exact commandSubst_line hline

/-- The first `vermagic=` of the file is the modinfo entry `vermagic=<release> <rest>`. -/
structure HasVermagic (ko release : Text) : Prop where
  entry : ∃ pre rest, FirstAt vermagicKey ko pre (release ++ ' ' :: rest)
  blank : ' ' ∉ release

/-- `kc_ko_vermagic` extracts the release of such a file, if it is a string of one line. -/
theorem kcKoVermagic_eq_iff (h : HasVermagic ko release) :
    kcKoVermagic (some ko) = release ↔ '\n' ∉ release ∧ NUL ∉ release := by
  obtain ⟨⟨pre, rest, hfirst⟩, hblank⟩ := h
  rw [kcKoVermagic, koVermagic_eq, Option.getD_some, afterFirst_eq_some (by decide) hfirst]
  dsimp only
  constructor
  · intro heq
    refine ⟨fun hmem => ?_, fun hmem => ?_⟩
    · rw [← heq] at hmem
      exact (ne_of_mem_run (List.mem_of_mem_filter hmem)).2.1 rfl
    · rw [← heq] at hmem
      have hrun := List.of_mem_filter hmem
      simp at hrun
  · rintro ⟨hnl, hnul⟩
    have hne : ∀ c ∈ release, c ≠ ' ' ∧ c ≠ '\n' ∧ c ≠ NUL := fun c hc =>
      ⟨fun h => hblank (h ▸ hc), fun h => hnl (h ▸ hc), fun h => hnul (h ▸ hc)⟩
    have hrun : ∀ c ∈ release, endsRelease true c = false := by
      intro c hc
      obtain ⟨h1, h2, h3⟩ := hne c hc
      simp [endsRelease, h1, h2, h3]
    rw [takeWhile_run hrun rfl, List.filter_eq_self]
    intro c hc
    simpa using (hne c hc).2.2

theorem blank_not_mem_koVermagic (nulEnds : Bool) (ko : Option Text) :
    ' ' ∉ koVermagic nulEnds ko := by
  rw [koVermagic_eq]
  cases afterFirst vermagicKey (ko.getD []) with
  | none => exact List.not_mem_nil
  | some after =>
    intro hmem
    exact (ne_of_mem_run (List.mem_of_mem_filter hmem)).1 rfl

end Pipeline

/-! ## Step 0 -/

/-- Step 0 never says OK: it looks for a blank that the pipeline has cut off. -/
theorem checkKo_ne_ok (krel : Text) (nulEnds : Bool) (ko : Option Text) :
    checkKo krel (koVermagic nulEnds ko) ≠ .ok := by
  intro h
  rw [checkKo] at h
  split at h
  · next hpre =>
    obtain ⟨rest, hrest⟩ := hpre
    refine blank_not_mem_koVermagic nulEnds ko ?_
    rw [← hrest]
    simp
  · split at h <;> cases h

/-- **When step 0 is right** about a `.ko`, and agrees with the release the install and boot gate
extracts: exactly when that release, a string of one line, is not the running one. -/
theorem step0_right_iff (nulEnds : Bool) (krel : Text) {ko release : Text}
    (h : HasVermagic ko release) :
    ((checkKo krel (koVermagic nulEnds (some ko)) = .ok ↔ release = krel) ∧
        kcKoVermagic (some ko) = release) ↔
      release ≠ krel ∧ '\n' ∉ release ∧ NUL ∉ release := by
  have hno := checkKo_ne_ok krel nulEnds (some ko)
  rw [kcKoVermagic_eq_iff h]
  refine and_congr_left fun _ => ?_
  constructor
  · intro hok heq
    exact hno (hok.mpr heq)
  · intro hne
    exact iff_of_false hno hne

/-- The `.modinfo` of a module for the kernel `6.6.118-4k`. -/
def modinfo : Text := NUL :: "vermagic=6.6.118-4k SMP preempt aarch64".toList

theorem modinfo_vermagic : HasVermagic modinfo "6.6.118-4k".toList := by
  refine ⟨⟨[NUL], "SMP preempt aarch64".toList, rfl, fun p q hpq => ?_⟩, by decide⟩
  cases p with
  | nil =>
    have hhead : some NUL = some 'v' := congrArg List.head? hpq
    exact absurd hhead (by decide)
  | cons c p => exact Nat.le_add_left 1 p.length

/-- On another kernel step 0 says FAIL, as it should. -/
theorem step0_right_other :
    (checkKo "6.6.57-4k".toList (koVermagic false (some modinfo)) = .ok ↔
        "6.6.118-4k".toList = "6.6.57-4k".toList) ∧
      kcKoVermagic (some modinfo) = "6.6.118-4k".toList :=
  (step0_right_iff false "6.6.57-4k".toList modinfo_vermagic).mpr
    ⟨by decide, by decide, by decide⟩

/-- On the kernel it was built for it says FAIL too. -/
theorem step0_refuses_match :
    HasVermagic modinfo "6.6.118-4k".toList ∧
      ¬(checkKo "6.6.118-4k".toList (koVermagic false (some modinfo)) = .ok ↔
        "6.6.118-4k".toList = "6.6.118-4k".toList) := by
  refine ⟨modinfo_vermagic, fun h => ?_⟩
  exact checkKo_ne_ok _ _ _ (h.mpr rfl)

end ZramUpgrade.Zram
