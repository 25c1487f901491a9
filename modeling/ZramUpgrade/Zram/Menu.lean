import ZramUpgrade.Lib.Loop

/-!
# Zram.Menu — the installer's volume-key menu (`customize.sh`)

`pick_option` never sees the order of the presses: `getevent` appends to a log that keeps growing,
and each poll counts the volume-up lines and later the volume-down lines in it.  A log is the list of
its lines; `Polls` says how many of them are there at each read.
-/

namespace ZramUpgrade.Zram

open Lib

abbrev PICK_TIMEOUT : ℕ := 20

/-- A line of the log: it matches `KEY_UP_PAT` or `KEY_DOWN_PAT` with `DOWN`, or is another one, the
release of a key say. -/
inductive KeyLine where
  | up
  | down
  | other
  deriving DecidableEq, Repr

/-- The lines in the log at each read, in the order of the reads. -/
structure Polls where
  reads : ℕ → ℕ
  mono : Monotone reads

/-- The volume-up count of poll `t`; poll `0` is the baseline. -/
def Polls.upRead (p : Polls) (t : ℕ) : ℕ := p.reads (2 * t)

/-- The volume-down count of poll `t`, after the volume-up count. -/
def Polls.downRead (p : Polls) (t : ℕ) : ℕ := p.reads (2 * t + 1)

/-- `key_count`, with `n` lines in the log. -/
def keyCount (log : List KeyLine) (k : KeyLine) (n : ℕ) : ℕ := (log.take n).count k

def pickShow (opts : List String) (cur : ℕ) : List String :=
  ((opts.take 5).zipIdx 1).map fun (lbl, i) =>
    " " ++ (if i = cur then ">" else "  ") ++ toString i ++ "." ++ lbl

/-- `eval "o=\$PICK_OPT_$i"`. -/
def pickOpt (opts : List String) (i : ℕ) : String := opts.getD (i - 1) ""

/-- `PICKED`, and what `ui_print` printed. -/
structure Pick where
  picked : ℕ
  ui : List String

/-- The variables of the loop; `dn` changes only on the way out. -/
structure PickState where
  t : ℕ
  cur : ℕ
  up : ℕ
  ui : List String

section Menu

variable (opts : List String) (log : List KeyLine) (polls : Polls)

/-- The volume-up half of a round: `if [ "$nu" -gt "$up" ]`. -/
def PickState.advance (st : PickState) (nu : ℕ) : PickState :=
  if st.up < nu then
    let cur := (st.cur - 1 + (nu - st.up)) % opts.length + 1
    { st with cur := cur, up := nu, ui := st.ui ++ pickShow opts cur }
  else st

/-- One round of the `while`. -/
def pickStep (dn : ℕ) (st : PickState) : Step PickState Pick :=
  if st.t ≤ PICK_TIMEOUT then
    let st := st.advance opts (keyCount log .up (polls.upRead st.t))
    let nd := keyCount log .down (polls.downRead st.t)
    if dn < nd then .done ⟨st.cur, st.ui ++ [" => " ++ pickOpt opts st.cur]⟩
    else .next { st with t := st.t + 1 }
  else .done ⟨st.cur, st.ui ++ [" 未按 用:" ++ pickOpt opts st.cur]⟩

def pickStart : PickState where
  t := 1
  cur := 1
  up := keyCount log .up (polls.upRead 0)
  ui := pickShow opts 1 ++ [" 上:切换 下:确认", " " ++ toString PICK_TIMEOUT ++ "秒未按=当前项"]

/-- `pick_option`; without `getevent` it takes the first option. -/
def pickOption (keysOk : Bool) : Option Pick :=
  if keysOk then
    run (pickStep opts log polls (keyCount log .down (polls.downRead 0))) (PICK_TIMEOUT + 1)
      (pickStart opts log polls)
  else some ⟨1, [" ! 无getevent 用:" ++ pickOpt opts 1]⟩

end Menu

/-! ## Counting in a growing log -/

section Counts

variable {log : List KeyLine} {k : KeyLine} {p q r d : ℕ}

/-- The presses of `k` on the lines from `p` up to `q`. -/
def presses (log : List KeyLine) (k : KeyLine) (p q : ℕ) : ℕ := ((log.take q).drop p).count k

/-- The first press of `k` on a line from `base` on. -/
structure FirstPress (log : List KeyLine) (k : KeyLine) (base d : ℕ) : Prop where
  base_le : base ≤ d
  press : log[d]? = some k
  first : ∀ i, base ≤ i → i < d → log[i]? ≠ some k

theorem keyCount_add (log : List KeyLine) (k : KeyLine) (h : p ≤ q) : keyCount log k q = keyCount log k p + presses log k p q := by
  have hsplit : log.take q = log.take p ++ (log.take q).drop p := by
    have htake := List.take_append_drop p (log.take q)
    rw [List.take_take, min_eq_left h] at htake
    exact htake.symm
  rw [keyCount, hsplit, List.count_append]
  rfl

theorem presses_add (hpq : p ≤ q) (hqr : q ≤ r) :
    presses log k p r = presses log k p q + presses log k q r := by
  have h1 := keyCount_add log k hpq
  have h2 := keyCount_add log k hqr
  have h3 := keyCount_add log k (hpq.trans hqr)
  omega

/-- A count grows once the first press is read. -/
theorem FirstPress.counted (h : FirstPress log k p d) (hq : p ≤ q) :
    keyCount log k p < keyCount log k q ↔ d < q := by
  rw [keyCount_add log k hq]
  have hpos : 0 < presses log k p q ↔ d < q := by
    rw [presses, List.count_pos_iff, List.mem_iff_getElem?]
    constructor
    · rintro ⟨i, hi⟩
      rw [List.getElem?_drop, List.getElem?_take] at hi
      split at hi
      · next hlt =>
        by_contra hd
        exact h.first (p + i) (Nat.le_add_right _ _) (by omega) hi
      · cases hi
    · intro hd
      refine ⟨d - p, ?_⟩
      rw [List.getElem?_drop, Nat.add_sub_cancel' h.base_le, List.getElem?_take, if_pos hd]
      exact h.press
  omega

end Counts

/-! ## The loop -/

section Loop

variable {opts : List String} {log : List KeyLine} {polls : Polls} {d T : ℕ}

theorem Polls.upRead_mono (polls : Polls) {t t' : ℕ} (h : t ≤ t') : polls.upRead t ≤ polls.upRead t' :=
  polls.mono (by omega)

theorem Polls.downRead_mono (polls : Polls) {t t' : ℕ} (h : t ≤ t') :
    polls.downRead t ≤ polls.downRead t' :=
  polls.mono (by omega)

/-- Poll `T` is the first whose volume-down count covers line `d`. -/
structure Noticed (polls : Polls) (d T : ℕ) : Prop where
  covered : d < polls.downRead T
  before : ∀ t < T, polls.downRead t ≤ d

/-- A volume-down press after the baseline that the last poll covers: some press is the first one,
and some poll notices it. -/
theorem exists_noticed {i : ℕ} (hpress : log[i]? = some .down) (hbase : polls.downRead 0 ≤ i)
    (hread : i < polls.downRead PICK_TIMEOUT) :
    ∃ d T, FirstPress log .down (polls.downRead 0) d ∧ Noticed polls d T ∧ T ≤ PICK_TIMEOUT := by
  have hex : ∃ d, polls.downRead 0 ≤ d ∧ log[d]? = some .down := ⟨i, hbase, hpress⟩
  have hdi : Nat.find hex ≤ i := Nat.find_min' hex ⟨hbase, hpress⟩
  have hcov : ∃ t, Nat.find hex < polls.downRead t := ⟨PICK_TIMEOUT, by omega⟩
  refine ⟨Nat.find hex, Nat.find hcov, ⟨(Nat.find_spec hex).1, (Nat.find_spec hex).2, ?_⟩, ?_,
    Nat.find_min' hcov (by omega)⟩
  · intro j hj hlt hdown
    exact Nat.find_min hex hlt ⟨hj, hdown⟩
  · refine ⟨Nat.find_spec hcov, fun t ht => ?_⟩
    exact Nat.le_of_not_lt (Nat.find_min hcov ht)

/-- Before poll `st.t`: the presses counted so far have moved the choice on. -/
structure PollInv (opts : List String) (log : List KeyLine) (polls : Polls) (T : ℕ)
    (st : PickState) : Prop where
  t_pos : 1 ≤ st.t
  t_le : st.t ≤ T
  up : st.up = keyCount log .up (polls.upRead (st.t - 1))
  cur : st.cur = 1 + presses log .up (polls.upRead 0) (polls.upRead (st.t - 1)) % opts.length

/-- The choice after a volume-up count, `x` presses on. -/
theorem PickState.advance_spec {st : PickState} {nu a x : ℕ} (hcur : st.cur = 1 + a % opts.length)
    (hnu : nu = st.up + x) :
    (st.advance opts nu).t = st.t ∧ (st.advance opts nu).up = nu ∧
      (st.advance opts nu).cur = 1 + (a + x) % opts.length := by
  rw [PickState.advance]
  split
  · have hx : nu - st.up = x := by omega
    refine ⟨rfl, rfl, ?_⟩
    dsimp only
    rw [hx, hcur, Nat.add_sub_cancel_left, Nat.mod_add_mod, Nat.add_comm]
  · obtain rfl : x = 0 := by omega
    exact ⟨rfl, hnu.symm, hcur⟩

theorem pickStep_good (hT : T ≤ PICK_TIMEOUT)
    (hd : FirstPress log .down (polls.downRead 0) d) (hn : Noticed polls d T) (st : PickState)
    (h : PollInv opts log polls T st) :
    GoodStep (pickStep opts log polls (keyCount log .down (polls.downRead 0)))
      (PollInv opts log polls T) (fun st => PICK_TIMEOUT + 1 - st.t)
      (fun r => r.picked = 1 + presses log .up (polls.upRead 0) (polls.upRead T) % opts.length) st := by
  obtain ⟨ht1, htT, hup, hcur⟩ := h
  have hmono := polls.upRead_mono (show st.t - 1 ≤ st.t by omega)
  have hnu := keyCount_add log .up hmono
  rw [← hup] at hnu
  obtain ⟨ht', hup', hcur'⟩ := PickState.advance_spec hcur hnu
  rw [← presses_add (polls.upRead_mono (Nat.zero_le _)) hmono] at hcur'
  have hnoticed : keyCount log .down (polls.downRead 0) < keyCount log .down (polls.downRead st.t) ↔
      d < polls.downRead st.t := hd.counted (polls.downRead_mono (Nat.zero_le _))
  rw [GoodStep, pickStep, if_pos (show st.t ≤ PICK_TIMEOUT by omega)]
  set st' := st.advance opts (keyCount log .up (polls.upRead st.t)) with hst'
  dsimp only
  rw [ht']
  by_cases hdown : d < polls.downRead st.t
  · rw [if_pos (hnoticed.mpr hdown)]
    have hTt : st.t = T := by
      by_contra hne
      have hle := hn.before st.t (by omega)
      omega
    refine .inr ⟨_, rfl, ?_⟩
    rw [← hTt]
    exact hcur'
  · rw [if_neg (fun hlt => hdown (hnoticed.mp hlt))]
    have htlt : st.t < T := by
      by_contra hge
      have hcov := hn.covered
      have hle := polls.downRead_mono (show T ≤ st.t by omega)
      omega
    exact .inl ⟨_, rfl, ⟨Nat.succ_pos _, htlt, hup', hcur'⟩, by dsimp only; omega⟩

/-- **The menu** takes the presses its volume-up counts have seen by the poll that notices the first
volume-down press. -/
theorem pickOption_spec (opts : List String) (hT : T ≤ PICK_TIMEOUT)
    (hd : FirstPress log .down (polls.downRead 0) d) (hn : Noticed polls d T) :
    ∃ r, pickOption opts log polls true = some r ∧
      r.picked = 1 + presses log .up (polls.upRead 0) (polls.upRead T) % opts.length := by
  have hTpos : 1 ≤ T := by
    by_contra h0
    obtain rfl : T = 0 := by omega
    have hcov := hn.covered
    have hbase := hd.base_le
    omega
  rw [pickOption, if_pos rfl]
  refine run_spec (pickStep_good hT hd hn) _ _ ⟨le_rfl, hTpos, rfl, ?_⟩ ?_
  · have hself : presses log .up (polls.upRead 0) (polls.upRead 0) = 0 := by
      have hcount := keyCount_add log .up (le_refl (polls.upRead 0))
      omega
    show 1 = 1 + presses log .up (polls.upRead 0) (polls.upRead 0) % opts.length
    rw [hself, Nat.zero_mod]
  · show PICK_TIMEOUT + 1 - 1 < PICK_TIMEOUT + 1
    decide

end Loop

/-! ## What was confirmed -/

section Confirm

variable {log : List KeyLine} {polls : Polls} {d T : ℕ}

/-- **When the menu confirms the option the presses lead to**: when the volume-up presses logged
between the first volume-down press and the volume-up count of the poll that notices it, whichever
comes first, are a multiple of the options. -/
theorem pick_confirms_iff (opts : List String) (hT : T ≤ PICK_TIMEOUT)
    (hd : FirstPress log .down (polls.downRead 0) d) (hn : Noticed polls d T) :
    (∃ r, pickOption opts log polls true = some r ∧
        r.picked = 1 + presses log .up (polls.upRead 0) d % opts.length) ↔
      opts.length ∣ presses log .up (min d (polls.upRead T)) (max d (polls.upRead T)) := by
  obtain ⟨r, hr, hpicked⟩ := pickOption_spec opts hT hd hn
  have hread : (∃ r, pickOption opts log polls true = some r ∧
        r.picked = 1 + presses log .up (polls.upRead 0) d % opts.length) ↔
      presses log .up (polls.upRead 0) (polls.upRead T) % opts.length =
        presses log .up (polls.upRead 0) d % opts.length := by
    constructor
    · rintro ⟨r', hr', hp'⟩
      obtain rfl : r = r' := Option.some.inj (hr.symm.trans hr')
      omega
    · intro heq
      exact ⟨r, hr, by rw [hpicked, heq]⟩
  rw [hread]
  have hbase : polls.upRead 0 ≤ d := (polls.mono (by omega)).trans hd.base_le
  rcases le_total d (polls.upRead T) with hle | hle
  · -- the poll saw the volume-down press late: it counted what came after it
    rw [min_eq_left hle, max_eq_right hle, presses_add hbase hle]
    exact Nat.add_modEq_left_iff
  · -- presses after the count of the poll are lost
    rw [min_eq_right hle, max_eq_left hle, presses_add (polls.upRead_mono (Nat.zero_le T)) hle]
    exact eq_comm.trans Nat.add_modEq_left_iff

end Confirm

/-- Every line comes in between read `n` and the next one. -/
def burst (n lines : ℕ) : Polls where
  reads i := if i ≤ n then 0 else lines
  mono := by
    intro i j h
    dsimp only
    split
    · exact Nat.zero_le _
    · rw [if_neg (by omega)]

/-- Volume up twice, then down. -/
def upUpDown : List KeyLine := [.up, .up, .down]

theorem upUpDown_first : FirstPress upUpDown .down 0 2 := by
  refine ⟨Nat.zero_le _, rfl, fun i _ hi => ?_⟩
  interval_cases i
  · exact fun h => nomatch h
  · exact fun h => nomatch h

/-- All three presses before the counts of the first poll: the third option. -/
theorem pick_confirms_third :
    ∃ r, pickOption [" lz4", " zstd", " 不改"] upUpDown (burst 1 3) true = some r ∧ r.picked = 3 := by
  have hnoticed : Noticed (burst 1 3) 2 1 := by
    refine ⟨by decide, fun t ht => ?_⟩
    interval_cases t
    decide
  exact (pick_confirms_iff [" lz4", " zstd", " 不改"] (by decide) upUpDown_first hnoticed).mpr
    (by decide)

/-- The same presses between the two counts of the first poll: the first option, not the third. -/
theorem pick_confirms_other :
    FirstPress upUpDown .down ((burst 2 3).downRead 0) 2 ∧ Noticed (burst 2 3) 2 1 ∧
      1 ≤ PICK_TIMEOUT ∧
      ¬ ∃ r, pickOption [" lz4", " zstd", " 不改"] upUpDown (burst 2 3) true = some r ∧
        r.picked = 1 + presses upUpDown .up ((burst 2 3).upRead 0) 2 % 3 := by
  refine ⟨upUpDown_first, ⟨by decide, fun t ht => ?_⟩, by decide, ?_⟩
  · interval_cases t
    decide
  · rintro ⟨r, hr, hp⟩
    have hone : (pickOption [" lz4", " zstd", " 不改"] upUpDown (burst 2 3) true).map (·.picked) =
        some 1 := rfl
    rw [hr, Option.map_some, Option.some_inj] at hone
    rw [hone] at hp
    exact absurd hp (by decide)

end ZramUpgrade.Zram
