import ZramUpgrade.Zram.Load
import ZramUpgrade.Zram.Vermagic

/-!
# Zram.KernelCheck — `bin/kernel-check.sh`, the gate before every load

`kc_check` compares the version of the running kernel with the one in `zstd-upgrade.ko`; `load`
inserts `lz4-upgrade.ko` first, which nobody has looked at.  The strings are of one line each, and
the scripts that source this one run under BusyBox ash.
-/

namespace ZramUpgrade.Zram

open Lib

/-! ## The script -/

/-- `echo` takes `-` and letters of `neE` for options. -/
def isEchoOption : Text → Bool
  | '-' :: c :: cs => (c :: cs).all fun c => c == 'n' || c == 'e' || c == 'E'
  | _ => false

/-- The line that `echo "$s"` prints. -/
def echoLine (s : Text) : Text := if isEchoOption s then [] else s

/-- `cut -c<a>-<b>`; it counts bytes. -/
def cutC (a b : ℕ) (l : Text) : Text := (l.take b).drop (a - 1)

/-- `kc_prefix`: `cut -d'-' -f1`. -/
def kcPrefix (s : Text) : Text := (echoLine s).takeWhile (· ≠ '-')

/-- The `while` of `kc_wrap` with `left` rounds to go. -/
def kcWrapLoop : ℕ → Text → List Text
  | 0, _ => []
  | left + 1, s =>
    if s = [] then []
    else cutC 1 26 (' ' :: s) :: kcWrapLoop left (cutC 27 999 (echoLine s))

/-- The rows `kc_wrap` prints. -/
def kcWrap (s : Text) : List Text := kcWrapLoop 8 s

/-- `ui_wrap` of `customize.sh`, the same with the indentation outside `cut`. -/
def uiWrap (ind s : Text) : List Text :=
  if s = [] then []
  else (ind ++ cutC 1 22 s) :: uiWrap ind (cutC 23 999 s)
termination_by s.length
decreasing_by
  have := List.length_pos_of_ne_nil ‹s ≠ []›
  simp only [cutC, List.length_drop, List.length_take]
  omega

/-- The return code of `kc_check` and the lines it prints, on stdout and stderr. -/
structure KcResult where
  rc : ℕ
  out : List Text

/-- `kc_check`; `now` is `uname -r`, empty where that fails, and `ko` is the file `KC_KO`. -/
def kcCheck (now : Text) (ko : Option Text) : KcResult :=
  if now = [] then
    ⟨1, ["读不到 uname -r", "刷入环境不完整", "（Magisk 未装或", " recovery 不可用）", "请先装好 Magisk，",
      "再用 magisk --install-module", "或带 Magisk 的卡刷刷入"].map utf8⟩
  else if ko = none then
    ⟨1, ["包内没有可读的", " bin/zstd-upgrade.ko", "安装包不完整：zip 被截断", "或解压出错。请对照",
      " release/SHA256SUMS.txt", "校验 sha256 后重新推送。", "当前内核:"].map utf8 ++ kcWrap now⟩
  else
    let exp := kcKoVermagic ko
    if exp = [] then
      ⟨1, [".ko 里读不到 vermagic", "该文件已损坏或不属于本模块", "请校验 sha256 后重装"].map utf8⟩
    else
      let nowp := kcPrefix now
      let expp := kcPrefix exp
      if nowp ≠ expp then
        ⟨1, [utf8 "内核版本不匹配", utf8 " 本包适配 : " ++ expp, utf8 " 当前内核 : " ++ nowp,
            utf8 "完整串："] ++ kcWrap exp ++ kcWrap now ++
          [".ko 的 vermagic 与符号 CRC", "都按这个内核编译，换内核", "insmod 必被内核拒绝",
            "(-ENOEXEC)，装了等于没装，", "所以这里主动中止。", "", "办法1: 按当前内核重编",
            " sh build/BUILD-*.sh", "（改 VERMAGIC 与 headers）", "办法2: 用适配当前内核的包", "",
            "本模块到此为止，不做任何", "改动；系统保持原样。"].map utf8⟩
      else if now ≠ exp then
        ⟨0, [utf8 " ! 内核版本 " ++ nowp ++ utf8 " 匹配，但构建号不同："] ++
          kcWrap (utf8 "   .ko: " ++ exp) ++ kcWrap (utf8 "   运行: " ++ now) ++
          [utf8 "   照常加载，能否 insmod 由内核决定；",
            utf8 "   失败会在 service.log 写明，zram0 不受影响。"]⟩
      else ⟨0, []⟩

/-- What `load_algo` passes to `insmod`. -/
def loadAlgoInsmods (m : Modules) (a : Algo) (k : Kernel) : List Algo :=
  if k.registered a then [] else if m.file a = false then [] else [a]

/-- What `load` passes to `insmod`, in its order. -/
def loadInsmods (m : Modules) (k : Kernel) : List Algo :=
  let r := loadAlgo m .lz4 k
  loadAlgoInsmods m .lz4 k ++ if r.ok then loadAlgoInsmods m .zstd r.state else []

/-- The `.ko`s of the package, and which of them the kernel takes. -/
def packageModules (ko : Algo → Option Text) (accepted : Algo → Bool) : Modules :=
  ⟨fun a => (ko a).isSome, accepted⟩

/-! ## Rows -/

section Wrap

variable {s : Text}

theorem cutC_row (s : Text) : cutC 1 26 (' ' :: s) = ' ' :: s.take 25 := rfl

theorem cutC_rest_length (s : Text) : (cutC 27 999 (echoLine s)).length ≤ s.length - 26 := by
  rw [cutC, List.length_drop, List.length_take, echoLine]
  split
  · simp
  · omega

/-- Every round prints at most 25 of the 26 bytes it takes away. -/
theorem kcWrapLoop_length (left : ℕ) (s : Text) :
    ((kcWrapLoop left s).map List.tail).flatten.length ≤ s.length := by
  induction left generalizing s with
  | zero => exact Nat.zero_le _
  | succ left ih =>
    rw [kcWrapLoop]
    split
    · exact Nat.zero_le _
    · have hrest := (ih (cutC 27 999 (echoLine s))).trans (cutC_rest_length s)
      rw [cutC_row, List.map_cons, List.flatten_cons, List.length_append, List.tail_cons,
        List.length_take]
      omega

theorem kcWrap_width {r : Text} {left : ℕ} (hr : r ∈ kcWrapLoop left s) : r.length ≤ 26 := by
  induction left generalizing s with
  | zero => exact absurd hr List.not_mem_nil
  | succ left ih =>
    rw [kcWrapLoop] at hr
    split at hr
    · exact absurd hr List.not_mem_nil
    · rcases List.mem_cons.mp hr with rfl | hr
      · rw [cutC_row, List.length_cons, List.length_take]
        omega
      · exact ih hr

/-- The rows are the string when one row takes it: 25 bytes are shown, and 26 taken away. -/
theorem kcWrap_rows_iff (s : Text) : ((kcWrap s).map List.tail).flatten = s ↔ s.length ≤ 25 := by
  rw [kcWrap, kcWrapLoop]
  split
  · next h0 => simp [h0]
  · have hrest := (kcWrapLoop_length 7 (cutC 27 999 (echoLine s))).trans (cutC_rest_length s)
    rw [cutC_row, List.map_cons, List.flatten_cons, List.tail_cons]
    constructor
    · intro heq
      have hlen := congrArg List.length heq
      rw [List.length_append, List.length_take] at hlen
      omega
    · intro hle
      have hnil : ((kcWrapLoop 7 (cutC 27 999 (echoLine s))).map List.tail).flatten = [] :=
        List.eq_nil_of_length_eq_zero (by omega)
      rw [hnil, List.append_nil, List.take_of_length_le hle]

/-- **When `kc_wrap` prints the whole string**: when it has at most 25 bytes.  No row has more than
26 bytes, and no symbol is wider than its bytes are many. -/
theorem kcWrap_whole_iff (s : List UInt8) :
    (((kcWrap (ofBytes s)).map List.tail).flatten = ofBytes s ∧
        ∀ r ∈ kcWrap (ofBytes s), r.length ≤ 26) ↔ s.length ≤ 25 := by
  have hwidth : ∀ r ∈ kcWrap (ofBytes s), r.length ≤ 26 := fun r hr => kcWrap_width hr
  rw [and_iff_left hwidth, kcWrap_rows_iff, ofBytes_length]

/-- The row `kc_check` prints for a running release of 17 characters: 24 characters, but 28 bytes. -/
example : ((kcWrap (utf8 "   运行: 6.6.118-android15")).map List.tail).flatten ≠
    utf8 "   运行: 6.6.118-android15" := by
  decide +kernel

/-- A release of 52 characters, all ASCII: its 26th and its last one are not printed. -/
theorem kcWrap_loses :
    "6.6.118-android15-8-gc44b714366cc-abogki519650608-4k".length ≤ 200 ∧
      ((kcWrap (utf8 "6.6.118-android15-8-gc44b714366cc-abogki519650608-4k")).map List.tail).flatten ≠
        utf8 "6.6.118-android15-8-gc44b714366cc-abogki519650608-4k" := by
  decide +kernel

/-- `ui_wrap` takes away what its row shows, so its rows are the string. -/
theorem uiWrap_whole (ind : Text) (hlen : s.length ≤ 999) :
    ((uiWrap ind s).map (List.drop ind.length)).flatten = s := by
  fun_induction uiWrap ind s with
  | case1 => rfl
  | case2 s hs ih =>
    have hrow : (ind ++ cutC 1 22 s).drop ind.length = s.take 22 := List.drop_left
    have hrest : cutC 23 999 s = s.drop 22 := by rw [cutC, List.take_of_length_le hlen]
    rw [List.map_cons, List.flatten_cons, hrow, ih (by rw [hrest, List.length_drop]; omega), hrest,
      List.take_append_drop]

end Wrap

/-! ## The gate -/

section Gate

variable {now t : Text} {ko : Algo → Option Text} {accepted : Algo → Bool} {k : Kernel}

/-- Where a release ends. -/
def releaseEnds : List Char := [' ', '\n', NUL]

/-- The first `vermagic=` entry of the file has the release `release`, up to a blank, the end of the
string or line, or the end of the file. -/
structure Carries (t release : Text) : Prop where
  entry : ∃ pre rest, FirstAt vermagicKey t pre (release ++ rest) ∧ ∀ c ∈ rest.head?, c ∈ releaseEnds
  run : ∀ c ∈ release, c ∉ releaseEnds

/-- The file carries a vermagic whose release has the part of `now` before the first `-`. -/
def SameVersion (now t : Text) : Prop :=
  ∃ release, Carries t release ∧ release.takeWhile (· ≠ '-') = now.takeWhile (· ≠ '-')

/-- A modinfo entry with more behind its release is carried. -/
theorem HasVermagic.carries {release : Text} (h : HasVermagic t release)
    (hline : '\n' ∉ release ∧ NUL ∉ release) : Carries t release := by
  obtain ⟨⟨pre, rest, hfirst⟩, hblank⟩ := h
  refine ⟨⟨pre, ' ' :: rest, hfirst, fun c hc => ?_⟩, fun c hc hend => ?_⟩
  · obtain rfl : ' ' = c := Option.some.inj hc
    exact List.mem_cons_self
  · simp only [releaseEnds, List.mem_cons, List.not_mem_nil, or_false] at hend
    rcases hend with rfl | rfl | rfl
    · exact hblank hc
    · exact hline.1 hc
    · exact hline.2 hc

/-- The run behind the first `vermagic=`, as the gate reads it. -/
def releaseOf (t : Text) : Option Text :=
  (afterFirst vermagicKey t).map fun after => after.takeWhile (!endsRelease true ·)

theorem endsRelease_iff (c : Char) : endsRelease true c = true ↔ c ∈ releaseEnds := by
  simp [endsRelease, releaseEnds, or_assoc]

/-- **The gate reads** what the file carries. -/
theorem carries_iff (t release : Text) : Carries t release ↔ releaseOf t = some release := by
  rw [releaseOf, Option.map_eq_some_iff]
  constructor
  · rintro ⟨⟨pre, rest, hfirst, hrest⟩, hrun⟩
    refine ⟨release ++ rest, afterFirst_eq_some (by decide) hfirst, ?_⟩
    have hgo : ∀ c ∈ release, endsRelease true c = false := fun c hc => by
      rw [Bool.eq_false_iff, Ne, endsRelease_iff]
      exact hrun c hc
    cases rest with
    | nil => rw [List.append_nil, List.takeWhile_eq_self_iff]; simpa using hgo
    | cons c rest => exact takeWhile_run hgo ((endsRelease_iff c).mpr (hrest c rfl))
  · rintro ⟨after, hafter, rfl⟩
    obtain ⟨pre, hfirst⟩ := exists_firstAt hafter
    refine ⟨⟨pre, after.dropWhile (!endsRelease true ·), ?_, fun c hc => ?_⟩, fun c hc hend => ?_⟩
    · rwa [List.takeWhile_append_dropWhile]
    · have hstop := List.head?_dropWhile_not (!endsRelease true ·) after
      rw [Option.mem_def.mp hc] at hstop
      exact (endsRelease_iff c).mp (by simpa using hstop)
    · have hgo := List.mem_takeWhile_imp hc
      rw [(endsRelease_iff c).mpr hend] at hgo
      cases hgo

/-- What `echo` swallows has nothing before its first `-`. -/
theorem kcPrefix_eq (s : Text) : kcPrefix s = s.takeWhile (· ≠ '-') := by
  rw [kcPrefix, echoLine]
  split
  · next h =>
    unfold isEchoOption at h
    split at h
    · simp
    · cases h
  · rfl

theorem kcKoVermagic_eq (t : Text) : kcKoVermagic (some t) = (releaseOf t).getD [] := by
  rw [kcKoVermagic, koVermagic_eq, releaseOf, Option.getD_some]
  cases afterFirst vermagicKey t with
  | none => rfl
  | some after =>
    rw [Option.map_some, Option.getD_some]
    dsimp only
    rw [List.filter_eq_self]
    intro c hc
    simpa using (ne_of_mem_run hc).2.2 rfl

/-- **The gate** passes only a file that has the version of the kernel. -/
theorem kcCheck_rc_zero {o : Option Text} (h : (kcCheck now o).rc = 0) :
    ∃ t, o = some t ∧ SameVersion now t := by
  rw [kcCheck] at h
  split at h
  · cases h
  · split at h
    · cases h
    · next hko =>
      obtain ⟨t, rfl⟩ := Option.ne_none_iff_exists'.mp hko
      dsimp only at h
      rw [kcKoVermagic_eq] at h
      cases hrel : releaseOf t with
      | none =>
        rw [hrel, Option.getD_none, if_pos rfl] at h
        cases h
      | some release =>
        rw [hrel, Option.getD_some] at h
        split at h
        · cases h
        · split at h
          · cases h
          · next hsame =>
            have heq := not_not.mp hsame
            rw [kcPrefix_eq, kcPrefix_eq] at heq
            exact ⟨t, rfl, release, (carries_iff t release).mpr hrel, heq.symm⟩

theorem mem_loadAlgoInsmods {a b : Algo} :
    b ∈ loadAlgoInsmods (packageModules ko accepted) a k ↔
      b = a ∧ k.registered a = false ∧ ∃ t, ko a = some t := by
  rw [loadAlgoInsmods]
  by_cases hr : k.registered a = true
  · simp [hr]
  · rw [if_neg hr]
    cases hko : ko a with
    | none => simp [packageModules, hko]
    | some t => simp [packageModules, hko, hr]

theorem lz4_mem_loadInsmods :
    .lz4 ∈ loadInsmods (packageModules ko accepted) k ↔
      k.registered .lz4 = false ∧ ∃ t, ko .lz4 = some t := by
  rw [loadInsmods, List.mem_append, mem_loadAlgoInsmods]
  constructor
  · rintro (⟨-, h⟩ | h)
    · exact h
    · split at h
      · obtain ⟨hne, -⟩ := mem_loadAlgoInsmods.mp h
        cases hne
      · exact absurd h List.not_mem_nil
  · intro h
    exact .inl ⟨rfl, h⟩

/-- **What the gate covers**: once it has passed, every `.ko` that `load` passes to `insmod` has the
version of the running kernel exactly if the lz4 one does, or is not inserted. -/
theorem gate_covers_iff (ko : Algo → Option Text) (h : (kcCheck now (ko .zstd)).rc = 0) :
    (∀ a ∈ loadInsmods (packageModules ko accepted) k, ∃ t, ko a = some t ∧ SameVersion now t) ↔
      k.registered .lz4 = true ∨ ∀ t, ko .lz4 = some t → SameVersion now t := by
  constructor
  · intro hall
    by_cases hr : k.registered .lz4 = true
    · exact .inl hr
    · refine .inr fun t ht => ?_
      obtain ⟨t', ht', hsame⟩ := hall .lz4
        (lz4_mem_loadInsmods.mpr ⟨Bool.eq_false_iff.mpr hr, t, ht⟩)
      obtain rfl : t = t' := Option.some.inj (ht.symm.trans ht')
      exact hsame
  · intro hlz4 a ha
    cases a with
    | zstd => exact kcCheck_rc_zero h
    | lz4 =>
      obtain ⟨hr, t, ht⟩ := lz4_mem_loadInsmods.mp ha
      rcases hlz4 with hreg | hsame
      · rw [hr] at hreg
        cases hreg
      · exact ⟨t, ht, hsame t ht⟩

end Gate

/-- Both modules of one build, on its kernel. -/
theorem gate_covers_pair :
    (kcCheck "6.6.118-4k".toList (some modinfo)).rc = 0 ∧
      ∀ a ∈ loadInsmods (packageModules (fun _ => some modinfo) fun _ => true)
        (Kernel.boot 1 Nat.one_pos),
        ∃ t, (some modinfo) = some t ∧ SameVersion "6.6.118-4k".toList t := by
  have hrc : (kcCheck "6.6.118-4k".toList (some modinfo)).rc = 0 := rfl
  refine ⟨hrc, (gate_covers_iff (fun _ => some modinfo) hrc).mpr (.inr fun t ht => ?_)⟩
  cases ht
  exact ⟨"6.6.118-4k".toList, modinfo_vermagic.carries (by decide), rfl⟩

/-- A package in which only the zstd module was rebuilt: the gate passes, and `load` hands the lz4
module of `6.6.57` to `insmod`. -/
def halfRebuilt : Algo → Option Text
  | .zstd => some modinfo
  | .lz4 => some "vermagic=6.6.57-4k SMP preempt aarch64".toList

theorem gate_misses_lz4 :
    (kcCheck "6.6.118-4k".toList (halfRebuilt .zstd)).rc = 0 ∧
      ¬∀ a ∈ loadInsmods (packageModules halfRebuilt fun _ => true) (Kernel.boot 1 Nat.one_pos),
        ∃ t, halfRebuilt a = some t ∧ SameVersion "6.6.118-4k".toList t := by
  refine ⟨rfl, fun h => ?_⟩
  obtain ⟨t, ht, release, hcarries, hsame⟩ := h .lz4 (lz4_mem_loadInsmods.mpr ⟨rfl, _, rfl⟩)
  cases ht
  have hrel := (carries_iff _ release).mp hcarries
  have hread : releaseOf "vermagic=6.6.57-4k SMP preempt aarch64".toList = some "6.6.57-4k".toList :=
    rfl
  rw [hread] at hrel
  cases hrel
  exact absurd hsame (by decide)

end ZramUpgrade.Zram
