import ZramUpgrade.Lib.Text
import ZramUpgrade.Zram.Install

/-!
# Zram.Crypto — `/proc/crypto` and the two readers of a refcnt

`new_driver_refcnt` of `zram-algo.sh` and `refcnt_of` of `verify.sh` both take the first record in
which the name of the driver occurs anywhere.  They differ in the line they read there: any line
with `refcnt` in it, or one that starts with it.  On the text of a kernel state in which nobody else
has the names of the new drivers, both print `Kernel.refcnt` (`Lists.readers`).
-/

namespace ZramUpgrade.Zram

open Lib

/-! ## The text -/

/-- A record of `/proc/crypto`; `more` are the lines behind the refcnt. -/
structure CryptoRecord where
  name : Text
  driver : Text
  modName : Text
  priority : ℤ
  refcnt : ℕ
  more : List Text
  oneLine : '\n' ∉ name ∧ '\n' ∉ driver ∧ '\n' ∉ modName
  more_lines : ∀ l ∈ more, l ≠ [] ∧ '\n' ∉ l

/-- `%u`. -/
def digits (n : ℕ) : Text := Nat.toDigits 10 n

/-- `%d`. -/
def signedDigits : ℤ → Text
  | .ofNat n => digits n
  | .negSucc n => '-' :: digits (n + 1)

/-- `key : value`. -/
def cryptoLine (key v : Text) : Text := key ++ ':' :: ' ' :: v

def CryptoRecord.refcntLine (r : CryptoRecord) : Text :=
  cryptoLine "refcnt       ".toList (digits r.refcnt)

/-- The lines of the three names. -/
def CryptoRecord.nameLines (r : CryptoRecord) : List Text :=
  [cryptoLine "name         ".toList r.name, cryptoLine "driver       ".toList r.driver,
    cryptoLine "module       ".toList r.modName]

/-- The lines the kernel prints for a record. -/
def CryptoRecord.lines (r : CryptoRecord) : List Text :=
  r.nameLines ++ cryptoLine "priority     ".toList (signedDigits r.priority) :: r.refcntLine :: r.more

/-- The text of `/proc/crypto`: each record with an empty line behind it. -/
def procCrypto (rs : List CryptoRecord) : Text := render '\n' (rs.map CryptoRecord.lines)

/-- `ZDRIVER` and `LDRIVER`. -/
def newDriver : Algo → Text
  | .lz4 => "lz4-new-generic".toList
  | .zstd => "zstd-new-generic".toList

/-! ## The readers -/

/-- `$0` of awk. -/
def awkRecord (p : List Text) : Text := ['\n'].intercalate p

def refcntWord : Text := "refcnt".toList

/-- `split(L[i], A, ":"); gsub(/[^0-9]/, "", A[2])`. -/
def secondDigits (l : Text) : Text := ((l.splitOn ':').getD 1 []).filter Char.isDigit

/-- `new_driver_refcnt`, for the driver `d`: the first record with `d` in it and a line with `refcnt`
in it. -/
def newDriverRefcnt (d crypto : Text) : Text :=
  ((paragraphs '\n' crypto).findSome? fun p =>
    if d <:+: awkRecord p then
      ((linesOf '\n' (awkRecord p)).find? fun l => refcntWord <:+: l).map secondDigits
    else none).getD []

/-- `driver_block`: every record with `d` in it. -/
def driverBlock (d crypto : Text) : Text :=
  unlines '\n' (((paragraphs '\n' crypto).filter fun p => d <:+: awkRecord p).map awkRecord)

/-- The fields of an awk line. -/
def awkFields (l : Text) : List Text := (l.splitOnP fun c => c == ' ' || c == '\t').filter (· ≠ [])

/-- `refcnt_of`: `$3` of the first line that starts with `refcnt`. -/
def refcntOf (d crypto : Text) : Text :=
  (((linesOf '\n' (driverBlock d crypto)).find? fun l => refcntWord <+: l).map fun l =>
    (awkFields l).getD 2 []).getD []

/-! ## What they return -/

section Readers

variable {d : Text} {r : CryptoRecord} {rs : List CryptoRecord}

theorem digits_ne_nil (n : ℕ) : digits n ≠ [] := Nat.toDigits_ne_nil

theorem digits_injective {m n : ℕ} (h : digits m = digits n) : m = n := by
  have hm := Nat.ofDigitChars_ten_toDigits (n := m)
  rw [show Nat.toDigits 10 m = Nat.toDigits 10 n from h, Nat.ofDigitChars_ten_toDigits] at hm
  exact hm.symm

theorem isDigit_of_mem_digits {n : ℕ} {c : Char} (h : c ∈ digits n) : c.isDigit = true :=
  Nat.isDigit_of_mem_toDigits (by decide) (by decide) h

theorem not_mem_digits {n : ℕ} {c : Char} (hc : c.isDigit = false) : c ∉ digits n := by
  intro h
  rw [isDigit_of_mem_digits h] at hc
  cases hc

theorem ne_of_mem_digits {n : ℕ} {c x : Char} (h : c ∈ digits n) (hx : x.isDigit = false) :
    c ≠ x := by
  rintro rfl
  exact not_mem_digits hx h

theorem not_mem_signedDigits {c : Char} (hc : c.isDigit = false) (hm : c ≠ '-') (z : ℤ) :
    c ∉ signedDigits z := by
  intro h
  cases z with
  | ofNat n => exact not_mem_digits hc h
  | negSucc n =>
    rcases List.mem_cons.mp h with h | h
    · exact hm h
    · exact not_mem_digits hc h

theorem not_mem_cryptoLine {key v : Text} {c : Char} (hk : c ∉ key) (hc : c ≠ ':' ∧ c ≠ ' ')
    (hv : c ∉ v) : c ∉ cryptoLine key v := by
  intro h
  rcases List.mem_append.mp h with h | h
  · exact hk h
  · rcases List.mem_cons.mp h with h | h
    · exact hc.1 h
    · rcases List.mem_cons.mp h with h | h
      · exact hc.2 h
      · exact hv h

theorem cryptoLine_plain {key v : Text} (hk : '\n' ∉ key) (hv : '\n' ∉ v) :
    cryptoLine key v ≠ [] ∧ '\n' ∉ cryptoLine key v :=
  ⟨List.append_ne_nil_of_right_ne_nil _ (List.cons_ne_nil _ _),
    not_mem_cryptoLine hk (by decide) hv⟩

/-- No line of a record is empty or has an end of line in it. -/
theorem CryptoRecord.lines_plain (r : CryptoRecord) : ∀ l ∈ r.lines, l ≠ [] ∧ '\n' ∉ l := by
  intro l hl
  obtain ⟨h1, h2, h3⟩ := r.oneLine
  rcases List.mem_append.mp hl with hl | hl
  · simp only [CryptoRecord.nameLines, List.mem_cons, List.not_mem_nil, or_false] at hl
    rcases hl with rfl | rfl | rfl
    · exact cryptoLine_plain (by decide) h1
    · exact cryptoLine_plain (by decide) h2
    · exact cryptoLine_plain (by decide) h3
  · rcases List.mem_cons.mp hl with rfl | hl
    · exact cryptoLine_plain (by decide) (not_mem_signedDigits rfl (by decide) _)
    · rcases List.mem_cons.mp hl with rfl | hl
      · exact cryptoLine_plain (by decide) (not_mem_digits rfl)
      · exact r.more_lines l hl

theorem CryptoRecord.lines_ne_nil (r : CryptoRecord) : r.lines ≠ [] := List.cons_ne_nil _ _

/-- awk reads the records back. -/
theorem paragraphs_procCrypto (rs : List CryptoRecord) :
    paragraphs '\n' (procCrypto rs) = rs.map CryptoRecord.lines := by
  refine paragraphs_render ?_ ?_
  · intro p hp
    obtain ⟨r, -, rfl⟩ := List.mem_map.mp hp
    exact r.lines_ne_nil
  · intro p hp
    obtain ⟨r, -, rfl⟩ := List.mem_map.mp hp
    exact r.lines_plain

/-- The name `d` occurs somewhere in the record. -/
def CryptoRecord.Mentions (d : Text) (r : CryptoRecord) : Prop := d <:+: awkRecord r.lines

instance (d : Text) (r : CryptoRecord) : Decidable (r.Mentions d) :=
  inferInstanceAs (Decidable (_ <:+: _))

/-- The digits behind the first colon of the first line with `refcnt` in it. -/
def CryptoRecord.firstRefcnt (r : CryptoRecord) : Text :=
  ((r.lines.find? fun l => refcntWord <:+: l).map secondDigits).getD []

theorem CryptoRecord.linesOf_awkRecord (r : CryptoRecord) :
    linesOf '\n' (awkRecord r.lines) = r.lines :=
  List.splitOn_intercalate '\n' (fun l hl => (r.lines_plain l hl).2) r.lines_ne_nil

theorem CryptoRecord.refcntLine_mem (r : CryptoRecord) : r.refcntLine ∈ r.lines :=
  List.mem_append_right _ (List.mem_cons_of_mem _ List.mem_cons_self)

/-- The word of the refcnt line. -/
theorem CryptoRecord.refcntWord_prefix (r : CryptoRecord) : refcntWord <+: r.refcntLine :=
  ⟨"       ".toList ++ ':' :: ' ' :: digits r.refcnt, rfl⟩

/-- `new_driver_refcnt` reads the first record that mentions the driver. -/
theorem newDriverRefcnt_eq (d : Text) (rs : List CryptoRecord) :
    newDriverRefcnt d (procCrypto rs) =
      ((rs.find? fun r => r.Mentions d).map CryptoRecord.firstRefcnt).getD [] := by
  rw [newDriverRefcnt, paragraphs_procCrypto, List.findSome?_map]
  congr 1
  induction rs with
  | nil => rfl
  | cons r rs ih =>
    rw [List.findSome?_cons, Function.comp_apply, r.linesOf_awkRecord]
    by_cases hd : r.Mentions d
    · have hsome : (r.lines.find? fun l => refcntWord <:+: l).isSome = true := by
        rw [List.find?_isSome]
        exact ⟨r.refcntLine, r.refcntLine_mem, decide_eq_true r.refcntWord_prefix.isInfix⟩
      obtain ⟨l, hl⟩ := Option.isSome_iff_exists.mp hsome
      have hfirst : r.firstRefcnt = secondDigits l := by rw [CryptoRecord.firstRefcnt, hl]; rfl
      rw [if_pos (show d <:+: awkRecord r.lines from hd), hl, Option.map_some]
      simp only [List.find?_cons, decide_eq_true hd, Option.map_some, hfirst]
    · rw [if_neg (show ¬ d <:+: awkRecord r.lines from hd)]
      simp only [List.find?_cons, decide_eq_false hd]
      exact ih

/-- In a record, the first line that starts with `refcnt` is the line of that key. -/
theorem CryptoRecord.find_refcntLine (r : CryptoRecord) :
    (r.lines.find? fun l => refcntWord <+: l) = some r.refcntLine := by
  have hno : ∀ {c : Char} (l : Text), c ≠ 'r' → (!decide (refcntWord <+: c :: l)) = true := by
    intro c l hc
    rw [Bool.not_eq_true', decide_eq_false_iff_not]
    intro h
    obtain ⟨h, -⟩ := List.cons_prefix_cons.mp h
    exact hc h.symm
  refine List.find?_eq_some_iff_append.mpr ⟨decide_eq_true r.refcntWord_prefix,
    r.nameLines ++ [cryptoLine "priority     ".toList (signedDigits r.priority)], r.more, ?_, ?_⟩
  · rw [List.append_assoc]
    rfl
  · intro l hl
    simp only [CryptoRecord.nameLines, List.mem_append, List.mem_cons, List.not_mem_nil,
      or_false] at hl
    rcases hl with (rfl | rfl | rfl) | rfl
    · exact hno _ (by decide)
    · exact hno _ (by decide)
    · exact hno _ (by decide)
    · exact hno _ (by decide)

theorem awkFields_refcntLine (r : CryptoRecord) :
    (awkFields r.refcntLine).getD 2 [] = digits r.refcnt := by
  have hplain : ∀ c ∈ digits r.refcnt, (c == ' ' || c == '\t') = false := by
    intro c hc
    have h1 : c ≠ ' ' := ne_of_mem_digits hc rfl
    have h2 : c ≠ '\t' := ne_of_mem_digits hc rfl
    simp [h1, h2]
  have hline : r.refcntLine = "refcnt       :".toList ++ ' ' :: digits r.refcnt := rfl
  rw [awkFields, hline, List.splitOnP_append_cons _ _ rfl, List.splitOnP_eq_singleton hplain,
    List.filter_append, List.filter_cons_of_pos (by simpa using digits_ne_nil _)]
  rfl

/-- `driver_block` prints the lines of the records that mention the driver. -/
theorem driverBlock_eq (d : Text) (rs : List CryptoRecord) :
    driverBlock d (procCrypto rs) =
      unlines '\n' ((rs.filter fun r => r.Mentions d).flatMap CryptoRecord.lines) := by
  rw [driverBlock, paragraphs_procCrypto, List.filter_map]
  change unlines '\n' (((rs.filter fun r => r.Mentions d).map CryptoRecord.lines).map awkRecord) = _
  induction rs.filter fun r => r.Mentions d with
  | nil => rfl
  | cons r rs ih =>
    have hr := intercalate_append_nl '\n' r.lines_ne_nil
    rw [List.map_cons, List.map_cons, List.flatMap_cons, unlines_append, ← ih, ← hr]
    rfl

/-- `refcnt_of` reads the first record that mentions the driver. -/
theorem refcntOf_eq (d : Text) (rs : List CryptoRecord) :
    refcntOf d (procCrypto rs) =
      ((rs.find? fun r => r.Mentions d).map fun r => digits r.refcnt).getD [] := by
  have hlines : ∀ l ∈ (rs.filter fun r => r.Mentions d).flatMap CryptoRecord.lines, '\n' ∉ l := by
    intro l hl
    obtain ⟨r, -, hlr⟩ := List.mem_flatMap.mp hl
    exact (r.lines_plain l hlr).2
  rw [refcntOf, driverBlock_eq, linesOf_unlines hlines, List.find?_append,
    ← List.head?_filter (p := fun r => decide (CryptoRecord.Mentions d r))]
  cases rs.filter fun r => r.Mentions d with
  | nil => rfl
  | cons r rs =>
    rw [List.flatMap_cons, List.find?_append, r.find_refcntLine, List.head?_cons]
    exact awkFields_refcntLine r

/-! ## The right refcnt -/

/-- What a reader of the refcnt of `d` should return: that of the record whose driver value is `d`,
and nothing if there is none. -/
structure Returns (rs : List CryptoRecord) (d out : Text) : Prop where
  found : ∀ r ∈ rs, r.driver = d → out = digits r.refcnt
  missing : (∀ r ∈ rs, r.driver ≠ d) → out = []

/-- A record mentions its own driver. -/
theorem CryptoRecord.mentions_driver (r : CryptoRecord) : r.Mentions r.driver := by
  have hline : cryptoLine "driver       ".toList r.driver ∈ r.lines :=
    List.mem_append_left _ (by simp [CryptoRecord.nameLines])
  have hvalue : r.driver <:+ cryptoLine "driver       ".toList r.driver :=
    ⟨"driver       ".toList ++ [':', ' '], by rw [List.append_assoc]; rfl⟩
  exact hvalue.isInfix.trans (infix_intercalate '\n' hline)

/-! ### The first line with `refcnt` in it -/

/-- The digits of a value, up to its first colon. -/
def valueDigits (v : Text) : Text := (v.takeWhile (· ≠ ':')).filter Char.isDigit

theorem secondDigits_line {key : Text} (hk : ':' ∉ key) (v : Text) :
    secondDigits (cryptoLine key v) = valueDigits v := by
  obtain ⟨rest, hrest⟩ := splitOn_eq_cons ':' (' ' :: v)
  rw [secondDigits, cryptoLine, List.splitOn_append_cons_self_of_not_mem hk, hrest]
  rfl

theorem valueDigits_digits (n : ℕ) : valueDigits (digits n) = digits n := by
  have htake : (digits n).takeWhile (· ≠ ':') = digits n := by
    rw [List.takeWhile_eq_self_iff]
    intro c hc
    have hne : c ≠ ':' := ne_of_mem_digits hc rfl
    simpa using hne
  rw [valueDigits, htake, List.filter_eq_self]
  exact fun c hc => isDigit_of_mem_digits hc

/-- The word is in a line exactly if it is in the value. -/
theorem refcntWord_line {key : Text} (hk : ¬refcntWord <:+: key) (v : Text) :
    refcntWord <:+: cryptoLine key v ↔ refcntWord <:+: v := by
  constructor
  · intro h
    have hblank := (infix_append_cons h (by decide)).resolve_left hk
    rcases infix_append_cons (a := []) hblank (by decide) with h0 | hv
    · exact absurd (List.infix_nil.mp h0) (by decide)
    · exact hv
  · intro h
    have hsuffix : v <:+ cryptoLine key v := ⟨key ++ [':', ' '], by rw [List.append_assoc]; rfl⟩
    exact h.trans hsuffix.isInfix

theorem refcntWord_signedDigits (z : ℤ) : ¬refcntWord <:+: signedDigits z := by
  intro h
  have hr : 'r' ∈ signedDigits z := h.subset (by decide)
  exact not_mem_signedDigits rfl (by decide) z hr

/-- The first of the three names with the word `refcnt` in it. -/
def CryptoRecord.namesRefcnt (r : CryptoRecord) : Option Text :=
  [r.name, r.driver, r.modName].find? fun v => refcntWord <:+: v

/-- The line read is that of the refcnt, unless one of the names has the word in it. -/
theorem CryptoRecord.firstRefcnt_eq (r : CryptoRecord) :
    r.firstRefcnt = (r.namesRefcnt.map valueDigits).getD (digits r.refcnt) := by
  have hname := propext (refcntWord_line (show ¬refcntWord <:+: "name         ".toList by decide) r.name)
  have hdriver :=
    propext (refcntWord_line (show ¬refcntWord <:+: "driver       ".toList by decide) r.driver)
  have hmod :=
    propext (refcntWord_line (show ¬refcntWord <:+: "module       ".toList by decide) r.modName)
  have hprio : ¬refcntWord <:+: cryptoLine "priority     ".toList (signedDigits r.priority) := fun h =>
    refcntWord_signedDigits _ ((refcntWord_line (by decide) _).mp h)
  have hline : refcntWord <:+: r.refcntLine := r.refcntWord_prefix.isInfix
  have hvalue : secondDigits r.refcntLine = digits r.refcnt :=
    (secondDigits_line (by decide) _).trans (valueDigits_digits _)
  rw [CryptoRecord.firstRefcnt, CryptoRecord.namesRefcnt, CryptoRecord.lines, CryptoRecord.nameLines]
  simp only [List.cons_append, List.nil_append, List.find?_cons, hname, hdriver, hmod,
    decide_eq_false hprio, decide_eq_true hline]
  by_cases h1 : refcntWord <:+: r.name
  · simp only [decide_eq_true h1]
    exact secondDigits_line (by decide) r.name
  · simp only [decide_eq_false h1]
    by_cases h2 : refcntWord <:+: r.driver
    · simp only [decide_eq_true h2]
      exact secondDigits_line (by decide) r.driver
    · simp only [decide_eq_false h2]
      by_cases h3 : refcntWord <:+: r.modName
      · simp only [decide_eq_true h3]
        exact secondDigits_line (by decide) r.modName
      · simp only [decide_eq_false h3]
        exact hvalue

/-- **When both readers are right**: when the first record that mentions the driver anywhere has the
refcnt of the record of that driver, and none of its names has the word `refcnt` in it, or the first
that does has the digits of the refcnt in front of its first colon. -/
theorem readers_right_iff (hd : (rs.map CryptoRecord.driver).Nodup) (a : Algo) :
    (Returns rs (newDriver a) (newDriverRefcnt (newDriver a) (procCrypto rs)) ∧
        Returns rs (newDriver a) (refcntOf (newDriver a) (procCrypto rs))) ↔
      ∀ r, (rs.find? fun r => r.Mentions (newDriver a)) = some r →
        ∃ r' ∈ rs, r'.driver = newDriver a ∧ r.refcnt = r'.refcnt ∧
          ∀ v, r.namesRefcnt = some v → valueDigits v = digits r.refcnt := by
  have hnames : ∀ r : CryptoRecord, r.firstRefcnt = digits r.refcnt ↔
      ∀ v, r.namesRefcnt = some v → valueDigits v = digits r.refcnt := by
    intro r
    rw [r.firstRefcnt_eq]
    cases r.namesRefcnt with
    | none => exact iff_of_true rfl fun _ h => nomatch h
    | some v =>
      rw [Option.map_some, Option.getD_some]
      exact ⟨fun h v' hv' => by cases hv'; exact h, fun h => h v rfl⟩
  rw [newDriverRefcnt_eq, refcntOf_eq]
  cases hfind : rs.find? fun r => r.Mentions (newDriver a) with
  | none =>
    have hnone : ∀ r ∈ rs, r.driver ≠ newDriver a := by
      intro r hr heq
      have hno := List.find?_eq_none.mp hfind r hr
      exact hno (decide_eq_true (heq ▸ r.mentions_driver))
    have hnil : Returns rs (newDriver a) [] := ⟨fun r hr heq => absurd heq (hnone r hr), fun _ => rfl⟩
    exact iff_of_true ⟨hnil, hnil⟩ fun _ h => nomatch h
  | some r =>
    rw [Option.map_some, Option.getD_some, Option.map_some, Option.getD_some]
    constructor
    · rintro ⟨⟨hfound, -⟩, hfound', hmissing'⟩ r₁ hr₁
      obtain rfl : r = r₁ := Option.some.inj hr₁
      by_cases hex : ∃ r' ∈ rs, r'.driver = newDriver a
      · obtain ⟨r', hr', hdriver⟩ := hex
        have hcount : r.refcnt = r'.refcnt := digits_injective (hfound' r' hr' hdriver)
        have hfirst : r.firstRefcnt = digits r.refcnt := by rw [hfound r' hr' hdriver, hcount]
        exact ⟨r', hr', hdriver, hcount, (hnames r).mp hfirst⟩
      · have hall : ∀ r' ∈ rs, r'.driver ≠ newDriver a := fun r' hr' heq => hex ⟨r', hr', heq⟩
        exact absurd (hmissing' hall) (digits_ne_nil _)
    · intro hcond
      obtain ⟨r', hr', hdriver, hcount, hfirst⟩ := hcond r rfl
      have hright : Returns rs (newDriver a) (digits r.refcnt) := by
        refine ⟨fun r₁ hr₁ hdriver₁ => ?_, fun hnone => absurd hdriver (hnone r' hr')⟩
        have heq : r₁ = r' := List.inj_on_of_nodup_map hd hr₁ hr' (hdriver₁.trans hdriver.symm)
        rw [heq, hcount]
      exact ⟨by rw [(hnames r).mpr hfirst]; exact hright, hright⟩

end Readers

/-! ## The text of a kernel state -/

/-- The record of a new driver with the given refcnt. -/
def newRecord (a : Algo) (n : ℕ) : CryptoRecord where
  name := a.word
  driver := newDriver a
  modName := a.word ++ "_upgrade".toList
  priority := 100
  refcnt := n
  more :=
    ["selftest     : passed".toList, "internal     : no".toList, "type         : compression".toList]
  oneLine := by cases a <;> decide
  more_lines := by decide

/-- `rs` are the records of `/proc/crypto` in the state `k`: those with the name of a new driver in
them are the driver's own, with its refcnt. -/
structure Lists (k : Kernel) (rs : List CryptoRecord) : Prop where
  own : ∀ a, (rs.filter fun r => r.Mentions (newDriver a)) = ((k.refcnt a).map (newRecord a)).toList

/-- The number in `[ "$r" -gt 1 ]`. -/
def shellNumber (t : Text) : ℕ := Nat.ofDigitChars 10 t 0

section KernelText

variable {k : Kernel} {rs : List CryptoRecord} {a b : Algo}

theorem newRecord_namesRefcnt (a : Algo) (n : ℕ) : (newRecord a n).namesRefcnt = none := by
  cases a
  · exact (rfl : (newRecord .lz4 0).namesRefcnt = none)
  · exact (rfl : (newRecord .zstd 0).namesRefcnt = none)

theorem newRecord_firstRefcnt (a : Algo) (n : ℕ) : (newRecord a n).firstRefcnt = digits n := by
  rw [CryptoRecord.firstRefcnt_eq, newRecord_namesRefcnt]
  rfl

/-- The first record that mentions a new driver. -/
theorem Lists.find_eq (h : Lists k rs) (a : Algo) :
    (rs.find? fun r => r.Mentions (newDriver a)) = (k.refcnt a).map (newRecord a) := by
  rw [← List.head?_filter, h.own a]
  cases k.refcnt a with
  | none => rfl
  | some n => rfl

/-- **Both readers** print the refcnt of the kernel state, and nothing where the driver is not
registered. -/
theorem Lists.readers (h : Lists k rs) (a : Algo) :
    newDriverRefcnt (newDriver a) (procCrypto rs) = ((k.refcnt a).map digits).getD [] ∧
      refcntOf (newDriver a) (procCrypto rs) = ((k.refcnt a).map digits).getD [] := by
  rw [newDriverRefcnt_eq, refcntOf_eq, h.find_eq a]
  cases k.refcnt a with
  | none => exact ⟨rfl, rfl⟩
  | some n => exact ⟨newRecord_firstRefcnt a n, rfl⟩

theorem shellNumber_digits (n : ℕ) : shellNumber (digits n) = n := Nat.ofDigitChars_ten_toDigits

/-- **The test of `zram-algo.sh apply` on the text** is `LooksServed`. -/
theorem Lists.looksServed_iff (h : Lists k rs) (a : Algo) :
    LooksServed k a ↔ k.zram0.compAlgo = .of a ∧
      newDriverRefcnt (newDriver a) (procCrypto rs) ≠ [] ∧
      1 < shellNumber (newDriverRefcnt (newDriver a) (procCrypto rs)) := by
  rw [LooksServed, (h.readers a).1]
  refine and_congr_right fun _ => ?_
  cases k.refcnt a with
  | none => exact iff_of_false (by simp) fun ⟨hne, _⟩ => hne rfl
  | some n =>
    have hnum : shellNumber (((some n).map digits).getD []) = n := shellNumber_digits n
    have hne : ((some n).map digits).getD [] ≠ [] := digits_ne_nil n
    rw [hnum, and_iff_right hne]
    simp

/-- A new driver's record mentions no other new driver. -/
theorem newRecord_mentions_iff (n : ℕ) : (newRecord a n).Mentions (newDriver b) ↔ a = b := by
  constructor
  · intro h
    by_contra hab
    have hnl : '\n' ∉ newDriver b := by cases b <;> decide
    obtain ⟨l, hl, hlit⟩ := exists_infix_of_intercalate (newRecord a n).lines_ne_nil hnl h
    have hz : 'z' ∈ l := hlit.subset (by cases b <;> decide)
    rcases List.mem_append.mp hl with hl | hl
    · have hno : ∀ l ∈ (newRecord a 0).nameLines, ¬newDriver b <:+: l := by
        cases a <;> cases b <;> first | exact absurd rfl hab | decide +kernel
      exact hno l hl hlit
    · rcases List.mem_cons.mp hl with rfl | hl
      · exact not_mem_cryptoLine (by decide) (by decide) (not_mem_signedDigits rfl (by decide) _) hz
      · rcases List.mem_cons.mp hl with rfl | hl
        · exact not_mem_cryptoLine (by decide) (by decide) (not_mem_digits rfl) hz
        · have hno : ∀ l ∈ (newRecord a 0).more, 'z' ∉ l := by
            cases a <;> decide
          exact hno l hl hz
  · rintro rfl
    exact (newRecord a n).mentions_driver

/-- The records of the two new drivers, and before them those of everybody else. -/
def Kernel.cryptoRecords (k : Kernel) (others : List CryptoRecord) : List CryptoRecord :=
  others ++ [Algo.lz4, Algo.zstd].filterMap fun a => (k.refcnt a).map (newRecord a)

theorem Kernel.cryptoRecords_lists {others : List CryptoRecord}
    (hothers : ∀ r ∈ others, ∀ a, ¬r.Mentions (newDriver a)) : Lists k (k.cryptoRecords others) := by
  refine ⟨fun b => ?_⟩
  have hnil : (others.filter fun r => r.Mentions (newDriver b)) = [] :=
    List.filter_eq_nil_iff.mpr fun r hr => by simpa using hothers r hr b
  have hown : ∀ a n, decide ((newRecord a n).Mentions (newDriver b)) = decide (a = b) := fun a n =>
    decide_eq_decide.mpr (newRecord_mentions_iff n)
  rw [Kernel.cryptoRecords, List.filter_append, hnil, List.nil_append]
  cases b <;> cases hl : k.refcnt .lz4 <;> cases hz : k.refcnt .zstd <;> simp [hl, hz, hown]

end KernelText

/-- The record of `zstd-new-generic` as the module registers it. -/
def zstdRecord : CryptoRecord :=
  ⟨"zstd".toList, "zstd-new-generic".toList, "zstd_upgrade".toList, 100, 9,
    ["selftest     : passed".toList, "internal     : no".toList, "type         : compression".toList],
    by decide, by decide⟩

/-- Another driver built on it, registered later and so printed first. -/
def wrapperRecord : CryptoRecord :=
  ⟨"zstd".toList, "async(zstd-new-generic)".toList, "wrapper".toList, 50, 1,
    ["selftest     : passed".toList, "internal     : no".toList, "type         : compression".toList],
    by decide, by decide⟩

/-- A driver that has nothing to do with them. -/
def deflateRecord : CryptoRecord :=
  ⟨"deflate".toList, "deflate-generic".toList, "kernel".toList, 0, 2,
    ["selftest     : passed".toList, "internal     : no".toList, "type         : compression".toList],
    by decide, by decide⟩

/-- In front of the wrapper the record is read right: the first record does not mention the driver,
and the last one is not reached. -/
theorem readers_right_front :
    Returns [deflateRecord, zstdRecord, wrapperRecord] (newDriver .zstd)
        (newDriverRefcnt (newDriver .zstd) (procCrypto [deflateRecord, zstdRecord, wrapperRecord])) ∧
      Returns [deflateRecord, zstdRecord, wrapperRecord] (newDriver .zstd)
        (refcntOf (newDriver .zstd) (procCrypto [deflateRecord, zstdRecord, wrapperRecord])) := by
  refine (readers_right_iff (by decide) .zstd).mpr fun r hr => ⟨zstdRecord, by simp, rfl, ?_⟩
  have hfind : ([deflateRecord, zstdRecord, wrapperRecord].find? fun r =>
      r.Mentions (newDriver .zstd)) = some zstdRecord := by
    have hfirst : ¬deflateRecord.Mentions (newDriver .zstd) := by decide +kernel
    have hsecond : zstdRecord.Mentions (newDriver .zstd) := zstdRecord.mentions_driver
    rw [List.find?_cons_of_neg (by simpa using hfirst), List.find?_cons_of_pos (by simpa using hsecond)]
  obtain rfl : zstdRecord = r := Option.some.inj (hfind.symm.trans hr)
  exact ⟨rfl, fun v hv => nomatch (show none = some v from hv)⟩

/-- Behind the wrapper both readers return the refcnt of the wrapper. -/
theorem readers_wrong_wrapper :
    ([wrapperRecord, zstdRecord].map CryptoRecord.driver).Nodup ∧
      ¬Returns [wrapperRecord, zstdRecord] (newDriver .zstd)
        (newDriverRefcnt (newDriver .zstd) (procCrypto [wrapperRecord, zstdRecord])) ∧
      ¬Returns [wrapperRecord, zstdRecord] (newDriver .zstd)
        (refcntOf (newDriver .zstd) (procCrypto [wrapperRecord, zstdRecord])) := by
  refine ⟨by decide, fun h => ?_, fun h => ?_⟩
  · exact absurd (h.found zstdRecord (by simp) rfl) (by decide)
  · exact absurd (h.found zstdRecord (by simp) rfl) (by decide)

end ZramUpgrade.Zram
