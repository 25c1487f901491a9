import Mathlib.Data.List.DropRight
import Mathlib.Tactic

/-!
# Lib.Text — texts as lists: occurrences, lines and paragraphs

The alphabet is arbitrary.  `grepO` is `grep -o` for a pattern that is a literal text and then a
run of symbols outside a class, `sedStrip` is `sed -n 's/^lit//p'`; `grepStrip_head?` says what the
first line of their pipeline is.  `linesOf` and `paragraphs` read lines and blank-line separated
paragraphs back (`linesOf_unlines`, `paragraphs_render`).
-/

namespace ZramUpgrade.Lib

variable {α : Type}

/-! ## The first occurrence of a text -/

section Occurrence

variable {lit text pre after : List α} {stop : α → Bool}

/-- `lit` occurs in `text` between `pre` and `after`, and nowhere earlier. -/
structure FirstAt (lit text pre after : List α) : Prop where
  eq : text = pre ++ lit ++ after
  first : ∀ p q, text = p ++ lit ++ q → pre.length ≤ p.length

theorem FirstAt.tail {c : α} (h : FirstAt lit (c :: text) (c :: pre) after) :
    FirstAt lit text pre after := by
  refine ⟨List.cons_injective h.eq, ?_⟩
  intro p q hpq
  have hle := h.first (c :: p) q (by rw [hpq]; rfl)
  simpa using hle

/-- A text that does not start with `lit` has its first occurrence one symbol later. -/
theorem FirstAt.cons {c : α} (h : FirstAt lit text pre after) (hc : ¬lit <+: c :: text) :
    FirstAt lit (c :: text) (c :: pre) after := by
  refine ⟨congrArg (c :: ·) h.eq, fun p q hpq => ?_⟩
  cases p with
  | nil => exact absurd ⟨q, hpq.symm⟩ hc
  | cons d p =>
    have hle := h.first p q (List.cons.inj hpq).2
    simpa using hle

/-- A text without `c` that occurs in `a ++ c :: b` occurs in `a` or in `b`. -/
theorem infix_append_cons {a b : List α} {c : α} (h : lit <:+: a ++ c :: b) (hc : c ∉ lit) :
    lit <:+: a ∨ lit <:+: b := by
  obtain ⟨s, t, hst⟩ := h
  rw [List.append_assoc] at hst
  rcases List.append_eq_append_iff.mp hst with ⟨a', rfl, h⟩ | ⟨s', rfl, h⟩
  · rcases List.append_eq_append_iff.mp h with ⟨a'', rfl, -⟩ | ⟨l', rfl, h'⟩
    · exact .inl ⟨s, a'', by rw [List.append_assoc]⟩
    · cases l' with
      | nil => exact .inl ⟨s, [], by simp⟩
      | cons x l' =>
        obtain rfl := (List.cons.inj h').1
        exact absurd (List.mem_append_right a' List.mem_cons_self) hc
  · cases s' with
    | nil =>
      cases lit with
      | nil => exact .inl List.nil_infix
      | cons x l =>
        obtain rfl := (List.cons.inj h).1
        exact absurd List.mem_cons_self hc
    | cons x s' => exact .inr ⟨s', t, by rw [List.append_assoc]; exact (List.cons.inj h).2.symm⟩

/-- A run ends at the first symbol of `stop`. -/
theorem takeWhile_run {run rest : List α} {s : α} (hrun : ∀ c ∈ run, stop c = false)
    (hs : stop s = true) : (run ++ s :: rest).takeWhile (!stop ·) = run := by
  rw [List.takeWhile_append_of_pos (by simpa using hrun), List.takeWhile_cons_of_neg (by simp [hs]),
    List.append_nil]

variable [DecidableEq α]

/-- What follows the first occurrence of `lit`. -/
def afterFirst (lit : List α) : List α → Option (List α)
  | [] => none
  | c :: cs => if lit <+: c :: cs then some ((c :: cs).drop lit.length) else afterFirst lit cs

theorem afterFirst_eq_some (h0 : lit ≠ []) (h : FirstAt lit text pre after) :
    afterFirst lit text = some after := by
  induction pre generalizing text with
  | nil =>
    have heq : text = lit ++ after := h.eq
    obtain ⟨c, cs, hcs⟩ := List.exists_cons_of_ne_nil (l := text) (by
      intro hnil
      rw [hnil] at heq
      exact h0 (List.append_eq_nil_iff.mp heq.symm).1)
    rw [hcs, afterFirst, ← hcs, if_pos (heq ▸ List.prefix_append lit after), heq, List.drop_left]
  | cons c pre ih =>
    obtain rfl : text = c :: (pre ++ lit ++ after) := h.eq
    have hnot : ¬ lit <+: c :: (pre ++ lit ++ after) := by
      rintro ⟨q, hq⟩
      have hle := h.first [] q hq.symm
      simp at hle
    rw [afterFirst, if_neg hnot]
    exact ih h.tail

theorem exists_firstAt (h : afterFirst lit text = some after) : ∃ pre, FirstAt lit text pre after := by
  induction text with
  | nil => cases h
  | cons c text ih =>
    rw [afterFirst] at h
    split at h
    · next hpre =>
      obtain ⟨q, hq⟩ := hpre
      have hafter : q = after := by
        rw [← hq, List.drop_left] at h
        exact Option.some.inj h
      exact ⟨[], by rw [← hq, hafter]; rfl, fun p _ _ => Nat.zero_le p.length⟩
    · next hpre =>
      obtain ⟨pre, hfirst⟩ := ih h
      exact ⟨c :: pre, hfirst.cons hpre⟩

/-- `grep -o` for `lit` and the longest run outside `stop` behind it; `skip` more symbols belong to
the match before. -/
def grepO (lit : List α) (stop : α → Bool) : ℕ → List α → List (List α)
  | _, [] => []
  | skip + 1, _ :: cs => grepO lit stop skip cs
  | 0, c :: cs =>
    if lit <+: c :: cs then
      let m := lit ++ ((c :: cs).drop lit.length).takeWhile (!stop ·)
      m :: grepO lit stop (m.length - 1) cs
    else grepO lit stop 0 cs

/-- `sed -n 's/^lit//p'`. -/
def sedStrip (lit : List α) (ls : List (List α)) : List (List α) := ls.filterMap (·.dropPrefix? lit)

theorem grepO_head? (lit : List α) (stop : α → Bool) (text : List α) :
    (grepO lit stop 0 text).head? =
      (afterFirst lit text).map fun after => lit ++ after.takeWhile (!stop ·) := by
  induction text with
  | nil => rfl
  | cons c cs ih =>
    rw [grepO, afterFirst]
    by_cases h : lit <+: c :: cs
    · rw [if_pos h, if_pos h]
      rfl
    · rw [if_neg h, if_neg h]
      exact ih

/-- **The first line of the pipeline** is the run behind the first occurrence. -/
theorem grepStrip_head? (lit : List α) (stop : α → Bool) (text : List α) :
    (sedStrip lit (grepO lit stop 0 text)).head? =
      (afterFirst lit text).map fun after => after.takeWhile (!stop ·) := by
  have hhead := grepO_head? lit stop text
  cases hm : grepO lit stop 0 text with
  | nil =>
    rw [hm, List.head?_nil, eq_comm, Option.map_eq_none_iff] at hhead
    rw [hhead]
    rfl
  | cons m ms =>
    rw [hm, List.head?_cons] at hhead
    obtain ⟨after, hafter, rfl⟩ := Option.map_eq_some_iff.mp hhead.symm
    have hstrip : (lit ++ after.takeWhile (!stop ·)).dropPrefix? lit =
        some (after.takeWhile (!stop ·)) :=
      List.dropPrefix?_eq_some_iff.mpr ⟨lit, rfl, beq_self_eq_true lit⟩
    have hhd : (((lit ++ after.takeWhile (!stop ·)) :: ms).filterMap (·.dropPrefix? lit)).head? =
        some (after.takeWhile (!stop ·)) := by
      rw [List.filterMap_cons, hstrip]
      rfl
    rw [sedStrip, hhd, hafter]
    rfl

end Occurrence

/-! ## Lines and paragraphs -/

section Lines

variable {nl : α}

/-- A text of lines, each of them ended. -/
def unlines (nl : α) (ls : List (List α)) : List α := ls.flatMap (· ++ [nl])

theorem unlines_append (nl : α) (ls ls' : List (List α)) :
    unlines nl (ls ++ ls') = unlines nl ls ++ unlines nl ls' :=
  List.flatMap_append

/-- Lines joined by ends of line, with one more at the end. -/
theorem intercalate_append_nl (nl : α) {p : List (List α)} (h : p ≠ []) :
    [nl].intercalate p ++ [nl] = unlines nl p := by
  induction p with
  | nil => exact absurd rfl h
  | cons l ls ih =>
    cases ls with
    | nil =>
      rw [List.intercalate_singleton]
      exact (List.flatMap_singleton ..).symm
    | cons l' ls =>
      rw [List.intercalate_cons_cons, List.append_assoc, List.append_assoc, ih (List.cons_ne_nil _ _)]
      exact (List.append_assoc l [nl] _).symm

/-- A line occurs in the lines joined. -/
theorem infix_intercalate (nl : α) {l : List α} {p : List (List α)} (h : l ∈ p) :
    l <:+: [nl].intercalate p := by
  induction p with
  | nil => exact absurd h List.not_mem_nil
  | cons l' ls ih =>
    cases ls with
    | nil =>
      rw [List.mem_singleton.mp h, List.intercalate_singleton]
    | cons l'' ls =>
      rw [List.intercalate_cons_cons]
      rcases List.mem_cons.mp h with rfl | h
      · rw [List.append_assoc]
        exact (List.prefix_append _ _).isInfix
      · exact (ih h).trans (List.suffix_append _ _).isInfix

/-- A text without ends of line that occurs in the lines joined occurs in one of them. -/
theorem exists_infix_of_intercalate {lit : List α} {p : List (List α)} (hp : p ≠ [])
    (hnl : nl ∉ lit) (h : lit <:+: [nl].intercalate p) : ∃ l ∈ p, lit <:+: l := by
  induction p with
  | nil => exact absurd rfl hp
  | cons l ls ih =>
    cases ls with
    | nil =>
      rw [List.intercalate_singleton] at h
      exact ⟨l, List.mem_singleton_self l, h⟩
    | cons l' ls =>
      rw [List.intercalate_cons_cons, List.append_assoc] at h
      rcases infix_append_cons h hnl with h | h
      · exact ⟨l, List.mem_cons_self, h⟩
      · obtain ⟨l'', hl'', hlit⟩ := ih (List.cons_ne_nil _ _) h
        exact ⟨l'', List.mem_cons_of_mem _ hl'', hlit⟩

variable [DecidableEq α]

/-- The first piece of a split. -/
theorem splitOn_eq_cons (c : α) (v : List α) :
    ∃ rest, v.splitOn c = v.takeWhile (· ≠ c) :: rest := by
  induction v with
  | nil => exact ⟨[], rfl⟩
  | cons x v ih =>
    obtain ⟨rest, hrest⟩ := ih
    rw [List.splitOn_cons_eq_if_modifyHead]
    by_cases hx : x = c
    · rw [if_pos (by simpa using hx), List.takeWhile_cons_of_neg (by simpa using hx)]
      exact ⟨_, rfl⟩
    · rw [if_neg (by simpa using hx), List.takeWhile_cons_of_pos (by simpa using hx), hrest]
      exact ⟨rest, rfl⟩

/-- The lines of a text; an empty one stands behind the last end of line. -/
def linesOf (nl : α) (text : List α) : List (List α) := text.splitOn nl

theorem linesOf_unlines {ls : List (List α)} (h : ∀ l ∈ ls, nl ∉ l) :
    linesOf nl (unlines nl ls) = ls ++ [[]] := by
  induction ls with
  | nil => rfl
  | cons l ls ih =>
    have hcons : unlines nl (l :: ls) = l ++ nl :: unlines nl ls := by
      rw [unlines, List.flatMap_cons, List.append_assoc]
      rfl
    rw [hcons, linesOf, List.splitOn_append_cons_self_of_not_mem (h l List.mem_cons_self)]
    exact congrArg (l :: ·) (ih fun l' hl' => h l' (List.mem_cons_of_mem _ hl'))

/-- `RS=""` of awk: the maximal groups of lines that are not empty. -/
def paragraphs (nl : α) (text : List α) : List (List (List α)) :=
  ((linesOf nl text).splitOnP List.isEmpty).filter (· ≠ [])

/-- Paragraphs, each of them followed by an empty line. -/
def render (nl : α) (ps : List (List (List α))) : List α :=
  unlines nl (ps.flatMap (· ++ [[]]))

/-- **Paragraphs are read back** when no line of them is empty or has an end of line in it. -/
theorem paragraphs_render {ps : List (List (List α))} (hne : ∀ p ∈ ps, p ≠ [])
    (hline : ∀ p ∈ ps, ∀ l ∈ p, l ≠ [] ∧ nl ∉ l) : paragraphs nl (render nl ps) = ps := by
  have hnl : ∀ l ∈ ps.flatMap (· ++ [[]]), nl ∉ l := by
    intro l hl
    obtain ⟨p, hp, hlp⟩ := List.mem_flatMap.mp hl
    rcases List.mem_append.mp hlp with hlp | hlp
    · exact (hline p hp l hlp).2
    · rw [List.mem_singleton.mp hlp]
      exact List.not_mem_nil
  rw [paragraphs, render, linesOf_unlines hnl]
  clear hnl
  induction ps with
  | nil => rfl
  | cons p ps ih =>
    have hp : ∀ l ∈ p, List.isEmpty l = false := fun l hl =>
      List.isEmpty_eq_false_iff.mpr (hline p List.mem_cons_self l hl).1
    have hsplit : (p :: ps).flatMap (· ++ [[]]) ++ [[]] = p ++ [] :: (ps.flatMap (· ++ [[]]) ++ [[]]) := by
      rw [List.flatMap_cons, List.append_assoc, List.append_assoc]
      rfl
    rw [hsplit, List.splitOnP_append_cons_of_forall_mem hp [] rfl,
      List.filter_cons_of_pos (by simpa using hne p List.mem_cons_self)]
    exact congrArg (p :: ·) (ih (fun q hq => hne q (List.mem_cons_of_mem _ hq))
      fun q hq => hline q (List.mem_cons_of_mem _ hq))

end Lines

end ZramUpgrade.Lib
