import Mathlib.Logic.Relation
import Mathlib.Tactic

/-!
# Lib.Script — shell scripts over a partial transition system

A system is a function `step : σ → ε → Option σ`: `none` is a refused event.  A command is a
function from the state to an exit status and a state; `attempt` is the command that asks the
system for one event and may also fail for a reason outside the model.  Rules for the sequencing
`c || return 1; d`, a two-sided postcondition (on success, on failure), and sequences of runs.
-/

namespace ZramUpgrade.Lib

variable {σ ε ρ : Type}

/-! ## Runs of the system -/

/-- One accepted event leads from `s` to `s'`. -/
def Moves (step : σ → ε → Option σ) (s s' : σ) : Prop := ∃ e, step s e = some s'

/-- `s'` is reached from `s` by accepted events. -/
def Reaches (step : σ → ε → Option σ) : σ → σ → Prop := Relation.ReflTransGen (Moves step)

/-- The state after a list of events, all of them accepted. -/
def runAll (step : σ → ε → Option σ) (s : σ) : List ε → Option σ
  | [] => some s
  | e :: es => (step s e).bind fun s' => runAll step s' es

theorem reaches_of_runAll {step : σ → ε → Option σ} {es : List ε} {s s' : σ}
    (h : runAll step s es = some s') : Reaches step s s' := by
  induction es generalizing s with
  | nil => cases h; exact .refl
  | cons e es ih =>
    obtain ⟨s₁, h₁, h₂⟩ := Option.bind_eq_some_iff.mp h
    exact .head ⟨e, h₁⟩ (ih h₂)

/-- What every accepted event keeps, every run keeps. -/
theorem Reaches.invariant {step : σ → ε → Option σ} {I : σ → Prop}
    (hI : ∀ s e s', I s → step s e = some s' → I s') {s s' : σ} (h : Reaches step s s')
    (h₀ : I s) : I s' := by
  induction h with
  | refl => exact h₀
  | tail _ hm ih =>
    obtain ⟨e, he⟩ := hm
    exact hI _ e _ ih he

/-! ## Commands -/

/-- What a command leaves: whether it exited 0, and the state. -/
structure Exit (σ : Type) where
  ok : Bool
  state : σ

/-- `r || return 1; d`. -/
def Exit.andThen (r : Exit σ) (d : σ → Exit σ) : Exit σ := if r.ok then d r.state else r

/-- If `r` exited 0 its state satisfies `Q`, otherwise `R`. -/
def Exit.Post (r : Exit σ) (Q R : σ → Prop) : Prop :=
  (r.ok = true → Q r.state) ∧ (r.ok = false → R r.state)

@[simp] theorem andThen_true (s : σ) (d : σ → Exit σ) : (Exit.mk true s).andThen d = d s := rfl

@[simp] theorem andThen_false (s : σ) (d : σ → Exit σ) :
    (Exit.mk false s).andThen d = ⟨false, s⟩ := rfl

theorem Exit.Post.andThen {r : Exit σ} {d : σ → Exit σ} {Q Q' R : σ → Prop} (hr : r.Post Q R)
    (hd : ∀ s, Q s → (d s).Post Q' R) : (r.andThen d).Post Q' R := by
  obtain ⟨ok, s⟩ := r
  cases ok with
  | true => exact hd s (hr.1 rfl)
  | false => exact ⟨(fun h => nomatch h), fun _ => hr.2 rfl⟩

theorem Exit.Post.mono {r : Exit σ} {Q Q' R R' : σ → Prop} (h : r.Post Q R)
    (hQ : ∀ s, Q s → Q' s) (hR : ∀ s, R s → R' s) : r.Post Q' R' :=
  ⟨fun hk => hQ _ (h.1 hk), fun hk => hR _ (h.2 hk)⟩

/-- What holds on both exits holds of the state left. -/
theorem Exit.Post.state {r : Exit σ} {I : σ → Prop} (h : r.Post I I) : I r.state := by
  cases hk : r.ok with
  | true => exact h.1 hk
  | false => exact h.2 hk

/-- Ask the system for the event `e`; `allow` is the part of its success the model does not see. -/
def attempt (step : σ → ε → Option σ) (allow : Bool) (e : ε) (s : σ) : Exit σ :=
  match allow, step s e with
  | true, some s' => ⟨true, s'⟩
  | _, _ => ⟨false, s⟩

section attempt

variable {step : σ → ε → Option σ} {allow : Bool} {e : ε} {s : σ}

theorem attempt_accept {s' : σ} (ha : allow = true) (h : step s e = some s') :
    attempt step allow e s = ⟨true, s'⟩ := by
  simp only [attempt, ha, h]

theorem attempt_deny : attempt step false e s = ⟨false, s⟩ := rfl

/-- An event the system accepts fails only where it is not allowed. -/
theorem attempt_granted {Q R : σ → Prop} (hQ : ∃ s', step s e = some s' ∧ Q s')
    (hR : allow = false → R s) : (attempt step allow e s).Post Q R := by
  obtain ⟨s', h, hq⟩ := hQ
  cases allow with
  | false => exact ⟨(fun h => nomatch h), fun _ => hR rfl⟩
  | true => rw [attempt_accept rfl h]; exact ⟨fun _ => hq, (fun h => nomatch h)⟩

/-- Whatever the world decides, an attempt moves the system by its own events. -/
theorem attempt_reaches (step : σ → ε → Option σ) (allow : Bool) (e : ε) (s : σ) :
    Reaches step s (attempt step allow e s).state := by
  cases allow with
  | false => exact .refl
  | true =>
    cases h : step s e with
    | none => simp only [attempt, h]; exact .refl
    | some s' => rw [attempt_accept rfl h]; exact .single ⟨e, h⟩

theorem andThen_reaches {step : σ → ε → Option σ} {r : Exit σ} {d : σ → Exit σ}
    (hr : Reaches step s r.state) (hd : ∀ t, Reaches step t (d t).state) :
    Reaches step s (r.andThen d).state := by
  obtain ⟨ok, t⟩ := r
  cases ok with
  | false => exact hr
  | true => exact hr.trans (hd t)

end attempt

/-! ## Sequences of runs -/

section runs

variable (c : ρ → σ → Exit σ)

/-- The state after running `c` once for every entry of the list, whatever each run returns. -/
def after (s : σ) : List ρ → σ
  | [] => s
  | r :: rs => after (c r s).state rs

/-- Every run of the sequence, in the state it starts from, satisfies `P`. -/
def EachRun (P : σ → ρ → Prop) (s : σ) : List ρ → Prop
  | [] => True
  | r :: rs => P s r ∧ EachRun P (c r s).state rs

variable {c}

theorem after_append (s : σ) (rs rs' : List ρ) :
    after c s (rs ++ rs') = after c (after c s rs) rs' := by
  induction rs generalizing s with
  | nil => rfl
  | cons r rs ih => exact ih (c r s).state

theorem after_invariant {I : σ → Prop} (hkeep : ∀ s r, I s → I (c r s).state) {s : σ} (hs : I s)
    (rs : List ρ) : I (after c s rs) := by
  induction rs generalizing s with
  | nil => exact hs
  | cons r rs ih => exact ih (hkeep s r hs)

/-- Where a property of one run follows from a condition on it under an invariant that the
condition keeps, the property of a sequence follows from the condition on each of its runs. -/
theorem EachRun.of_invariant {I : σ → Prop} {P Q : σ → ρ → Prop}
    (hkeep : ∀ s r, I s → Q s r → I (c r s).state) (hP : ∀ s r, I s → Q s r → P s r)
    {rs : List ρ} {s : σ} (hs : I s) (h : EachRun c Q s rs) : EachRun c P s rs := by
  induction rs generalizing s with
  | nil => trivial
  | cons r rs ih => exact ⟨hP s r hs h.1, ih (hkeep s r hs h.1) h.2⟩

/-- An invariant that the condition keeps holds at the end of a sequence that meets it. -/
theorem EachRun.after {I : σ → Prop} {Q : σ → ρ → Prop}
    (hkeep : ∀ s r, I s → Q s r → I (c r s).state) {rs : List ρ} {s : σ} (hs : I s)
    (h : EachRun c Q s rs) : I (after c s rs) := by
  induction rs generalizing s with
  | nil => exact hs
  | cons r rs ih => exact ih (hkeep s r hs h.1) h.2

theorem EachRun.iff_of_invariant {I : σ → Prop} {P Q : σ → ρ → Prop}
    (hkeep : ∀ s r, I s → I (c r s).state) (hPQ : ∀ s r, I s → (P s r ↔ Q s r)) {rs : List ρ}
    {s : σ} (hs : I s) : EachRun c P s rs ↔ EachRun c Q s rs := by
  constructor
  · intro h
    exact h.of_invariant (fun s r hI _ => hkeep s r hI) (fun s r hI => (hPQ s r hI).mp) hs
  · intro h
    exact h.of_invariant (fun s r hI _ => hkeep s r hI) (fun s r hI => (hPQ s r hI).mpr) hs

end runs

end ZramUpgrade.Lib
