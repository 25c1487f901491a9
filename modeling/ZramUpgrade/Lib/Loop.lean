import Mathlib.Tactic

/-!
# Lib.Loop — a loop as iteration of one step function

A loop with jumps is a `step : σ → Step σ ρ`: it goes on in a new state or is done with a result.
`run step n` takes at most `n` steps.  `run_spec` is the total-correctness rule (an invariant and a
measure that every step decreases), `run_rel` the two-run rule (a relation that paired steps keep),
`run_sim` forward simulation of the runs that end well, `run_congr` the rule for a step that is only the
same on the way to a good end.  A loop over the numbers below a bound is a
fold, whose invariant says what the numbers so far have done (`foldl_range`, `foldlM_range`).
-/

namespace ZramUpgrade.Lib

/-- The outcome of one step of a loop. -/
inductive Step (σ ρ : Type) where
  | next (s : σ)
  | done (r : ρ)

section Loop

variable {σ σ' ρ ρ' : Type}

/-- Iterate `step`; no result when `n` steps do not finish. -/
def run (step : σ → Step σ ρ) : ℕ → σ → Option ρ
  | 0, _ => none
  | n + 1, s =>
    match step s with
    | .next s' => run step n s'
    | .done r => some r

theorem run_next {step : σ → Step σ ρ} {s s' : σ} (h : step s = .next s') (n : ℕ) :
    run step (n + 1) s = run step n s' := by
  rw [run, h]

theorem run_done {step : σ → Step σ ρ} {s : σ} {r : ρ} (h : step s = .done r) (n : ℕ) :
    run step (n + 1) s = some r := by
  rw [run, h]

/-- A step from an invariant state keeps the invariant and decreases the measure, or ends well. -/
def GoodStep (step : σ → Step σ ρ) (inv : σ → Prop) (μ : σ → ℕ) (post : ρ → Prop) (s : σ) : Prop :=
  (∃ s', step s = .next s' ∧ inv s' ∧ μ s' < μ s) ∨ ∃ r, step s = .done r ∧ post r

/-- **Total correctness**: with more fuel than the measure, the loop ends with the postcondition. -/
theorem run_spec {step : σ → Step σ ρ} {I : σ → Prop} {μ : σ → ℕ} {P : ρ → Prop}
    (hstep : ∀ s, I s → GoodStep step I μ P s) :
    ∀ n s, I s → μ s < n → ∃ r, run step n s = some r ∧ P r := by
  intro n
  induction n with
  | zero => intro s _ hn; omega
  | succ n ih =>
    intro s hs hn
    rcases hstep s hs with ⟨s', he, hs', hμ⟩ | ⟨r, he, hr⟩
    · obtain ⟨r, hr, hpost⟩ := ih s' hs' (by omega)
      exact ⟨r, by rw [run_next he, hr], hpost⟩
    · exact ⟨r, run_done he n, hr⟩

/-- A second invariant and postcondition beside those of a good step. -/
theorem GoodStep.and {step : σ → Step σ ρ} {I J : σ → Prop} {μ : σ → ℕ} {P Q : ρ → Prop} {s : σ}
    (h : GoodStep step I μ P s) (hJ : ∀ s', step s = .next s' → J s')
    (hQ : ∀ r, step s = .done r → Q r) :
    GoodStep step (fun s => I s ∧ J s) μ (fun r => P r ∧ Q r) s := by
  rcases h with ⟨s', he, hI, hμ⟩ | ⟨r, he, hP⟩
  · exact .inl ⟨s', he, ⟨hI, hJ s' he⟩, hμ⟩
  · exact .inr ⟨r, he, hP, hQ r he⟩

/-- Paired steps go on in related states or end with related results. -/
inductive RelStep (R : σ → σ' → Prop) (Q : ρ → ρ' → Prop) : Step σ ρ → Step σ' ρ' → Prop where
  | next {s : σ} {s' : σ'} : R s s' → RelStep R Q (.next s) (.next s')
  | done {r : ρ} {r' : ρ'} : Q r r' → RelStep R Q (.done r) (.done r')

/-- **Lock step**: runs from related states end with related results, or both lack the fuel. -/
theorem run_rel {step : σ → Step σ ρ} {step' : σ' → Step σ' ρ'} {R : σ → σ' → Prop}
    {Q : ρ → ρ' → Prop} (hstep : ∀ s s', R s s' → RelStep R Q (step s) (step' s')) :
    ∀ n s s', R s s' → Option.Rel Q (run step n s) (run step' n s') := by
  intro n
  induction n with
  | zero => intro s s' _; exact Option.Rel.none
  | succ n ih =>
    intro s s' hR
    have h := hstep s s' hR
    cases hs : step s with
    | next t =>
      cases hs' : step' s' with
      | next t' =>
        rw [hs, hs'] at h
        cases h with
        | next hR' => rw [run_next hs, run_next hs']; exact ih t t' hR'
      | done r' => rw [hs, hs'] at h; cases h
    | done r =>
      cases hs' : step' s' with
      | next t' => rw [hs, hs'] at h; cases h
      | done r' =>
        rw [hs, hs'] at h
        cases h with
        | done hQ => rw [run_done hs, run_done hs']; exact Option.Rel.some hQ

/-- Step `x` is matched by step `y`, unless `x` ends a run badly. -/
def SimStep (R : σ → σ' → Prop) (P : ρ → Prop) (Q : ρ → ρ' → Prop) (x : Step σ ρ)
    (y : Step σ' ρ') : Prop :=
  (∀ s, x = .next s → ∃ s', y = .next s' ∧ R s s') ∧
    ∀ r, x = .done r → P r → ∃ r', y = .done r' ∧ Q r r'

/-- **Simulation**: a run that ends well has a run of the other loop beside it. -/
theorem run_sim {step : σ → Step σ ρ} {step' : σ' → Step σ' ρ'} {R : σ → σ' → Prop}
    {P : ρ → Prop} {Q : ρ → ρ' → Prop}
    (hstep : ∀ s s', R s s' → SimStep R P Q (step s) (step' s')) :
    ∀ n s s' r, R s s' → run step n s = some r → P r → ∃ r', run step' n s' = some r' ∧ Q r r' := by
  intro n
  induction n with
  | zero => intro s s' r _ h; exact nomatch h
  | succ n ih =>
    intro s s' r hR hrun hP
    obtain ⟨hnext, hdone⟩ := hstep s s' hR
    cases hs : step s with
    | next t =>
      obtain ⟨t', ht', hR'⟩ := hnext t hs
      rw [run_next hs] at hrun
      rw [run_next ht']
      exact ih t t' r hR' hrun hP
    | done e =>
      rw [run_done hs] at hrun
      obtain rfl : e = r := Option.some.inj hrun
      obtain ⟨r', hr', hQ⟩ := hdone e hs hP
      exact ⟨r', run_done hr' n, hQ⟩

/-- `J` of the state the step goes on in, or `K` of the result it ends with. -/
def Step.Holds (J : σ → Prop) (K : ρ → Prop) : Step σ ρ → Prop
  | .next s => J s
  | .done r => K r

/-- **Back from the end**: where a step that comes to `J` or `K` comes from `J`, and is a step of the other
loop too, a run that ends with `K` is a run of the other loop. -/
theorem run_congr {step step' : σ → Step σ ρ} {J : σ → Prop} {K : ρ → Prop}
    (hstep : ∀ s, (step s).Holds J K → J s ∧ step' s = step s) :
    ∀ n s {r : ρ}, run step n s = some r → K r → J s ∧ run step' n s = some r := by
  intro n
  induction n with
  | zero => intro s r h; exact nomatch h
  | succ n ih =>
    intro s r hrun hK
    cases hs : step s with
    | next s' =>
      rw [run_next hs] at hrun
      obtain ⟨hJ, hrun'⟩ := ih s' hrun hK
      obtain ⟨hJs, he⟩ := hstep s (by rw [hs]; exact hJ)
      exact ⟨hJs, by rw [run_next (he.trans hs), hrun']⟩
    | done r' =>
      rw [run_done hs] at hrun
      obtain rfl : r' = r := Option.some.inj hrun
      obtain ⟨hJs, he⟩ := hstep s (by rw [hs]; exact hK)
      exact ⟨hJs, run_done (he.trans hs) n⟩

/-- What is read off related results is equal when it is equal on every related pair. -/
theorem map_eq_of_rel {α : Type} {Q : ρ → ρ' → Prop} {f : ρ → α} {g : ρ' → α}
    (hfg : ∀ r r', Q r r' → f r = g r') {x : Option ρ} {y : Option ρ'} (h : Option.Rel Q x y) :
    x.map f = y.map g := by
  cases h with
  | none => rfl
  | some hQ => exact congrArg some (hfg _ _ hQ)

end Loop

section Range

variable {β ε : Type} {I : ℕ → β → Prop} {n : ℕ} {b : β}

/-- **A loop over the numbers below `n`** keeps what every turn takes one number on. -/
theorem foldl_range {f : β → ℕ → β} (h0 : I 0 b) (hstep : ∀ k < n, ∀ b, I k b → I (k + 1) (f b k)) :
    I n ((List.range n).foldl f b) := by
  induction n with
  | zero => exact h0
  | succ n ih =>
    rw [List.range_succ, List.foldl_append]
    exact hstep n (Nat.lt_succ_self n) _ (ih fun k hk => hstep k (Nat.lt_succ_of_lt hk))

/-- The same where a turn may fail: a result has the invariant, and an error comes from a turn. -/
theorem foldlM_range {f : β → ℕ → Except ε β} (h0 : I 0 b)
    (hstep : ∀ k < n, ∀ b b', I k b → f b k = .ok b' → I (k + 1) b') :
    (∃ r, (List.range n).foldlM f b = .ok r ∧ I n r) ∨
      ∃ e k r, k < n ∧ I k r ∧ f r k = .error e ∧ (List.range n).foldlM f b = .error e := by
  induction n with
  | zero => exact .inl ⟨b, rfl, h0⟩
  | succ n ih =>
    rw [List.range_succ, List.foldlM_append]
    rcases ih fun k hk => hstep k (Nat.lt_succ_of_lt hk) with ⟨r, hr, hI⟩ | ⟨e, k, r, hk, hI, he, hrun⟩
    · rw [hr]
      cases hf : f r n with
      | ok r' =>
        refine .inl ⟨r', ?_, hstep n (Nat.lt_succ_self n) r r' hI hf⟩
        simp only [bind, Except.bind, List.foldlM_cons, List.foldlM_nil, hf, pure, Except.pure]
      | error e =>
        refine .inr ⟨e, n, r, Nat.lt_succ_self n, hI, hf, ?_⟩
        simp only [bind, Except.bind, List.foldlM_cons, hf]
    · rw [hrun]
      exact .inr ⟨e, k, r, Nat.lt_succ_of_lt hk, hI, he, rfl⟩

end Range

end ZramUpgrade.Lib
