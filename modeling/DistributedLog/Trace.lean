/-!
# Labelled runs

The generic notion of a run used by every result about a whole history: a
step relation labelled with events, and the runs it generates from a start
state. Two rules come with it: an invariant kept by every step holds at the
end of every run, and a step-by-step simulation carries a run of one system
to a run of another over the same events. An invariant that speaks of the
events too is proved by induction on the run itself.

Where a system answers every event in one way only it is a function, and
`Machine` has its runs with the answers.

Runs grow at the *end* (`snoc`), so a statement about the most recent events
is a statement about the last elements of the event list.
-/

namespace DistributedLog

/-- An element of a list that grows at the end is the new one or one that was
there before. -/
theorem snoc_eq_split {ε : Type} {es pre post : List ε} {e q : ε}
    (h : es ++ [e] = pre ++ q :: post) :
    (pre = es ∧ q = e) ∨ ∃ post', es = pre ++ q :: post' := by
  rcases List.eq_nil_or_concat post with rfl | ⟨post', x, rfl⟩
  · obtain ⟨hpre, hq⟩ := List.append_inj' h rfl
    exact .inl ⟨hpre.symm, (List.singleton_inj.mp hq).symm⟩
  · rw [List.concat_eq_append, ← List.cons_append, ← List.append_assoc] at h
    exact .inr ⟨post', (List.append_inj' h rfl).1⟩

/-- `Trace step s₀ es s`: from `s₀`, the events `es` in this order lead to `s`. -/
inductive Trace {σ ε : Type} (step : σ → ε → σ → Prop) (s₀ : σ) : List ε → σ → Prop where
  | init : Trace step s₀ [] s₀
  | snoc {es : List ε} {e : ε} {s s' : σ} :
      Trace step s₀ es s → step s e s' → Trace step s₀ (es ++ [e]) s'

namespace Trace

variable {σ τ ε : Type} {step : σ → ε → σ → Prop} {s₀ : σ}

theorem append {s₁ s₂ : σ} {es es' : List ε} (h : Trace step s₀ es s₁)
    (h' : Trace step s₁ es' s₂) : Trace step s₀ (es ++ es') s₂ := by
  induction h' with
  | init =>
      rw [List.append_nil]
      exact h
  | snoc _ hs ih =>
      rw [← List.append_assoc]
      exact ih.snoc hs

/-- The state in which one of the events came. -/
theorem split {s : σ} {es pre post : List ε} {e : ε} (h : Trace step s₀ es s)
    (hes : es = pre ++ e :: post) :
    ∃ s₁ s₂, Trace step s₀ pre s₁ ∧ step s₁ e s₂ ∧ Trace step s₂ post s := by
  induction h generalizing post with
  | init => exact absurd hes (by simp)
  | @snoc es e' s s' htr hs ih =>
      rcases List.eq_nil_or_concat post with rfl | ⟨post', x, rfl⟩
      · obtain ⟨rfl, he⟩ := List.append_inj' hes rfl
        obtain rfl := List.singleton_inj.mp he
        exact ⟨s, s', htr, hs, .init⟩
      · rw [List.concat_eq_append, ← List.cons_append, ← List.append_assoc] at hes
        obtain ⟨hes', he⟩ := List.append_inj' hes rfl
        obtain rfl := List.singleton_inj.mp he
        obtain ⟨s₁, s₂, h₁, h₂, h₃⟩ := ih hes'
        exact ⟨s₁, s₂, h₁, h₂, List.concat_eq_append .. ▸ h₃.snoc hs⟩

/-- The invariant rule. -/
theorem invariant {I : σ → Prop} (h₀ : I s₀) (hstep : ∀ s e s', I s → step s e s' → I s')
    {es : List ε} {s : σ} (ht : Trace step s₀ es s) : I s := by
  induction ht with
  | init => exact h₀
  | snoc _ hs ih => exact hstep _ _ _ ih hs

/-- The invariant rule for what every step says of its event. -/
theorem events {I : σ → Prop} {P : ε → Prop} (h₀ : I s₀)
    (hstep : ∀ s e s', I s → step s e s' → I s' ∧ P e) {es : List ε} {s : σ}
    (ht : Trace step s₀ es s) : ∀ e ∈ es, P e := by
  induction ht with
  | init =>
      intro e he
      cases he
  | snoc ht hs ih =>
      intro e he
      have hI := ht.invariant h₀ fun s e s' hs hse => (hstep s e s' hs hse).1
      rcases List.mem_append.mp he with he | he
      · exact ih e he
      · rw [List.mem_singleton.mp he]
        exact (hstep _ _ _ hI hs).2

/-- The simulation rule: a relation that holds at the start and that every
step can be matched under carries runs of `step` to runs of `step'`. -/
theorem simulation {step' : τ → ε → τ → Prop} {t₀ : τ} {R : σ → τ → Prop} (h₀ : R s₀ t₀)
    (hstep : ∀ s t e s', R s t → step s e s' → ∃ t', step' t e t' ∧ R s' t')
    {es : List ε} {s : σ} (ht : Trace step s₀ es s) : ∃ t, Trace step' t₀ es t ∧ R s t := by
  induction ht with
  | init => exact ⟨t₀, .init, h₀⟩
  | snoc _ hs ih =>
      obtain ⟨t, htr, hR⟩ := ih
      obtain ⟨t', hs', hR'⟩ := hstep _ _ _ _ hR hs
      exact ⟨t', htr.snoc hs', hR'⟩

end Trace

/-! ## Machines -/

namespace Machine

variable {σ ε ρ : Type} {step : σ → ε → σ × ρ} {s : σ}

/-- The inputs one after the other, each with its answer. -/
def run (step : σ → ε → σ × ρ) (s : σ) : List ε → σ × List (ε × ρ)
  | [] => (s, [])
  | e :: es =>
      let next := step s e
      let rest := run step next.1 es
      (rest.1, (e, next.2) :: rest.2)

/-- Every input comes in a state in which it may. -/
def Along (step : σ → ε → σ × ρ) (P : σ → ε → Prop) (s : σ) : List ε → Prop
  | [] => True
  | e :: es => P s e ∧ Along step P (step s e).1 es

instance decidableAlong (step : σ → ε → σ × ρ) (P : σ → ε → Prop) [∀ s e, Decidable (P s e)] :
    (s : σ) → (es : List ε) → Decidable (Along step P s es)
  | _, [] => .isTrue trivial
  | s, e :: es =>
      have := decidableAlong step P (step s e).1 es
      inferInstanceAs (Decidable (_ ∧ _))

theorem run_concat (es : List ε) (e : ε) :
    run step s (es ++ [e]) = ((step (run step s es).1 e).1,
      (run step s es).2 ++ [(e, (step (run step s es).1 e).2)]) := by
  induction es generalizing s with
  | nil => rfl
  | cons e' es ih => simp only [List.cons_append, run, ih]

theorem along_concat {P : σ → ε → Prop} {es : List ε} {e : ε} :
    Along step P s (es ++ [e]) ↔ Along step P s es ∧ P (run step s es).1 e := by
  induction es generalizing s with
  | nil => simp only [List.nil_append, Along, run, and_true, true_and]
  | cons e' es ih => simp only [List.cons_append, Along, run, ih, and_assoc]

/-- The invariant rule, for what may also depend on the answers. -/
theorem invariant {P : σ → ε → Prop} {I : σ → List (ε × ρ) → Prop}
    (hstep : ∀ s xs e, I s xs → P s e → I (step s e).1 (xs ++ [(e, (step s e).2)]))
    (h₀ : I s []) {es : List ε} (h : Along step P s es) :
    I (run step s es).1 (run step s es).2 := by
  -- with the answers so far, which the recursion does not see
  have hgen : ∀ (es : List ε) (s : σ) (xs : List (ε × ρ)), I s xs → Along step P s es →
      I (run step s es).1 (xs ++ (run step s es).2) := by
    intro es
    induction es with
    | nil =>
        intro s xs hI _
        rw [run, List.append_nil]
        exact hI
    | cons e es ih =>
        intro s xs hI hP
        have hrest := ih _ _ (hstep s xs e hI hP.1) hP.2
        rw [List.append_assoc] at hrest
        exact hrest
  exact hgen es s [] h₀ h

end Machine

end DistributedLog
