/-!
# Machines that answer every call

A component with a sequential interface is a function `f : σ → ι → σ × ο`: a call
`ι` in a state gives the next state and an answer. `final` and `outputs` run a
list of calls. Four rules carry every property of such runs: an invariant, a
simulation by another machine, or by one with translated calls, and the splitting of
a run in two.
-/

namespace Lib.Machine

variable {σ τ ι ο : Type}

/-- The state after a list of calls. -/
def final (f : σ → ι → σ × ο) : σ → List ι → σ
  | s, [] => s
  | s, i :: is => final f (f s i).1 is

/-- The answers to a list of calls, one for each call. -/
def outputs (f : σ → ι → σ × ο) : σ → List ι → List ο
  | _, [] => []
  | s, i :: is => (f s i).2 :: outputs f (f s i).1 is

variable (f : σ → ι → σ × ο) (s : σ)

@[simp] theorem final_nil : final f s [] = s := rfl

@[simp] theorem final_cons (i : ι) (is : List ι) :
    final f s (i :: is) = final f (f s i).1 is := rfl

@[simp] theorem outputs_nil : outputs f s [] = [] := rfl

@[simp] theorem outputs_cons (i : ι) (is : List ι) :
    outputs f s (i :: is) = (f s i).2 :: outputs f (f s i).1 is := rfl

@[simp] theorem final_append (is js : List ι) :
    final f s (is ++ js) = final f (final f s is) js := by
  induction is generalizing s with
  | nil => rfl
  | cons i is ih => exact ih (f s i).1

@[simp] theorem outputs_append (is js : List ι) :
    outputs f s (is ++ js) = outputs f s is ++ outputs f (final f s is) js := by
  induction is generalizing s with
  | nil => rfl
  | cons i is ih => rw [List.cons_append, outputs_cons, outputs_cons, ih, final_cons]; rfl

@[simp] theorem outputs_length (is : List ι) : (outputs f s is).length = is.length := by
  induction is generalizing s with
  | nil => rfl
  | cons i is ih => rw [outputs_cons, List.length_cons, List.length_cons, ih]

variable {f s}

/-- **The invariant rule**, for runs whose calls all meet a condition. -/
theorem final_invariant {I : σ → Prop} {C : ι → σ → Prop}
    (hstep : ∀ s i, I s → C i s → I (f s i).1) :
    ∀ (is : List ι) (s : σ), I s →
      (∀ is₁ i is₂, is = is₁ ++ i :: is₂ → C i (final f s is₁)) → I (final f s is)
  | [], _, h, _ => h
  | i :: is, s, h, hc => by
      refine final_invariant hstep is (f s i).1 (hstep s i h (hc [] i is rfl)) ?_
      intro is₁ j is₂ he
      exact hc (i :: is₁) j is₂ (by rw [he, List.cons_append])

/-- **The simulation rule.** Two machines whose related states give equal answers
and stay related cannot be told apart by any run. -/
theorem simulation {g : τ → ι → τ × ο} {R : σ → τ → Prop} {C : ι → σ → Prop}
    (hstep : ∀ s t i, R s t → C i s → R (f s i).1 (g t i).1 ∧ (f s i).2 = (g t i).2) :
    ∀ (is : List ι) (s : σ) (t : τ), R s t →
      (∀ is₁ i is₂, is = is₁ ++ i :: is₂ → C i (final f s is₁)) →
      R (final f s is) (final g t is) ∧ outputs f s is = outputs g t is
  | [], _, _, h, _ => ⟨h, rfl⟩
  | i :: is, s, t, h, hc => by
      obtain ⟨h1, h2⟩ := hstep s t i h (hc [] i is rfl)
      obtain ⟨h3, h4⟩ := simulation hstep is (f s i).1 (g t i).1 h1 (fun is₁ j is₂ he =>
        hc (i :: is₁) j is₂ (by rw [he, List.cons_append]))
      exact ⟨h3, by rw [outputs_cons, outputs_cons, h2, h4]⟩

/-- **The translation rule.** Two machines, one of which gets the inputs of the other translated,
and whose related states give the same answers up to `out` and `out'`. -/
theorem translation {ι' ο' π : Type} {g : τ → ι' → τ × ο'} {R : σ → τ → Prop} {tr : ι → ι'}
    {out : ο → π} {out' : ο' → π}
    (hstep : ∀ s t i, R s t → R (f s i).1 (g t (tr i)).1 ∧ out (f s i).2 = out' (g t (tr i)).2) :
    ∀ (is : List ι) (s : σ) (t : τ), R s t →
      R (final f s is) (final g t (is.map tr))
        ∧ (outputs f s is).map out = (outputs g t (is.map tr)).map out'
  | [], _, _, h => ⟨h, rfl⟩
  | i :: is, s, t, h => by
      obtain ⟨h1, h2⟩ := hstep s t i h
      obtain ⟨h3, h4⟩ := translation hstep is (f s i).1 (g t (tr i)).1 h1
      refine ⟨h3, ?_⟩
      rw [outputs_cons, List.map_cons, List.map_cons, outputs_cons, List.map_cons, h2, h4]

end Lib.Machine
