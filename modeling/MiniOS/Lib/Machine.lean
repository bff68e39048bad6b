import Mathlib.Logic.Relation

/-!
# Machines and their runs

A `Machine` is a state with calls: what a caller may ask in a state (`legal`)
and what the call does (`step`, which also answers).  `Run s es os s'` says
that the calls `es`, made one after the other from `s`, answer `os` and end in
`s'`.  Four rules carry the developments built on it:

* `Run.invariant`: what one legal call preserves, every run preserves
  (`Reach.invariant` adds the initial states);
* `Run.trace`: the same for what relates the answers so far to the state;
* `Run.simulate`: if a machine `N` can answer each call of `M` alike and stay
  related to it, it answers every run of `M` alike;
* `Run.project`: the same for a machine `N` that takes part in some calls only.

`M.restrict C` is `M` with callers that keep to the condition `C`.
-/

namespace Lib

universe u v w

/-- Initial states, legal calls, and what a call answers and leaves behind
(`none`: it does not come back). -/
structure Machine (σ : Type u) (ε : Type v) (ω : Type w) where
  init : σ → Prop
  legal : σ → ε → Prop
  step : σ → ε → Option (ω × σ)

namespace Machine

variable {σ : Type u} {ε : Type v} {ω : Type w} (M : Machine σ ε ω)

/-- The calls `es`, made from the first state, answer `os` and end in the last. -/
inductive Run : σ → List ε → List ω → σ → Prop
  | nil (s : σ) : Run s [] [] s
  | cons {s s' s'' : σ} {e : ε} {o : ω} {es : List ε} {os : List ω} :
      M.legal s e → M.step s e = some (o, s') → Run s' es os s'' → Run s (e :: es) (o :: os) s''

/-- Some run from an initial state ends in `s`. -/
def Reach (s : σ) : Prop := ∃ s₀ es os, M.init s₀ ∧ M.Run s₀ es os s

variable {M}

theorem Run.append {s s' s'' : σ} {es es' : List ε} {os os' : List ω}
    (h : M.Run s es os s') (h' : M.Run s' es' os' s'') : M.Run s (es ++ es') (os ++ os') s'' := by
  induction h with
  | nil s => exact h'
  | cons hl hs _ ih => exact Run.cons hl hs (ih h')

theorem Run.single {s s' : σ} {e : ε} {o : ω} (hl : M.legal s e) (hs : M.step s e = some (o, s')) :
    M.Run s [e] [o] s' :=
  Run.cons hl hs (Run.nil s')

/-- The state a run passes through behind its first calls. -/
theorem Run.split {es es' : List ε} {s s' : σ} {os : List ω} (h : M.Run s (es ++ es') os s') :
    ∃ os₁ os₂ s₁, os = os₁ ++ os₂ ∧ M.Run s es os₁ s₁ ∧ M.Run s₁ es' os₂ s' := by
  induction es generalizing s os with
  | nil => exact ⟨[], os, s, rfl, Run.nil s, h⟩
  | cons e es ih =>
    cases h with
    | cons hl hs hr =>
      obtain ⟨os₁, os₂, s₁, rfl, h₁, h₂⟩ := ih hr
      exact ⟨_, os₂, s₁, rfl, Run.cons hl hs h₁, h₂⟩

theorem Reach.init {s : σ} (h : M.init s) : M.Reach s := ⟨s, [], [], h, Run.nil s⟩

theorem Reach.run {s s' : σ} {es : List ε} {os : List ω} (h : M.Reach s) (hr : M.Run s es os s') :
    M.Reach s' := by
  obtain ⟨s₀, es₀, os₀, h0, hr0⟩ := h
  exact ⟨s₀, es₀ ++ es, os₀ ++ os, h0, hr0.append hr⟩

theorem Reach.step {s s' : σ} {e : ε} {o : ω} (h : M.Reach s) (hl : M.legal s e)
    (hs : M.step s e = some (o, s')) : M.Reach s' :=
  h.run (Run.single hl hs)

/-- **Invariants.**  What every legal call preserves, a run preserves. -/
theorem Run.invariant {I : σ → Prop}
    (hstep : ∀ s e o s', I s → M.legal s e → M.step s e = some (o, s') → I s')
    {s s' : σ} {es : List ε} {os : List ω} (hr : M.Run s es os s') (h : I s) : I s' := by
  induction hr with
  | nil s => exact h
  | cons hl hs _ ih => exact ih (hstep _ _ _ _ h hl hs)

/-- An invariant of the initial states and the calls holds in every reachable state. -/
theorem Reach.invariant {I : σ → Prop} (hinit : ∀ s, M.init s → I s)
    (hstep : ∀ s e o s', I s → M.legal s e → M.step s e = some (o, s') → I s')
    {s : σ} (h : M.Reach s) : I s := by
  obtain ⟨s₀, es, os, h0, hr⟩ := h
  exact hr.invariant hstep (hinit s₀ h0)

/-- **Traces.**  What every legal call keeps of the answers so far and the state, a run keeps. -/
theorem Run.trace {I : List ω → σ → Prop}
    (hstep : ∀ os s e o s', I os s → M.legal s e → M.step s e = some (o, s') → I (os ++ [o]) s')
    {s s' : σ} {es : List ε} {os : List ω} (hr : M.Run s es os s') {os₀ : List ω} (h : I os₀ s) :
    I (os₀ ++ os) s' := by
  induction hr generalizing os₀ with
  | nil s =>
    rw [List.append_nil]
    exact h
  | cons hl hs _ ih =>
    rw [List.append_cons]
    exact ih (hstep _ _ _ _ _ h hl hs)

/-- **Simulation.**  `N` follows `M` call by call, with the same answers. -/
theorem Run.simulate {τ : Type u} {N : Machine τ ε ω} {R : σ → τ → Prop}
    (hstep : ∀ s t e o s', R s t → M.legal s e → M.step s e = some (o, s') →
      N.legal t e ∧ ∃ t', N.step t e = some (o, t') ∧ R s' t')
    {s s' : σ} {es : List ε} {os : List ω} (hr : M.Run s es os s') {t : τ} (h : R s t) :
    ∃ t', N.Run t es os t' ∧ R s' t' := by
  induction hr generalizing t with
  | nil s => exact ⟨t, Run.nil t, h⟩
  | cons hl hs _ ih =>
    obtain ⟨hl', t₁, hs', hR⟩ := hstep _ _ _ _ _ h hl hs
    obtain ⟨t', hr', hR'⟩ := ih hR
    exact ⟨t', Run.cons hl' hs' hr', hR'⟩

/-- **Projection.**  The calls of `N` that the answers of `M` tell of, made one after the other,
follow `M`; a call of `M` that tells of none leaves `N` where it is. -/
theorem Run.project {τ ε' ω' : Type*} {N : Machine τ ε' ω'} {R : σ → τ → Prop} {call : ω → Option ε'}
    (hnone : ∀ s t e o s', R s t → M.legal s e → M.step s e = some (o, s') → call o = none → R s' t)
    (hsome : ∀ s t e o s' e', R s t → M.legal s e → M.step s e = some (o, s') → call o = some e' →
      N.legal t e' ∧ ∃ o' t', N.step t e' = some (o', t') ∧ R s' t')
    {s s' : σ} {es : List ε} {os : List ω} (hr : M.Run s es os s') {t : τ} (h : R s t) :
    ∃ os' t', N.Run t (os.filterMap call) os' t' ∧ R s' t' := by
  induction hr generalizing t with
  | nil s => exact ⟨[], t, Run.nil t, h⟩
  | @cons s s₁ s' e o es os hl hs _ ih =>
    cases hcall : call o with
    | none =>
      rw [List.filterMap_cons_none hcall]
      exact ih (hnone _ _ _ _ _ h hl hs hcall)
    | some e' =>
      obtain ⟨hl', o', t₁, hs', hR⟩ := hsome _ _ _ _ _ _ h hl hs hcall
      obtain ⟨os', t', hr', hR'⟩ := ih hR
      rw [List.filterMap_cons_some hcall]
      exact ⟨o' :: os', t', Run.cons hl' hs' hr', hR'⟩

/-! ## Callers that keep to a condition -/

/-- The machine with the calls that meet `C` in the state they are made in. -/
def restrict (M : Machine σ ε ω) (C : σ → ε → Prop) : Machine σ ε ω :=
  { M with legal := fun s e => M.legal s e ∧ C s e }

theorem Run.of_restrict {C : σ → ε → Prop} {s s' : σ} {es : List ε} {os : List ω}
    (h : (M.restrict C).Run s es os s') : M.Run s es os s' := by
  induction h with
  | nil s => exact Run.nil s
  | cons hl hs _ ih => exact Run.cons hl.1 hs ih

theorem Reach.of_restrict {C : σ → ε → Prop} {s : σ} (h : (M.restrict C).Reach s) : M.Reach s := by
  obtain ⟨s₀, es, os, h0, hr⟩ := h
  exact ⟨s₀, es, os, h0, hr.of_restrict⟩

end Machine

end Lib
