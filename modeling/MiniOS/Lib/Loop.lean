import Mathlib.Data.Sum.Basic
import Mathlib.Logic.Relation

/-!
# Loops with a bound on the number of rounds

`loop body n s` repeats `body` from `s` until it leaves with a result, for at
most `n` rounds.  A loop of a program comes back exactly when some bound is
enough, so what is proved about a loop is one of

* `loop_total`: a measure falls in every round, so the loop comes back, and
  what it comes back with satisfies the exit condition;
* `loop_diverges`: some invariant keeps the loop inside `body`, so no bound
  is enough;
* `loop_rounds`: it left from a state its rounds lead to (`Rounds`);
* `loop_related`: it comes back like another loop that goes through related states.

A program that calls such loops, and others that may fail, is proved right and
proved to come back in one pass: `Yields safe o P` says that what `o` comes
back with satisfies `P`, and that it does come back if `safe` holds.
`Yields.bind` is the rule for one call after another, `Yields.foldlM` that for
a call on each item of a list.
-/

namespace Lib

variable {σ ρ : Type*}

/-- At most `n` rounds of `body`, which goes on with a new state or leaves with a result. -/
def loop (body : σ → σ ⊕ ρ) : Nat → σ → Option ρ
  | 0, _ => none
  | n + 1, s =>
    match body s with
    | .inl s' => loop body n s'
    | .inr r => some r

theorem loop_next {body : σ → σ ⊕ ρ} {s s' : σ} (h : body s = .inl s') (n : Nat) :
    loop body (n + 1) s = loop body n s' := by
  rw [loop, h]

theorem loop_done {body : σ → σ ⊕ ρ} {s : σ} {r : ρ} (h : body s = .inr r) (n : Nat) :
    loop body (n + 1) s = some r := by
  rw [loop, h]

/-- **Termination.**  Under an invariant `I`, each round leaves with a `Q` or
lowers `μ`: any bound above `μ s` is enough. -/
theorem loop_total {body : σ → σ ⊕ ρ} (I : σ → Prop) (μ : σ → Nat) (Q : ρ → Prop)
    (hnext : ∀ s s', I s → body s = .inl s' → I s' ∧ μ s' < μ s)
    (hdone : ∀ s r, I s → body s = .inr r → Q r) :
    ∀ (n : Nat) (s : σ), I s → μ s < n → ∃ r, loop body n s = some r ∧ Q r := by
  intro n
  induction n with
  | zero => intro s _ h; omega
  | succ n ih =>
    intro s hI hn
    cases hb : body s with
    | inl s' =>
      obtain ⟨hI', hμ⟩ := hnext s s' hI hb
      rw [loop_next hb]
      exact ih s' hI' (by omega)
    | inr r => exact ⟨r, loop_done hb n, hdone s r hI hb⟩

/-- **Divergence.**  If every state of `I` goes on within `I`, no bound is enough. -/
theorem loop_diverges {body : σ → σ ⊕ ρ} (I : σ → Prop)
    (h : ∀ s, I s → ∃ s', body s = .inl s' ∧ I s') :
    ∀ (n : Nat) (s : σ), I s → loop body n s = none := by
  intro n
  induction n with
  | zero => intro s _; rfl
  | succ n ih =>
    intro s hI
    obtain ⟨s', hb, hI'⟩ := h s hI
    rw [loop_next hb]
    exact ih s' hI'

/-- The states the rounds of `body` lead to. -/
def Rounds (body : σ → σ ⊕ ρ) : σ → σ → Prop :=
  Relation.ReflTransGen fun s s' => body s = .inl s'

/-- **Rounds.**  A loop that comes back does so from a state its rounds lead to. -/
theorem loop_rounds {body : σ → σ ⊕ ρ} {n : Nat} {s : σ} {r : ρ} (h : loop body n s = some r) :
    ∃ s', Rounds body s s' ∧ body s' = .inr r := by
  induction n generalizing s with
  | zero => cases h
  | succ n ih =>
    cases hb : body s with
    | inl s₁ =>
      rw [loop_next hb] at h
      obtain ⟨s', hr, hd⟩ := ih h
      exact ⟨s', Relation.ReflTransGen.head hb hr, hd⟩
    | inr r₁ =>
      rw [loop_done hb] at h
      cases h
      exact ⟨s, Relation.ReflTransGen.refl, hb⟩

/-- Of two states the rounds lead to, one leads to the other. -/
theorem Rounds.total {body : σ → σ ⊕ ρ} {s a b : σ} (ha : Rounds body s a) (hb : Rounds body s b) :
    Rounds body a b ∨ Rounds body b a := by
  refine Relation.ReflTransGen.total_of_right_unique ?_ ha hb
  intro x y z hy hz
  rw [hy] at hz
  exact Sum.inl.inj hz

/-- A loop that leaves from `b` has been through every round that goes on. -/
theorem Rounds.through {body : σ → σ ⊕ ρ} {s a a' b : σ} {r : ρ} (ha : Rounds body s a)
    (hnext : body a = .inl a') (hb : Rounds body s b) (hdone : body b = .inr r) :
    Rounds body a' b := by
  have hend : ∀ c, Rounds body b c → c = b := by
    intro c hc
    rcases Relation.ReflTransGen.cases_head hc with h | ⟨d, hd, _⟩
    · exact h.symm
    · rw [hdone] at hd
      cases hd
  rcases ha.total hb with h | h
  · rcases Relation.ReflTransGen.cases_head h with h | ⟨d, hd, h⟩
    · rw [h, hdone] at hnext
      cases hnext
    · rw [hnext] at hd
      cases hd
      exact h
  · rw [hend a h, hdone] at hnext
    cases hnext

/-- **Two loops** whose rounds go on from related states to related states, and leave with related
results, come back alike. -/
theorem loop_related {σ' ρ' : Type*} {body : σ → σ ⊕ ρ} {body' : σ' → σ' ⊕ ρ'} {R : σ → σ' → Prop}
    {Q : ρ → ρ' → Prop} (h : ∀ s s', R s s' → Sum.LiftRel R Q (body s) (body' s')) (n : Nat) {s : σ}
    {s' : σ'} (hR : R s s') : Option.Rel Q (loop body n s) (loop body' n s') := by
  induction n generalizing s s' with
  | zero => exact .none
  | succ n ih =>
    have hround := h s s' hR
    cases hb : body s with
    | inl t =>
      cases hb' : body' s' with
      | inl t' =>
        rw [hb, hb'] at hround
        cases hround with
        | inl hnext =>
          rw [loop_next hb, loop_next hb']
          exact ih hnext
      | inr r' =>
        rw [hb, hb'] at hround
        cases hround
    | inr r =>
      cases hb' : body' s' with
      | inl t' =>
        rw [hb, hb'] at hround
        cases hround
      | inr r' =>
        rw [hb, hb'] at hround
        cases hround with
        | inr hdone =>
          rw [loop_done hb, loop_done hb']
          exact .some hdone

/-! ## Calls that may not come back -/

/-- What the call comes back with satisfies `P`; under `safe` it comes back. -/
structure Yields (safe : Prop) (o : Option σ) (P : σ → Prop) : Prop where
  correct : ∀ a, o = some a → P a
  returns : safe → ∃ a, o = some a

namespace Yields

variable {safe : Prop} {o : Option σ} {P : σ → Prop} {Q : ρ → Prop}

theorem some {a : σ} (h : P a) : Yields safe (Option.some a) P :=
  ⟨fun _ ha => by cases ha; exact h, fun _ => ⟨a, rfl⟩⟩

theorem bind (h : Yields safe o P) {f : σ → Option ρ} (hf : ∀ a, P a → Yields safe (f a) Q) :
    Yields safe (o.bind f) Q := by
  constructor
  · intro b hb
    obtain ⟨a, ha, hfa⟩ := Option.bind_eq_some_iff.mp hb
    exact (hf a (h.correct a ha)).correct b hfa
  · intro hs
    obtain ⟨a, ha⟩ := h.returns hs
    obtain ⟨b, hb⟩ := (hf a (h.correct a ha)).returns hs
    exact ⟨b, by rw [ha]; exact hb⟩

theorem bind_eq {a : σ} (ho : o = Option.some a) {f : σ → Option ρ} (hf : Yields safe (f a) Q) :
    Yields safe (o.bind f) Q := by
  rw [ho]
  exact hf

/-- **Folds.**  If `f` follows `g` step by step, a fold of `f` follows the fold of `g`. -/
theorem foldlM {ι τ : Type*} {f : σ → ι → Option σ} {g : τ → ι → τ} {R : σ → τ → Prop}
    (hstep : ∀ s t a, R s t → Yields safe (f s a) fun s' => R s' (g t a)) (l : List ι) {s : σ} {t : τ}
    (h : R s t) : Yields safe (l.foldlM f s) fun s' => R s' (l.foldl g t) := by
  induction l generalizing s t with
  | nil => exact some h
  | cons a l ih =>
    rw [List.foldlM_cons]
    exact (hstep s t a h).bind fun s' h' => ih h'

end Yields

end Lib
