import Mathlib.Data.List.Basic
import Mathlib.Logic.Function.Basic

/-!
# Several keys and one flag

A stream of `KeyEdge`s presses and releases keys of a type `κ`.  `held es k`
says that `k` is down behind the stream; `flag es` is one bit that every press
sets and every release clears, whichever key it is of.  The bit says that some
key is down, behind each prefix, exactly when no key is ever released while
another one is down (`flag_iff_held`).
-/

namespace Lib

universe u

/-- A key goes down or up. -/
structure KeyEdge (κ : Type u) where
  key : κ
  down : Bool

variable {κ : Type u} [DecidableEq κ]

/-- The keys that are down behind `es`. -/
def held (es : List (KeyEdge κ)) : κ → Bool :=
  es.foldl (fun h e => Function.update h e.key e.down) fun _ => false

/-- The bit shared by all keys. -/
def flag (es : List (KeyEdge κ)) : Bool := es.foldl (fun _ e => e.down) false

theorem held_concat (es : List (KeyEdge κ)) (e : KeyEdge κ) :
    held (es ++ [e]) = Function.update (held es) e.key e.down := by
  unfold held
  rw [List.foldl_append]
  rfl

omit [DecidableEq κ] in
theorem flag_concat (es : List (KeyEdge κ)) (e : KeyEdge κ) : flag (es ++ [e]) = e.down := by
  unfold flag
  rw [List.foldl_append]
  rfl

/-- The bit after one more edge is right unless another key stays down behind a release. -/
theorem flag_concat_iff (es : List (KeyEdge κ)) (e : KeyEdge κ) :
    (flag (es ++ [e]) = true ↔ ∃ k, held (es ++ [e]) k = true) ↔
      (e.down = false → ∀ k, held es k = true → k = e.key) := by
  rw [flag_concat, held_concat]
  cases hdown : e.down with
  | true =>
    have hk : ∃ k, Function.update (held es) e.key true k = true :=
      ⟨e.key, Function.update_self ..⟩
    exact iff_of_true (iff_of_true rfl hk) fun h => nomatch h
  | false =>
    constructor
    · intro h _ k hk
      by_contra hne
      have : ∃ k, Function.update (held es) e.key false k = true :=
        ⟨k, by rw [Function.update_of_ne hne]; exact hk⟩
      exact absurd (h.mpr this) Bool.false_ne_true
    · intro h
      refine iff_of_false Bool.false_ne_true ?_
      rintro ⟨k, hk⟩
      by_cases hke : k = e.key
      · rw [hke, Function.update_self] at hk
        exact absurd hk Bool.false_ne_true
      · rw [Function.update_of_ne hke] at hk
        exact hke (h rfl k hk)

/-- **One bit for several keys.**  It is right behind every prefix exactly when
no key is released while another one is down. -/
theorem flag_iff_held (es : List (KeyEdge κ)) :
    (∀ p, p <+: es → (flag p = true ↔ ∃ k, held p k = true)) ↔
      ∀ p k, p ++ [⟨k, false⟩] <+: es → ∀ k', held p k' = true → k' = k := by
  constructor
  · intro h p k hp
    exact (flag_concat_iff p ⟨k, false⟩).mp (h _ hp) rfl
  · intro h p hp
    rcases List.eq_nil_or_concat p with rfl | ⟨p, e, rfl⟩
    · exact iff_of_false Bool.false_ne_true fun ⟨k, hk⟩ => absurd hk Bool.false_ne_true
    · rw [List.concat_eq_append] at hp ⊢
      apply (flag_concat_iff p e).mpr
      intro hdown k hk
      have he : e = ⟨e.key, false⟩ := by rw [← hdown]
      rw [he] at hp
      exact h p e.key hp k hk

end Lib
