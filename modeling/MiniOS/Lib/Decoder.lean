import Mathlib.Data.List.Basic

/-!
# Decoders

A `Decoder` reads letters one after the other; with some of them it gives an item.  A code
spells items in letters.  Two rules tell what a text of letters decodes to, from a set `I`
of states in which the decoder stays:

* `Decoder.items_flatMap`: what spells an item alike in all these states spells lists of items;
* `Decoder.items_filter`: letters that change nothing can stand anywhere.
-/

namespace Lib

universe u v w

/-- What a letter leads to, and the item it gives. -/
structure Decoder (σ : Type u) (α : Type v) (β : Type w) where
  next : σ → α → σ
  item : σ → α → Option β

namespace Decoder

variable {σ : Type u} {α : Type v} {β : Type w} (d : Decoder σ α β)

/-- The state behind some letters. -/
def state (s : σ) (as : List α) : σ := as.foldl d.next s

/-- The items they give. -/
def items : σ → List α → List β
  | _, [] => []
  | s, a :: as => (d.item s a).toList ++ items (d.next s a) as

@[simp] theorem state_nil (s : σ) : d.state s [] = s := rfl

@[simp] theorem state_cons (s : σ) (a : α) (as : List α) :
    d.state s (a :: as) = d.state (d.next s a) as := rfl

@[simp] theorem items_nil (s : σ) : d.items s [] = [] := rfl

@[simp] theorem items_cons (s : σ) (a : α) (as : List α) :
    d.items s (a :: as) = (d.item s a).toList ++ d.items (d.next s a) as := rfl

theorem state_append (s : σ) (as bs : List α) :
    d.state s (as ++ bs) = d.state (d.state s as) bs :=
  List.foldl_append

theorem items_append (s : σ) (as bs : List α) :
    d.items s (as ++ bs) = d.items s as ++ d.items (d.state s as) bs := by
  induction as generalizing s with
  | nil => rfl
  | cons a as ih => rw [List.cons_append, items_cons, ih, items_cons, List.append_assoc, state_cons]

variable {d} {I : σ → Prop}

/-- **Codes.**  What each item is spelled by, a list of items is spelled by. -/
theorem items_flatMap {code : β → List α} {bs : List β}
    (hcode : ∀ b ∈ bs, ∀ s, I s → d.items s (code b) = [b] ∧ I (d.state s (code b))) {s : σ}
    (h : I s) : d.items s (bs.flatMap code) = bs ∧ I (d.state s (bs.flatMap code)) := by
  induction bs generalizing s with
  | nil => exact ⟨rfl, h⟩
  | cons b bs ih =>
    obtain ⟨hitem, hnext⟩ := hcode b (List.mem_cons_self ..) s h
    obtain ⟨hitems, hlast⟩ := ih (fun b hb => hcode b (List.mem_cons_of_mem _ hb)) hnext
    rw [List.flatMap_cons, items_append, state_append, hitem, hitems]
    exact ⟨rfl, hlast⟩

/-- **Silent letters.**  Those that give no item and leave the state need not be read. -/
theorem items_filter {p : α → Bool} {as : List α}
    (hkeep : ∀ s, ∀ a ∈ as, I s → I (d.next s a))
    (hsilent : ∀ s, ∀ a ∈ as, I s → p a = false → d.item s a = none ∧ d.next s a = s) {s : σ}
    (h : I s) : d.items s (as.filter p) = d.items s as := by
  induction as generalizing s with
  | nil => rfl
  | cons a as ih =>
    have ih' := fun {s} h => ih (s := s) (fun s a ha => hkeep s a (List.mem_cons_of_mem _ ha))
      (fun s a ha => hsilent s a (List.mem_cons_of_mem _ ha)) h
    cases hp : p a with
    | true =>
      rw [List.filter_cons_of_pos hp, items_cons, items_cons,
        ih' (hkeep s a (List.mem_cons_self ..) h)]
    | false =>
      obtain ⟨hitem, hnext⟩ := hsilent s a (List.mem_cons_self ..) h hp
      rw [List.filter_cons_of_neg (by rw [hp]; exact Bool.false_ne_true), items_cons, hitem, hnext,
        ih' h]
      rfl

end Decoder

end Lib
