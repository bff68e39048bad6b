import Mathlib.Data.List.Basic

/-!
# A page of text

Text set in rows of width `W`, with as many rows as it takes.  `layout` says
where the rows end: behind every break and behind every `W`-th item of a row.
`TextPage` is the same page as it grows item by item (`rows_typeAll`).
-/

namespace Lib

variable {α : Type*} [DecidableEq α]

/-- The rows of a text, the first of which is begun with `row`. -/
def layout (W : Nat) (nl : α) (row : List α) : List α → List (List α)
  | [] => [row]
  | x :: xs =>
    if x = nl then row :: layout W nl [] xs
    else if row.length + 1 = W then (row ++ [x]) :: layout W nl [] xs
    else layout W nl (row ++ [x]) xs

theorem layout_cons (W : Nat) (nl : α) (row : List α) (x : α) (xs : List α) :
    layout W nl row (x :: xs) =
      if x = nl then row :: layout W nl [] xs
      else if row.length + 1 = W then (row ++ [x]) :: layout W nl [] xs
      else layout W nl (row ++ [x]) xs := rfl

structure TextPage (α : Type*) where
  above : List (List α)
  last : List α

namespace TextPage

variable {W : Nat} {nl : α}

def rows (p : TextPage α) : List (List α) := p.above ++ [p.last]

def newRow (p : TextPage α) : TextPage α := ⟨p.above ++ [p.last], []⟩

def put (p : TextPage α) (x : α) : TextPage α := ⟨p.above, p.last ++ [x]⟩

def type (W : Nat) (nl : α) (p : TextPage α) (x : α) : TextPage α :=
  if x = nl then p.newRow
  else if p.last.length + 1 = W then (p.put x).newRow
  else p.put x

def typeAll (W : Nat) (nl : α) (p : TextPage α) (xs : List α) : TextPage α :=
  xs.foldl (type W nl) p

theorem typeAll_cons (p : TextPage α) (x : α) (xs : List α) :
    typeAll W nl p (x :: xs) = typeAll W nl (type W nl p x) xs := rfl

/-- **The layout.**  Typing a text makes the rows of its layout. -/
theorem rows_typeAll (p : TextPage α) (xs : List α) :
    (typeAll W nl p xs).rows = p.above ++ layout W nl p.last xs := by
  induction xs generalizing p with
  | nil => rfl
  | cons x xs ih =>
    rw [typeAll_cons, ih, layout_cons]
    unfold type
    by_cases hx : x = nl
    · rw [if_pos hx, if_pos hx]
      exact List.append_assoc p.above [p.last] _
    · rw [if_neg hx, if_neg hx]
      by_cases hw : p.last.length + 1 = W
      · rw [if_pos hw, if_pos hw]
        exact List.append_assoc p.above [p.last ++ [x]] _
      · rw [if_neg hw, if_neg hw]
        rfl

end TextPage

end Lib
