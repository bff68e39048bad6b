import MiniOS.Shell.LineRefinement
import MiniOS.Shell.Todo

/-!
# The to-do list as a list

`todo add`, `todo done` and `todo clear` on a plain list of items
(`refTodo`), and how the records follow it (`ListsItems`).  They do as long as no
text leaves its record before another item is added behind it, and no number
wraps to the id of an item (`TodoSafe`); `todo_list_iff` says that this is all.
-/

namespace MiniOS

open Lib TextGrid

/-! ## The reference list -/

structure TodoItem where
  text : List UInt8
  done : Bool

/-- The text without one quote at its start and one at its end. -/
def unquote (txt : List UInt8) : List UInt8 :=
  let txt := if txt.headD 0 = ch '"' then txt.drop 1 else txt
  if txt.getLastD 0 = ch '"' then txt.dropLast else txt

inductive TodoCall where
  | add (txt : List UInt8)
  | done (n : List UInt8)
  | clear

def TodoCall.arg : TodoCall → List UInt8
  | .add txt => text "add " ++ txt
  | .done n => text "done " ++ n
  | .clear => text "clear"

/-- It is typed in a line. -/
def TodoCall.Typed (c : TodoCall) : Prop :=
  (∀ x ∈ c.arg, IsPrintable x) ∧ (text "todo " ++ c.arg).length ≤ 255

/-- The item `k` has the id `k + 1`. -/
def refTodo (items : List TodoItem) : TodoCall → List TodoItem
  | .add txt => if items.length < todoMax then items ++ [⟨unquote txt, false⟩] else items
  | .done n => items.mapIdx fun k it => if (k + 1 : Int) = numeral n then { it with done := true } else it
  | .clear => []

def refTodos (es : List TodoCall) : List TodoItem := es.foldl refTodo []

def refList (items : List TodoItem) : List TerminalCall :=
  (if items.length = 0 then say (text "No tasks in your to-do list.\n") else []) ++
    items.mapIdx fun k it => todoLine (k + 1) it.done it.text

def todoMachine : Machine Todos TodoCall (List TerminalCall) where
  init s := s = Todos.boot
  legal _ c := c.Typed
  step s c := (cmdTodo s c.arg).map fun r => (r.2, r.1)

/-- What `todo list` shows. -/
def ListShows (s : Todos) (items : List TodoItem) : Prop :=
  cmdTodo s (text "list") = some (s, say (text "\n") ++ refList items)

/-- A text stays in its record while another item is added behind it, and in the array; a number
is an `int`, or wraps to no id of an item that is not done. -/
def TodoSafe (s : Todos) : TodoCall → Prop
  | .add txt => s.todoCount < todoMax →
      (∀ i, i + 1 = s.todoCount → (s.text i).length ≤ 63) ∧
        textAt s.todoCount + (unquote txt).length < todoMax * todoSize
  | .done n => numeral n = atoi n ∨ ∀ i < s.todoCount, s.id i = atoi n → s.done i ≠ 0
  | .clear => True

/-! ## The records -/

/-- Record `k` holds the item `k`. -/
structure ItemAt (s : Todos) (k : Nat) (it : TodoItem) : Prop where
  id : Shows s.todos.get (idAt k) (word (k + 1))
  done : Shows s.todos.get (doneAt k) (word (if it.done then 1 else 0))
  text : Shows s.todos.get (textAt k) (it.text ++ [0])
  plain : ∀ c ∈ it.text, 32 ≤ c

theorem id_of_shows {s : Todos} {k : Nat} (h : Shows s.todos.get (idAt k) (word (k + 1)))
    (hk : k < todoMax) : s.id k = k + 1 := by
  have h20 : todoMax = 20 := rfl
  unfold Todos.id
  rw [Chars.load32_of_shows h (by omega), i32_of_lt]
  · rfl
  · omega
  · omega

namespace ItemAt

variable {s s' : Todos} {k : Nat} {it : TodoItem}

theorem zero_not_mem (h : ItemAt s k it) : 0 ∉ it.text := by
  intro h0
  exact absurd (h.plain 0 h0) (by decide)

theorem id_eq (h : ItemAt s k it) (hk : k < todoMax) : s.id k = k + 1 := id_of_shows h.id hk

theorem done_eq (h : ItemAt s k it) : decide (s.done k ≠ 0) = it.done := by
  unfold Todos.done
  have hd := h.done
  cases hdone : it.done with
  | true =>
    rw [hdone] at hd
    rw [Chars.load32_of_shows hd (by decide)]
    decide
  | false =>
    rw [hdone] at hd
    rw [Chars.load32_of_shows hd (by decide)]
    decide

theorem text_eq (h : ItemAt s k it) : s.text k = it.text :=
  (Chars.str_drop_iff h.zero_not_mem).mpr h.text

/-- It is still there if none of its bytes changes. -/
theorem frame (h : ItemAt s k it)
    (hsame : ∀ i, idAt k ≤ i → i < textAt k + it.text.length + 1 → s'.todos.get i = s.todos.get i) :
    ItemAt s' k it := by
  have hd : doneAt k = idAt k + 4 := rfl
  have ht : textAt k = idAt k + 8 := rfl
  refine ⟨h.id.congr ?_, h.done.congr ?_, h.text.congr ?_, h.plain⟩
  · intro i hi hlt
    rw [length_word] at hlt
    exact hsame i hi (by omega)
  · intro i hi hlt
    rw [length_word] at hlt
    exact hsame i (by omega) (by omega)
  · intro i hi hlt
    rw [List.length_append, List.length_singleton] at hlt
    exact hsame i (by omega) (by omega)

end ItemAt

/-- The records are the items; no text but the last leaves its record. -/
structure ListsItems (s : Todos) (items : List TodoItem) : Prop where
  count : s.todoCount = items.length
  room : items.length ≤ todoMax
  next : s.todoNextId = items.length + 1
  item : ∀ k it, items[k]? = some it → ItemAt s k it
  short : ∀ k it, items[k]? = some it → k + 1 < items.length → it.text.length ≤ 63

theorem boot_lists : ListsItems Todos.boot [] := by
  refine ⟨rfl, Nat.zero_le _, rfl, ?_, ?_⟩
  · intro k it hk
    cases hk
  · intro k it hk
    cases hk

/-! ## What the list shows -/

theorem listShows_iff (s : Todos) (items : List TodoItem) :
    ListShows s items ↔ todoList s = refList items := by
  have hcmd : cmdTodo s (text "list") = some (s, say (text "\n") ++ todoList s) := by
    unfold cmdTodo
    rw [if_neg (by decide), if_pos (by decide)]
  unfold ListShows
  rw [hcmd, Option.some.injEq, Prod.mk.injEq]
  constructor
  · rintro ⟨_, h⟩
    exact List.append_cancel_left h
  · intro h
    exact ⟨rfl, congrArg (say (text "\n") ++ ·) h⟩

theorem todoLine_inj {id : Int} {d d' : Bool} {t t' : List UInt8}
    (h : todoLine id d t = todoLine id d' t') : d = d' ∧ t = t' := by
  have htext := TerminalCall.writestring.inj h
  have htail := List.append_cancel_right htext
  simp only [List.append_assoc] at htail
  obtain ⟨hx, ht⟩ := List.cons.inj
    (List.append_cancel_left (List.append_cancel_left (List.append_cancel_left htail)))
  refine ⟨?_, (List.append_right_inj (text "] ")).mp ht⟩
  cases d with
  | true =>
    cases d' with
    | true => rfl
    | false => exact absurd hx (by decide)
  | false =>
    cases d' with
    | true => exact absurd hx (by decide)
    | false => rfl

variable {s s' : Todos} {items : List TodoItem}

/-- The lines of the two lists, one by one. -/
theorem todoList_eq_iff (hc : s.todoCount = items.length) :
    todoList s = refList items ↔ ∀ k it, items[k]? = some it →
      todoLine (s.id k) (s.done k ≠ 0) (s.text k) = todoLine (k + 1) it.done it.text := by
  unfold todoList refList
  rw [hc, List.append_right_inj]
  constructor
  · intro h k it hk
    obtain ⟨hlt, _⟩ := List.getElem?_eq_some_iff.mp hk
    have hline := congrArg (·[k]?) h
    simp only [List.getElem?_map, List.getElem?_range hlt, List.getElem?_mapIdx, hk,
      Option.map_some, Option.some.injEq] at hline
    exact hline
  · intro h
    refine List.ext_getElem? ?_
    intro k
    rw [List.getElem?_map, List.getElem?_mapIdx]
    by_cases hlt : k < items.length
    · have hk := List.getElem?_eq_getElem hlt
      rw [List.getElem?_range hlt, hk]
      exact congrArg some (h k _ hk)
    · rw [List.getElem?_eq_none (by rw [List.length_range]; omega), List.getElem?_eq_none (by omega)]
      rfl

theorem ListsItems.lt {k : Nat} {it : TodoItem} (h : ListsItems s items)
    (hk : items[k]? = some it) : k < items.length ∧ k < todoMax := by
  obtain ⟨hlt, _⟩ := List.getElem?_eq_some_iff.mp hk
  exact ⟨hlt, Nat.lt_of_lt_of_le hlt h.room⟩

theorem ListsItems.shows (h : ListsItems s items) : ListShows s items := by
  rw [listShows_iff, todoList_eq_iff h.count]
  intro k it hk
  have hi := h.item k it hk
  rw [hi.id_eq (h.lt hk).2, hi.done_eq, hi.text_eq]

/-! ## `todo add` -/

/-- What `cmd_todo` copies of the text. -/
theorem unquote_copied (txt : List UInt8) :
    let cut := if txt.headD 0 = ch '"' then txt.drop 1 else txt
    let len := if strlen cut > 0 ∧ cut.getD (strlen cut - 1) 0 = ch '"' then strlen cut - 1
      else strlen cut
    (∀ {n : Nat} (b : Chars n) d, strncpy b d cut len = b.write d (unquote (str txt))) ∧
      (unquote (str txt)).length = len := by
  intro cut len
  have hstr : str cut = if (str txt).headD 0 = ch '"' then (str txt).drop 1 else str txt := by
    unfold cut
    rw [headD_str]
    by_cases hq : txt.headD 0 = ch '"'
    · rw [if_pos hq, if_pos hq]
      apply str_drop
      cases hs : str txt with
      | nil =>
        rw [str_eq_nil_iff, hq] at hs
        exact absurd hs (by decide)
      | cons c s => exact Nat.succ_pos _
    · rw [if_neg hq, if_neg hq]
  have hlen : strlen cut = (str cut).length := strlen_eq cut
  have hquote : (strlen cut > 0 ∧ cut.getD (strlen cut - 1) 0 = ch '"') ↔
      (str cut).getLastD 0 = ch '"' := by
    rw [hlen, ← getD_str (Nat.sub_le _ _), List.getD_eq_getElem?_getD, ← List.getLast?_eq_getElem?,
      List.getLastD_eq_getLast?]
    constructor
    · exact And.right
    · intro hq
      refine ⟨?_, hq⟩
      cases hcs : str cut with
      | nil =>
        rw [hcs] at hq
        exact absurd hq (by decide)
      | cons c cs => exact Nat.succ_pos _
  have hun : unquote (str txt) =
      if (str cut).getLastD 0 = ch '"' then (str cut).dropLast else str cut := by
    rw [hstr]
    rfl
  rw [hun]
  simp only [strncpy_eq]
  unfold len
  by_cases hq : (str cut).getLastD 0 = ch '"'
  · rw [if_pos (hquote.mpr hq), if_pos hq, hlen, List.dropLast_eq_take,
      show (str cut).length - 1 - (str cut).length = 0 by omega, List.replicate_zero]
    refine ⟨fun b d => by rw [List.append_nil], ?_⟩
    rw [List.length_take]
    omega
  · rw [if_neg (fun h => hq (hquote.mp h)), if_neg hq, hlen, Nat.sub_self, List.take_length,
      List.replicate_zero]
    exact ⟨fun b d => by rw [List.append_nil], rfl⟩

/-- A new item is one store of its record. -/
theorem todoAdd_eq {txt : List UInt8} (h0 : 0 ∉ txt) (hc : s.todoCount < todoMax) :
    todoAdd s txt = (s.todos.write (idAt s.todoCount)
      (word (u32OfInt s.todoNextId) ++ (word 0 ++ (unquote txt ++ [0])))).map fun todos =>
        (⟨todos, s.todoCount + 1, i32 (s.todoNextId + 1)⟩, say (text "Task added.\n")) := by
  obtain ⟨hcopy, hlen⟩ := unquote_copied txt
  rw [str_of_not_mem h0] at hcopy hlen
  simp only [← hlen] at hcopy
  unfold todoAdd storeInt Chars.store32
  rw [if_neg (Nat.not_le.mpr hc)]
  simp only [hcopy, ← hlen, Chars.write_append, length_word, Chars.write_singleton,
    Option.bind_eq_bind, Option.map_eq_bind, Option.bind_assoc]
  rfl

theorem unquote_length (txt : List UInt8) : (unquote txt).length ≤ txt.length := by
  have hcut : (if txt.headD 0 = ch '"' then txt.drop 1 else txt).length ≤ txt.length := by
    split
    · rw [List.length_drop]
      omega
    · exact Nat.le_refl _
  refine Nat.le_trans ?_ hcut
  unfold unquote
  simp only
  generalize (if txt.headD 0 = ch '"' then txt.drop 1 else txt) = cut
  split
  · rw [List.length_dropLast]
    omega
  · exact Nat.le_refl _

theorem unquote_subset (txt : List UInt8) : unquote txt ⊆ txt := by
  have hcut : (if txt.headD 0 = ch '"' then txt.drop 1 else txt) ⊆ txt := by
    split
    · exact List.drop_subset 1 txt
    · exact List.Subset.refl txt
  refine List.Subset.trans ?_ hcut
  unfold unquote
  simp only
  generalize (if txt.headD 0 = ch '"' then txt.drop 1 else txt) = cut
  split
  · exact List.dropLast_subset cut
  · exact List.Subset.refl cut

/-- A new item is in its record, where it fits in the array; the bytes before it stay. -/
theorem todoAdd_spec {txt : List UInt8} (htxt : ∀ c ∈ txt, 32 ≤ c) (hc : s.todoCount < todoMax)
    (hnext : s.todoNextId = s.todoCount + 1) :
    (∃ s', todoAdd s txt = some (s', say (text "Task added.\n")) ∧
        s'.todoCount = s.todoCount + 1 ∧ s'.todoNextId = s.todoCount + 2 ∧
        ItemAt s' s.todoCount ⟨unquote txt, false⟩ ∧
        ∀ i < idAt s.todoCount, s'.todos.get i = s.todos.get i) ∧
      textAt s.todoCount + (unquote txt).length < todoMax * todoSize ∨
    todoAdd s txt = none ∧ ¬ textAt s.todoCount + (unquote txt).length < todoMax * todoSize := by
  have h0 : 0 ∉ txt := fun h0 => absurd (htxt 0 h0) (by decide)
  have h20 : todoMax = 20 := rfl
  have hid : u32OfInt s.todoNextId = s.todoCount + 1 := by
    unfold u32OfInt
    rw [hnext]
    omega
  have hid' : i32 (s.todoNextId + 1) = s.todoCount + 2 := by
    rw [hnext, i32_of_lt]
    · omega
    · omega
    · omega
  have hd : doneAt s.todoCount = idAt s.todoCount + 4 := rfl
  have ht : textAt s.todoCount = idAt s.todoCount + 8 := rfl
  have hlen : (word (s.todoCount + 1) ++ (word 0 ++ (unquote txt ++ [0]))).length =
      (unquote txt).length + 9 := by
    simp only [List.length_append, length_word, List.length_singleton]
    omega
  rw [todoAdd_eq h0 hc, hid, hid']
  by_cases hfit : textAt s.todoCount + (unquote txt).length < todoMax * todoSize
  · obtain ⟨b, hb, _⟩ := s.todos.write_eq (idAt s.todoCount)
      (word (s.todoCount + 1) ++ (word 0 ++ (unquote txt ++ [0]))) (by rw [hlen]; omega)
    obtain ⟨hshow, hframe⟩ := Chars.get_write hb
    rw [shows_append, shows_append] at hshow
    refine .inl ⟨⟨_, by rw [hb]; rfl, rfl, rfl, ⟨hshow.1, hshow.2.1, hshow.2.2, ?_⟩, ?_⟩, hfit⟩
    · intro c hc
      exact htxt c (unquote_subset txt hc)
    · intro i hi
      exact hframe i (.inl hi)
  · have hnone : s.todos.write (idAt s.todoCount)
        (word (s.todoCount + 1) ++ (word 0 ++ (unquote txt ++ [0]))) = none :=
      Chars.write_eq_none _ _ _ (List.cons_ne_nil _ _) (by rw [hlen]; omega)
    exact .inr ⟨by rw [hnone]; rfl, hfit⟩

/-- The items already there end before a new one, if the last of them stays in its record. -/
theorem ListsItems.ends (h : ListsItems s items)
    (hlast : ∀ i, i + 1 = s.todoCount → (s.text i).length ≤ 63) {k : Nat} {it : TodoItem}
    (hk : items[k]? = some it) : it.text.length ≤ 63 := by
  have hlt := (h.lt hk).1
  by_cases hl : k + 1 < items.length
  · exact h.short k it hk hl
  · rw [← (h.item k it hk).text_eq]
    exact hlast k (by rw [h.count]; omega)

/-- Record `k` ends before record `j`. -/
theorem record_end {k j len : Nat} (hlen : len ≤ 63) (hk : k < j) : textAt k + len + 1 ≤ idAt j := by
  have h72 : todoSize = 72 := rfl
  have := Nat.mul_le_mul_right todoSize hk
  unfold textAt idAt
  rw [Nat.succ_mul] at this
  omega

/-- The records follow the list if `safe`, and do not show it if not. -/
def FollowsExactly (safe : Prop) (after : Option Todos) (items : List TodoItem) : Prop :=
  (safe → ∃ s', after = some s' ∧ ListsItems s' items) ∧
    (¬ safe → ∀ s', after = some s' → ¬ ListShows s' items)

/-- The records with the new one behind them. -/
theorem ListsItems.added (h : ListsItems s items)
    (hlast : ∀ i, i + 1 = s.todoCount → (s.text i).length ≤ 63) (hc : s.todoCount < todoMax)
    {it : TodoItem} (hcount : s'.todoCount = s.todoCount + 1)
    (hnext : s'.todoNextId = s.todoCount + 2) (hnew : ItemAt s' s.todoCount it)
    (hframe : ∀ i < idAt s.todoCount, s'.todos.get i = s.todos.get i) :
    ListsItems s' (items ++ [it]) := by
  have hlen : (items ++ [it]).length = items.length + 1 := by
    rw [List.length_append, List.length_singleton]
  refine ⟨?_, ?_, ?_, ?_, ?_⟩
  · rw [hcount, h.count, hlen]
  · rw [hlen, ← h.count]
    exact hc
  · rw [hnext, h.count, hlen]
    omega
  · intro k jt hk
    by_cases hlt : k < items.length
    · rw [List.getElem?_append_left hlt] at hk
      apply (h.item k jt hk).frame
      intro i _ hi
      have := record_end (h.ends hlast hk) (show k < s.todoCount by rw [h.count]; exact hlt)
      exact hframe i (by omega)
    · obtain ⟨hlt', _⟩ := List.getElem?_eq_some_iff.mp hk
      have hkl : k = items.length := by omega
      rw [hkl, List.getElem?_concat_length] at hk
      cases hk
      rw [hkl, ← h.count]
      exact hnew
  · intro k jt hk hlt
    rw [hlen] at hlt
    rw [List.getElem?_append_left (by omega)] at hk
    exact h.ends hlast hk

/-- The id of the next record stands behind 64 characters of a text: a longer text is not there. -/
theorem text_ne_of_next {i : Nat} {t : List UInt8} (hplain : ∀ c ∈ t, 32 ≤ c)
    (hlong : 63 < t.length) (hi : i + 1 < todoMax)
    (hid : Shows s.todos.get (idAt (i + 1)) (word (i + 1 + 1))) : s.text i ≠ t := by
  intro htext
  have h0 : 0 ∉ t := fun h0 => absurd (hplain 0 h0) (by decide)
  have hbytes := (Chars.str_drop_iff h0).mp htext
  have hnext : textAt i + 64 = idAt (i + 1) := by
    unfold textAt idAt todoSize
    omega
  have hbyte : s.todos.get (textAt i + 64) = Mem.wordByte (i + 1 + 1) 0 := by
    rw [hnext]
    exact hid 0 _ rfl
  have hval := Mem.wordByte_toNat (i + 1 + 1) 0
  rw [← hbyte, Nat.pow_zero, Nat.div_one] at hval
  have hmax : todoMax = 20 := rfl
  by_cases h64 : t.length = 64
  · have := hbytes 64 0 (by rw [← h64, List.getElem?_concat_length])
    rw [this, UInt8.toNat_zero] at hval
    omega
  · have hlt64 : 64 < t.length := by omega
    have := hbytes 64 t[64] (by
      rw [List.getElem?_append_left hlt64, List.getElem?_eq_getElem hlt64])
    rw [this] at hval
    have h32 := UInt8.le_iff_toNat_le.mp (hplain _ (List.getElem_mem hlt64))
    rw [hval] at h32
    have : (32 : UInt8).toNat = 32 := rfl
    omega

/-- An item whose text leaves its record is not shown once there is another behind it. -/
theorem ListsItems.not_shows (h : ListsItems s items) (hc : s.todoCount < todoMax) {it : TodoItem}
    (hcount : s'.todoCount = s.todoCount + 1) (hnew : ItemAt s' s.todoCount it)
    (hframe : ∀ i < idAt s.todoCount, s'.todos.get i = s.todos.get i) {i : Nat}
    (hi : i + 1 = s.todoCount) (hlong : 63 < (s.text i).length) :
    ¬ ListShows s' (items ++ [it]) := by
  have hlt : i < items.length := by
    rw [← h.count]
    omega
  have hk := List.getElem?_eq_getElem hlt
  have hit := h.item i _ hk
  rw [hit.text_eq] at hlong
  rw [listShows_iff, todoList_eq_iff (by rw [hcount, h.count, List.length_append]; rfl)]
  intro hshow
  have hline := hshow i _ (by rw [List.getElem?_append_left hlt, hk])
  have hid : Shows s'.todos.get (idAt i) (word (i + 1)) := by
    apply hit.id.congr
    intro j _ hj
    rw [length_word] at hj
    have := record_end (Nat.zero_le 63) (show i < s.todoCount by omega)
    unfold textAt at this
    unfold idAt at hj
    exact hframe j (by omega)
  rw [id_of_shows hid (h.lt hk).2] at hline
  rw [← hi] at hnew hc
  exact text_ne_of_next hit.plain hlong hc hnew.id (todoLine_inj hline).2

/-- **An item is added.**  The list follows exactly if the last text stays in its record and the
new one in the array. -/
theorem add_follows (h : ListsItems s items) {txt : List UInt8} (htxt : ∀ c ∈ txt, 32 ≤ c) :
    FollowsExactly (TodoSafe s (.add txt)) ((todoAdd s txt).map Prod.fst)
      (refTodo items (.add txt)) := by
  by_cases hc : s.todoCount < todoMax
  · have href : refTodo items (.add txt) = items ++ [⟨unquote txt, false⟩] :=
      if_pos (by rw [← h.count]; exact hc)
    have hnext : s.todoNextId = s.todoCount + 1 := by rw [h.next, h.count]
    rw [href]
    rcases todoAdd_spec htxt hc hnext with
      ⟨⟨s', hadd, hcount, hnext', hnew, hframe⟩, hfit⟩ | ⟨hadd, hfit⟩
    · rw [hadd]
      constructor
      · intro hsafe
        exact ⟨s', rfl, h.added (hsafe hc).1 hc hcount hnext' hnew hframe⟩
      · intro hunsafe s₁ hs₁ hshow
        cases hs₁
        apply hunsafe
        intro _
        refine ⟨?_, hfit⟩
        intro i hi
        by_contra hlong
        exact h.not_shows hc hcount hnew hframe hi (Nat.lt_of_not_le hlong) hshow
    · rw [hadd]
      constructor
      · intro hsafe
        exact absurd (hsafe hc).2 hfit
      · intro _ s' hs'
        cases hs'
  · have hfull : todoAdd s txt = some (s, say (text "Todo list is full!\n")) := by
      unfold todoAdd
      rw [if_pos (Nat.not_lt.mp hc)]
    have href : refTodo items (.add txt) = items := if_neg (by rw [← h.count]; exact hc)
    rw [href, hfull]
    constructor
    · intro _
      exact ⟨s, rfl, h⟩
    · intro hunsafe
      exact absurd (fun hlt => absurd hlt hc) hunsafe

/-! ## `todo done` -/

theorem ItemAt.done_ne_zero {k : Nat} {it : TodoItem} (h : ItemAt s k it) :
    s.done k ≠ 0 ↔ it.done = true := by
  rw [← h.done_eq]
  exact decide_eq_true_iff.symm

/-- Marking item `i` stores into its record only. -/
theorem ListsItems.mark (h : ListsItems s items) {i : Nat} {it : TodoItem}
    (hi : items[i]? = some it) : ∃ todos, storeInt s.todos (doneAt i) 1 = some todos ∧
      ListsItems { s with todos := todos } (items.set i { it with done := true }) := by
  obtain ⟨hlt, hmax⟩ := h.lt hi
  have h20 : todoMax = 20 := rfl
  have h72 : todoSize = 72 := rfl
  have hd : ∀ k, doneAt k = idAt k + 4 := fun _ => rfl
  have ht : ∀ k, textAt k = idAt k + 8 := fun _ => rfl
  have hfit : doneAt i + (word (u32OfInt 1)).length ≤ todoMax * todoSize := by
    rw [length_word, h20, h72]
    unfold doneAt
    rw [h72]
    omega
  obtain ⟨b, hb, _⟩ := s.todos.write_eq (doneAt i) (word (u32OfInt 1)) hfit
  obtain ⟨hshow, hframe⟩ := Chars.get_write hb
  rw [length_word] at hframe
  refine ⟨b, hb, by rw [List.length_set]; exact h.count, by rw [List.length_set]; exact h.room,
    by rw [List.length_set]; exact h.next, ?_, ?_⟩
  · intro k jt hk
    by_cases hki : i = k
    · subst hki
      rw [List.getElem?_set_self hlt] at hk
      cases hk
      have hit := h.item i it hi
      refine ⟨hit.id.congr ?_, hshow, hit.text.congr ?_, hit.plain⟩
      · intro j _ hj
        rw [length_word] at hj
        exact hframe j (.inl (by rw [hd]; exact hj))
      · intro j hj _
        exact hframe j (.inr (by rw [hd]; rw [ht] at hj; omega))
    · rw [List.getElem?_set_ne hki] at hk
      refine (h.item k jt hk).frame ?_
      intro j hj hj'
      by_cases hlt' : k < i
      · have := record_end (h.short k jt hk (by omega)) hlt'
        exact hframe j (.inl (by rw [hd]; omega))
      · have := record_end (Nat.zero_le 63) (show i < k by omega)
        rw [ht] at this
        exact hframe j (.inr (by rw [hd]; omega))
  · intro k jt hk hlt'
    rw [List.length_set] at hlt'
    by_cases hki : i = k
    · subst hki
      rw [List.getElem?_set_self hlt] at hk
      cases hk
      exact h.short i it hi hlt'
    · rw [List.getElem?_set_ne hki] at hk
      exact h.short k jt hk hlt'

/-- `todo done` marks the item of the id, if there is one. -/
theorem todoDone_spec (h : ListsItems s items) (id : Int) :
    (∃ (i : Nat) (it : TodoItem) (todos : _), items[i]? = some it ∧ (i + 1 : Int) = id ∧
        todoDone s id = some ({ s with todos := todos }, say (text "Task marked as done.\n")) ∧
        ListsItems { s with todos := todos } (items.set i { it with done := true })) ∨
      (∀ i < items.length, (i + 1 : Int) ≠ id) ∧
        todoDone s id = some (s, say (text "Task ID not found.\n")) := by
  have hid : ∀ i, i < items.length → s.id i = i + 1 := by
    intro i hi
    have hk := List.getElem?_eq_getElem hi
    exact (h.item i _ hk).id_eq (h.lt hk).2
  unfold todoDone
  cases hf : (List.range s.todoCount).find? (s.id · = id) with
  | some i =>
    have hmem := List.mem_range.mp (List.mem_of_find?_eq_some hf)
    rw [h.count] at hmem
    have hp := List.find?_some hf
    have heq : s.id i = id := of_decide_eq_true hp
    have hi := List.getElem?_eq_getElem hmem
    obtain ⟨todos, hstore, hl⟩ := h.mark hi
    refine .inl ⟨i, _, todos, hi, by rw [← hid i hmem]; exact heq, ?_, hl⟩
    simp only [hstore]
    rfl
  | none =>
    refine .inr ⟨?_, rfl⟩
    intro i hi heq
    rw [List.find?_eq_none] at hf
    refine hf i (List.mem_range.mpr (by rw [h.count]; exact hi)) ?_
    rw [hid i hi]
    exact decide_eq_true heq

/-- A number that is an id does not wrap. -/
theorem atoi_of_id {n : List UInt8} {k : Nat} (hk : k < todoMax) (h : (k + 1 : Int) = numeral n) :
    atoi n = k + 1 := by
  have h20 : todoMax = 20 := rfl
  rw [atoi_eq, ← h, i32_of_lt]
  · omega
  · omega

theorem refDone_getElem? (n : List UInt8) {k : Nat} {it : TodoItem} (hk : items[k]? = some it) :
    (refTodo items (.done n))[k]? =
      some (if (k + 1 : Int) = numeral n then { it with done := true } else it) := by
  unfold refTodo
  rw [List.getElem?_mapIdx, hk]
  rfl

/-- The item of a number that is done as well, if it is not the number's own, is done already. -/
theorem refDone_eq_set (h : ListsItems s items) {n : List UInt8} {i : Nat} {it : TodoItem}
    (hi : items[i]? = some it) (hid : (i + 1 : Int) = atoi n)
    (halready : (i + 1 : Int) ≠ numeral n → it.done = true) :
    refTodo items (.done n) = items.set i { it with done := true } := by
  have hlen : (refTodo items (.done n)).length = items.length := List.length_mapIdx
  apply List.ext_getElem?
  intro k
  by_cases hk : k < items.length
  · have hkt := List.getElem?_eq_getElem hk
    rw [refDone_getElem? n hkt]
    by_cases hki : i = k
    · subst hki
      rw [List.getElem?_set_self hk]
      rw [hi] at hkt
      cases hkt
      split
      · rfl
      · next hne => rw [← halready hne]
    · rw [List.getElem?_set_ne hki, hkt, if_neg]
      intro heq
      have := atoi_of_id (Nat.lt_of_lt_of_le hk h.room) heq
      omega
  · rw [List.getElem?_eq_none (by rw [hlen]; omega),
      List.getElem?_eq_none (by rw [List.length_set]; omega)]

/-- No item has the number. -/
theorem refDone_eq_self (h : ListsItems s items) {n : List UInt8}
    (hno : ∀ i < items.length, (i + 1 : Int) ≠ atoi n) : refTodo items (.done n) = items := by
  have hlen : (refTodo items (.done n)).length = items.length := List.length_mapIdx
  apply List.ext_getElem?
  intro k
  by_cases hk : k < items.length
  · have hkt := List.getElem?_eq_getElem hk
    rw [refDone_getElem? n hkt, hkt, if_neg]
    intro heq
    exact hno k hk (atoi_of_id (Nat.lt_of_lt_of_le hk h.room) heq).symm
  · rw [List.getElem?_eq_none (by rw [hlen]; omega), List.getElem?_eq_none (by omega)]

/-- **An item is done.**  The list follows exactly if the number does not wrap to the id of an item
that is not done. -/
theorem done_follows (h : ListsItems s items) (n : List UInt8) :
    FollowsExactly (TodoSafe s (.done n)) ((todoDone s (atoi n)).map Prod.fst)
      (refTodo items (.done n)) := by
  have hlen : (refTodo items (.done n)).length = items.length := List.length_mapIdx
  rcases todoDone_spec h (atoi n) with ⟨i, it, todos, hi, hid, hdone, hl⟩ | ⟨hno, hdone⟩
  · obtain ⟨hlt, hmax⟩ := h.lt hi
    have hit := h.item i it hi
    rw [hdone]
    constructor
    · intro hsafe
      have halready : (i + 1 : Int) ≠ numeral n → it.done = true := by
        intro hne
        rcases hsafe with heq | hmarked
        · rw [heq] at hne
          exact absurd hid hne
        · exact hit.done_ne_zero.mp
            (hmarked i (by rw [h.count]; exact hlt) (by rw [hit.id_eq hmax]; exact hid))
      rw [refDone_eq_set h hi hid halready]
      exact ⟨_, rfl, hl⟩
    · intro hunsafe s₁ hs₁ hshow
      cases hs₁
      apply hunsafe
      apply or_iff_not_imp_left.mpr
      intro hne j hj hjd
      have hjt := List.getElem?_eq_getElem (by rw [← h.count]; exact hj : j < items.length)
      obtain rfl : j = i := by
        rw [(h.item j _ hjt).id_eq (h.lt hjt).2] at hjd
        omega
      -- the line of the item says `x`
      rw [listShows_iff, todoList_eq_iff (by rw [hl.count, List.length_set, hlen])] at hshow
      have hline := hshow j _ (refDone_getElem? n hi)
      rw [if_neg (fun heq => hne (by rw [← heq]; exact hid))] at hline
      have hmarked := hl.item j _ (List.getElem?_set_self hlt)
      rw [hmarked.id_eq hmax, hmarked.done_eq] at hline
      exact hit.done_ne_zero.mpr (todoLine_inj hline).1.symm
  · rw [refDone_eq_self h hno, hdone]
    constructor
    · intro _
      exact ⟨s, rfl, h⟩
    · intro hunsafe
      apply absurd (.inr ?_) hunsafe
      intro i hi hid
      have hit := List.getElem?_eq_getElem (by rw [← h.count]; exact hi : i < items.length)
      rw [(h.item i _ hit).id_eq (h.lt hit).2] at hid
      exact absurd hid (hno i (h.lt hit).1)

/-! ## Runs -/

theorem cmdTodo_add (s : Todos) (txt : List UInt8) :
    cmdTodo s (TodoCall.add txt).arg =
      (todoAdd s txt).map fun r => (r.1, say (text "\n") ++ r.2) := by
  have hadd : strncmp (text "add " ++ txt) (text "add ") 4 = 0 :=
    strncmp_append (u := text "add ") (by decide) _
  have htxt : (text "add " ++ txt).drop 4 = txt := rfl
  unfold cmdTodo TodoCall.arg
  simp only [if_pos hadd, htxt, Option.bind_eq_bind, Option.map_eq_bind]
  rfl

theorem cmdTodo_done (s : Todos) (n : List UInt8) :
    cmdTodo s (TodoCall.done n).arg =
      (todoDone s (atoi n)).map fun r => (r.1, say (text "\n") ++ r.2) := by
  have hadd : strncmp (text "done " ++ n) (text "add ") 4 ≠ 0 := by
    rw [show strncmp (text "done " ++ n) (text "add ") 4 = 3 from rfl]
    decide
  have hlist : strcmp (text "done " ++ n) (text "list") ≠ 0 := by
    rw [show strcmp (text "done " ++ n) (text "list") = -8 from rfl]
    decide
  have hdone : strncmp (text "done " ++ n) (text "done ") 5 = 0 :=
    strncmp_append (u := text "done ") (by decide) _
  have hn : (text "done " ++ n).drop 5 = n := rfl
  unfold cmdTodo TodoCall.arg
  simp only [if_neg hadd, if_neg hlist, if_pos hdone, hn, Option.bind_eq_bind, Option.map_eq_bind]
  rfl

theorem cmdTodo_clear (s : Todos) :
    cmdTodo s TodoCall.clear.arg =
      some ({ s with todoCount := 0, todoNextId := 1 },
        say (text "\n") ++ say (text "Todo list cleared.\n")) := by
  unfold cmdTodo TodoCall.arg
  rw [if_neg (by decide), if_neg (by decide), if_neg (by decide), if_pos (by decide)]

/-- **One command.** -/
theorem todo_follows (h : ListsItems s items) {c : TodoCall} (hc : c.Typed) :
    FollowsExactly (TodoSafe s c) ((todoMachine.step s c).map Prod.snd) (refTodo items c) := by
  have hstep : (todoMachine.step s c).map Prod.snd = (cmdTodo s c.arg).map Prod.fst :=
    Option.map_map _ _ _
  rw [hstep]
  cases c with
  | add txt =>
    rw [cmdTodo_add, Option.map_map]
    refine add_follows h ?_
    intro x hx
    exact (hc.1 x (List.mem_append_right _ hx)).1
  | done n =>
    rw [cmdTodo_done, Option.map_map]
    exact done_follows h n
  | clear =>
    rw [cmdTodo_clear]
    refine ⟨fun _ => ⟨_, rfl, rfl, Nat.zero_le _, rfl, ?_, ?_⟩, fun hu => absurd trivial hu⟩
    · intro k it hk
      cases hk
    · intro k it hk
      cases hk

/-- A run of safe commands. -/
theorem todos_follow {es : List TodoCall} {os : List (List TerminalCall)}
    (hr : (todoMachine.restrict TodoSafe).Run s es os s') (h : ListsItems s items) :
    ListsItems s' (es.foldl refTodo items) := by
  induction hr generalizing items with
  | nil s => exact h
  | cons hl hs _ ih =>
    obtain ⟨s₁, h₁, hitems⟩ := (todo_follows h hl.1).1 hl.2
    have hs := congrArg (Option.map Prod.snd) hs
    have heq := h₁.symm.trans hs
    cases heq
    exact ih hitems

/-- **The to-do list.**  After safe commands `todo list` shows the list of their items, and one
more command keeps it so exactly if it is safe. -/
theorem todo_list_iff {es : List TodoCall} {os : List (List TerminalCall)}
    (hr : (todoMachine.restrict TodoSafe).Run Todos.boot es os s) :
    ListShows s (refTodos es) ∧ ∀ c : TodoCall, c.Typed →
      ((∃ o s', todoMachine.step s c = some (o, s') ∧ ListShows s' (refTodos (es ++ [c]))) ↔
        TodoSafe s c) := by
  have h : ListsItems s (refTodos es) := todos_follow hr boot_lists
  refine ⟨h.shows, ?_⟩
  intro c hc
  have href : refTodos (es ++ [c]) = refTodo (refTodos es) c :=
    List.foldl_concat _ _ _ _
  obtain ⟨hsafe, hunsafe⟩ := todo_follows h hc
  rw [href]
  constructor
  · rintro ⟨o, s', hs, hshow⟩
    by_contra hns
    exact hunsafe hns s' (by rw [hs]; rfl) hshow
  · intro hs
    obtain ⟨s', hs', hl⟩ := hsafe hs
    obtain ⟨⟨o, s₁⟩, hstep, heq⟩ := Option.map_eq_some_iff.mp hs'
    cases heq
    exact ⟨o, s₁, hstep, hl.shows⟩

/-- A first item, as long as a line takes. -/
theorem boot_add (txt : List UInt8) (htxt : ∀ c ∈ txt, IsPrintable c) (hlen : txt.length ≤ 246) :
    ∃ o s', (todoMachine.restrict TodoSafe).Run Todos.boot [.add txt] [o] s' := by
  have hsafe : TodoSafe Todos.boot (.add txt) := by
    intro _
    refine ⟨fun i hi => absurd hi (Nat.succ_ne_zero i), ?_⟩
    have hcut := unquote_length txt
    show 0 * 72 + 8 + _ < 20 * 72
    omega
  have htyped : (TodoCall.add txt).Typed := by
    refine ⟨?_, ?_⟩
    · intro x hx
      rcases List.mem_append.mp hx with hx | hx
      · exact (show ∀ x ∈ text "add ", IsPrintable x from forall_of_all (by decide)) x hx
      · exact htxt x hx
    · show (text "todo " ++ (text "add " ++ txt)).length ≤ 255
      rw [List.length_append, List.length_append]
      show 5 + (4 + txt.length) ≤ 255
      omega
  obtain ⟨s', hs', _⟩ := (todo_follows boot_lists htyped).1 hsafe
  obtain ⟨⟨o, s₁⟩, hstep, heq⟩ := Option.map_eq_some_iff.mp hs'
  cases heq
  exact ⟨o, s₁, Machine.Run.single ⟨htyped, hsafe⟩ hstep⟩

theorem todo_list_iff_milk : ∃ o s,
    (todoMachine.restrict TodoSafe).Run Todos.boot [.add (text "milk")] [o] s ∧
      ListShows s [⟨text "milk", false⟩] := by
  obtain ⟨o, s, hr⟩ := boot_add (text "milk") (forall_of_all (by decide)) (by decide)
  exact ⟨o, s, hr, (todo_list_iff hr).1⟩

/-- A text of 64 characters, and one more item. -/
theorem todo_longText : ∃ os s,
    todoMachine.Run Todos.boot [.add (List.replicate 64 (ch 'x')), .add (text "y")] os s ∧
      ¬ ListShows s (refTodos [.add (List.replicate 64 (ch 'x')), .add (text "y")]) := by
  have hx : ∀ c ∈ List.replicate 64 (ch 'x'), IsPrintable c := by
    intro c hc
    rw [List.eq_of_mem_replicate hc]
    decide
  obtain ⟨o, s, hr⟩ := boot_add (List.replicate 64 (ch 'x')) hx (by rw [List.length_replicate]; decide)
  have h : ListsItems s [⟨List.replicate 64 (ch 'x'), false⟩] := todos_follow hr boot_lists
  have htyped : (TodoCall.add (text "y")).Typed :=
    ⟨forall_of_all (by decide), by decide⟩
  have hy : ∀ c ∈ text "y", 32 ≤ c := forall_of_all (by decide)
  have hone : s.todoCount = 1 := h.count
  obtain ⟨⟨s', hadd, _⟩, _⟩ | ⟨_, hfull⟩ := todoAdd_spec hy (by rw [hone]; decide)
    (by rw [h.next, hone]; rfl)
  · have hstep : todoMachine.step s (.add (text "y")) =
        some (say (text "\n") ++ say (text "Task added.\n"), s') := by
      show (cmdTodo s _).map _ = _
      rw [cmdTodo_add, hadd]
      rfl
    refine ⟨_, s', hr.of_restrict.append (Machine.Run.single htyped hstep), ?_⟩
    refine (todo_follows h htyped).2 ?_ s' (by rw [hstep]; rfl)
    intro hsafe
    have hlong := (hsafe (by rw [hone]; decide)).1 0 hone.symm
    rw [(h.item 0 _ rfl).text_eq, List.length_replicate] at hlong
    exact absurd hlong (by decide)
  · rw [hone] at hfull
    exact absurd (show textAt 1 + (unquote (text "y")).length < todoMax * todoSize by decide) hfull

end MiniOS
