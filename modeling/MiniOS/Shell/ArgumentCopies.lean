import MiniOS.Shell.Calc
import MiniOS.Shell.TodoList

/-!
# The copies of an argument

`calc` copies the two parts of its argument into 32 bytes each, `notes view`
its title behind `note_` into 64 bytes; how much is copied is up to the line
(`line_copies_iff`).
-/

namespace MiniOS

open Lib

/-! ## `notes view` -/

/-- `raw_filename` of `notes view`. -/
def viewFilename (title : List UInt8) : Option (Chars 64) := do
  let rawFilename ← strcpy (Chars.uninit 64) (text "note_")
  let title := if title.headD 0 = ch '"' then title.drop 1 else title
  let tlen := strlen title
  let tlen := if tlen > 0 ∧ title.getD (tlen - 1) 0 = ch '"' then tlen - 1 else tlen
  let rawFilename ← strncpy rawFilename 5 title tlen
  rawFilename.put (5 + tlen) 0

/-- `notes view` copies the title and goes on with the copy. -/
theorem notesView_eq (s : Shell) (title : List UInt8) :
    notesView s title = (viewFilename title).bind (fun rawFilename => do
      let title := if title.headD 0 = ch '"' then title.drop 1 else title
      let path ← resolvePath s.currentDir rawFilename.bytes (Chars.uninit 64)
      let (n, buf) ← fsRead s.table path.bytes (Chars.uninit (fsMaxFilesize + 1)) (fsMaxFilesize + 1)
      if n ≥ 0 then
        some (say (text "--- " ++ str title ++ text " ---\n" ++ str buf.bytes ++ text "\n"))
      else some (say (text "Note not found.\n"))) := by
  unfold notesView viewFilename
  simp only [Option.bind_eq_bind, Option.bind_assoc]

theorem viewFilename_isSome_iff (title : List UInt8) :
    (viewFilename title).isSome ↔ (unquote (str title)).length ≤ 58 := by
  obtain ⟨raw, hcpy, _⟩ := strcpy_spec (Chars.uninit 64) (text "note_") (by decide)
  obtain ⟨hcopy, hlen⟩ := unquote_copied title
  have hone : viewFilename title = raw.write 5 (unquote (str title) ++ [0]) := by
    unfold viewFilename
    simp only [← hlen] at hcopy
    simp only [hcpy, Option.bind_eq_bind, Option.bind_some, ← hlen, hcopy, Chars.write_append,
      Chars.write_singleton]
  rw [hone, Chars.write_isSome _ _ _ (by simp), List.length_append, List.length_singleton]
  omega

/-! ## Lines -/

/-- No copy that the command makes of its argument leaves its array. -/
def CopiesFit (command : Option Command) (arg : List UInt8) : Prop :=
  (command = some .calc → cmdCalc arg ≠ .error .store) ∧
    (command = some .notes → strncmp arg (text "view ") 5 = 0 → (viewFilename (arg.drop 5)).isSome)

theorem calcOperands_ne_store (op : UInt8) (n1 n2 : Int) :
    calcOperands op n1 n2 ≠ .error .store := by
  unfold calcOperands
  split
  · exact nofun
  split
  · exact nofun
  split
  · exact nofun
  split
  · split
    · exact nofun
    · unfold idiv
      split
      · exact nofun
      · exact nofun
  · exact nofun

theorem cmdCalc_store_iff (arg : List UInt8) :
    cmdCalc arg ≠ .error .store ↔ ∀ a op b, str arg = a ++ op :: b → Operand a → IsOperator op →
      a.length ≤ 31 ∧ b.length ≤ 31 := by
  rcases operator_split (str arg) with hnone | ⟨a, op, b, harg, ha, hop⟩
  · rw [cmdCalc_none hnone]
    refine iff_of_true nofun ?_
    intro a op b harg _ hop
    rw [harg] at hnone
    exact absurd hop (hnone op (List.mem_append_right _ List.mem_cons_self))
  · rw [cmdCalc_spec harg ha hop]
    constructor
    · intro h a' op' b' harg' ha' hop'
      obtain ⟨rfl, rfl, rfl⟩ := operator_split_unique ha ha' hop hop' (harg.symm.trans harg')
      by_contra hfit
      rw [if_neg hfit] at h
      exact h rfl
    · intro h
      rw [if_pos (h a op b harg ha hop)]
      exact calcOperands_ne_store op _ _

theorem view_fits_iff (arg : List UInt8) :
    (strncmp arg (text "view ") 5 = 0 → (viewFilename (arg.drop 5)).isSome) ↔
      ∀ title, str arg = text "view " ++ title → (unquote title).length ≤ 58 := by
  have hview : strncmp arg (text "view ") 5 = 0 ↔ text "view " <+: str arg :=
    strncmp_strlen_iff arg (text "view ")
  rw [hview, viewFilename_isSome_iff]
  constructor
  · intro h title harg
    have hfit := h ⟨title, harg.symm⟩
    have htitle : str (arg.drop 5) = title := str_drop_append harg
    rwa [htitle] at hfit
  · rintro h ⟨title, harg⟩
    have htitle : str (arg.drop 5) = title := str_drop_append harg.symm
    rw [htitle]
    exact h title harg.symm

/-- **Copies of the argument.**  Whatever line is read, they stay in their arrays
exactly when the operator of a `calc` has at most 31 characters on each side and
the title of a `notes view`, without its quotes, at most 58. -/
theorem line_copies_iff (inputBuf : Chars inputMax) :
    (∀ command arg, commandLine inputBuf.bytes = some (command, arg) → CopiesFit command arg) ↔
      ∀ command arg, commandLine inputBuf.bytes = some (command, arg) →
        (command = some .calc → ∀ a op b, str arg = a ++ op :: b → Operand a → IsOperator op →
          a.length ≤ 31 ∧ b.length ≤ 31) ∧
        (command = some .notes → ∀ title, str arg = text "view " ++ title →
          (unquote title).length ≤ 58) := by
  unfold CopiesFit
  simp only [cmdCalc_store_iff, view_fits_iff]

/-- `calc`, 32 digits and `+1`: the first operand is stored behind `buf1`. -/
theorem line_copies_overflow :
    ∃ inputBuf : Chars inputMax,
      str inputBuf.bytes = text "calc " ++ (List.replicate 32 (ch '1') ++ text "+1") ∧
      ¬ ∀ command arg, commandLine inputBuf.bytes = some (command, arg) → CopiesFit command arg := by
  have hstr : ∀ s : List UInt8, 0 ∉ s → str (s ++ List.replicate 217 0) = s := by
    intro s h0
    rw [List.replicate_succ]
    exact str_append_zero h0 _
  refine ⟨⟨text "calc" ++ ch ' ' :: (List.replicate 32 (ch '1') ++ text "+1" ++
    List.replicate 217 0), ?_⟩, ?_, ?_⟩
  · simp only [List.length_append, List.length_cons, List.length_replicate]
    rfl
  · exact hstr (text "calc " ++ (List.replicate 32 (ch '1') ++ text "+1")) (by decide)
  · intro h
    have hfit := h _ _ (commandLine_of_name (c := .calc) (by decide) _)
    rw [skipSpaces_of_ne (by decide) (by decide)] at hfit
    have hcut : str (List.replicate 32 (ch '1') ++ text "+1" ++ List.replicate 217 0) =
        List.replicate 32 (ch '1') ++ ch '+' :: text "1" := hstr _ (by decide)
    obtain ⟨hlen, _⟩ := (cmdCalc_store_iff _).mp (hfit.1 rfl) _ _ _ hcut
      (fun c hc => by rw [List.eq_of_mem_replicate hc]; decide) (by decide)
    rw [List.length_replicate] at hlen
    omega

end MiniOS
