import MiniOS.Shell.Commands

/-!
# The text colour and the files

No filesystem command looks at `shell_text_color` except to draw with it: with
another colour it leaves the same files, directory and keys (`run_recolor`).
-/

namespace MiniOS

open Lib

def Shell.recolor (s : Shell) (c : VgaColor) : Shell := { s with textColor := c }

def Shown.recolor (c : VgaColor) (r : Shown) : Shown := (r.1.recolor c, r.2)

/-- What a command leaves, without what it has shown. -/
def Typed.left (r : Typed Shell) : Shell × List UInt8 := (r.val, r.keys)

def recolorLeft (c : VgaColor) (r : Shell × List UInt8) : Shell × List UInt8 := (r.1.recolor c, r.2)

variable {s : Shell} {c : VgaColor}

/-! ## Commands without keys -/

theorem cmdNew_recolor (arg : List UInt8) :
    cmdNew (s.recolor c) arg = (cmdNew s arg).map (Shown.recolor c) := by
  simp only [cmdNew, Shell.recolor, apply_ite (Option.map _), Option.map_bind, Option.bind_eq_bind,
    Function.comp_def, Option.map_some, Shown.recolor]

theorem cmdSee_recolor (arg : List UInt8) :
    cmdSee (s.recolor c) arg = (cmdSee s arg).map (Shown.recolor c) := by
  simp only [cmdSee, Shell.recolor, apply_ite (Option.map _), Option.map_bind, Option.bind_eq_bind,
    Function.comp_def, Option.map_some, Shown.recolor]

theorem cmdLook_recolor (arg : List UInt8) :
    cmdLook (s.recolor c) arg = (cmdLook s arg).map (Shown.recolor c) := by
  simp only [cmdLook, Shell.recolor, apply_ite (Option.map _), Option.map_bind, Option.bind_eq_bind,
    Function.comp_def, Option.map_some, Shown.recolor]

theorem cmdDel_recolor (arg : List UInt8) :
    cmdDel (s.recolor c) arg = (cmdDel s arg).map (Shown.recolor c) := by
  simp only [cmdDel, Shell.recolor, apply_ite (Option.map _), Option.map_bind, Option.bind_eq_bind,
    Function.comp_def, Option.map_some, Shown.recolor]
  rfl

theorem cmdMkd_recolor (arg : List UInt8) :
    cmdMkd (s.recolor c) arg = (cmdMkd s arg).map (Shown.recolor c) := by
  simp only [cmdMkd, Shell.recolor, apply_ite (Option.map _), Option.map_bind, Option.bind_eq_bind,
    Function.comp_def, Option.map_some, Shown.recolor]

theorem cmdDeld_recolor (arg : List UInt8) :
    cmdDeld (s.recolor c) arg = (cmdDeld s arg).map (Shown.recolor c) := by
  simp only [cmdDeld, Shell.recolor, apply_ite (Option.map _), Option.map_bind, Option.bind_eq_bind,
    Function.comp_def, Option.map_some, Shown.recolor]
  rfl

theorem cmdGoto_recolor (arg : List UInt8) :
    cmdGoto (s.recolor c) arg = (cmdGoto s arg).map (Shown.recolor c) := by
  simp only [cmdGoto, Shell.recolor, apply_ite (Option.map _), Option.map_bind, Option.bind_eq_bind,
    Function.comp_def, Option.map_some, Shown.recolor]
  rfl

/-! ## Commands with keys -/

def Typed.recolor (c : VgaColor) (r : Typed Shell) : Typed Shell := { r with val := r.val.recolor c }

theorem cmdEdit_recolor (arg keys : List UInt8) :
    cmdEdit (s.recolor c) arg keys = (cmdEdit s arg keys).map (Typed.recolor c) := by
  simp only [cmdEdit, Shell.recolor, apply_ite (Option.map _), Option.map_bind, Option.bind_eq_bind,
    Function.comp_def, Option.map_some, Typed.recolor]

theorem cmdWrite_recolor (arg keys : List UInt8) :
    cmdWrite (s.recolor c) arg keys = (cmdWrite s arg keys).map (Typed.recolor c) := by
  simp only [cmdWrite, Shell.recolor, apply_ite (Option.map _), Option.map_bind, Option.bind_eq_bind,
    Function.comp_def, Option.map_some, Typed.recolor]

theorem notesNew_recolor (keys : List UInt8) :
    notesNew (s.recolor c) keys = (notesNew s keys).map (Typed.recolor c) := by
  simp only [notesNew, Shell.recolor, Option.map_bind, Option.bind_eq_bind, Function.comp_def,
    Option.map_some, Typed.recolor]

theorem cmdNotes_recolor (arg keys : List UInt8) :
    cmdNotes (s.recolor c) arg keys = (cmdNotes s arg keys).map (Typed.recolor c) := by
  have hview : ∀ title, notesView (s.recolor c) title = notesView s title := fun _ => rfl
  simp only [cmdNotes, notesNew_recolor, hview, apply_ite (Option.map _), Option.map_bind,
    Option.bind_eq_bind, Option.bind_map, Function.comp_def, Option.map_some]
  rfl

theorem fmKey_recolor (k : UInt8) (keys : List UInt8) :
    fmKey (s.recolor c) k keys = (fmKey s k keys).map (Typed.recolor c) := by
  simp only [fmKey, fmCreate, fmRead, fmDelete, Shell.recolor, apply_ite (Option.map _),
    Option.map_bind, Option.bind_eq_bind, Function.comp_def, Option.map_some, Typed.recolor]

/-- Two rounds of the file manager: its screen is drawn in the text colour. -/
def FmAlike (c : VgaColor) (r r' : Typed Shell) : Prop :=
  r'.val = r.val.recolor c ∧ r'.keys = r.keys

theorem fmBody_recolor {r r' : Typed Shell} (h : FmAlike c r r') :
    Sum.LiftRel (FmAlike c) (Option.Rel (FmAlike c)) (fmBody r) (fmBody r') := by
  obtain ⟨hval, hkeys⟩ := h
  unfold fmBody
  rw [hkeys, hval]
  cases keyboardGetchar r.keys with
  | none => exact .inr .none
  | some k =>
    simp only
    split
    · exact .inr (.some ⟨rfl, rfl⟩)
    · rw [fmKey_recolor]
      cases fmKey r.val k.1 k.2 with
      | none => exact .inr .none
      | some r₁ => exact .inl ⟨rfl, rfl⟩

theorem left_of_alike {o o' : Option (Typed Shell)} (h : Option.Rel (FmAlike c) o o') :
    o'.map Typed.left = o.map fun r => recolorLeft c r.left := by
  cases h with
  | some h => exact congrArg some (Prod.ext h.1 h.2)
  | none => rfl

theorem cmdFm_recolor (keys : List UInt8) :
    (cmdFm (s.recolor c) keys).map Typed.left = (cmdFm s keys).map fun r => recolorLeft c r.left := by
  have hstart : FmAlike c ⟨s, [], keys⟩ ⟨s.recolor c, [], keys⟩ := ⟨rfl, rfl⟩
  have hloop := loop_related (fun _ _ h => fmBody_recolor h) (keys.length + 1) hstart
  apply left_of_alike
  unfold cmdFm
  revert hloop
  generalize loop fmBody (keys.length + 1) ⟨s, [], keys⟩ = o
  generalize loop fmBody (keys.length + 1) ⟨s.recolor c, [], keys⟩ = o'
  rintro (h | _)
  · exact h
  · exact .none

/-- **The colour** makes no difference to what a command leaves. -/
theorem run_recolor (s : Shell) (c : VgaColor) (e : ShellCall) :
    (e.run (s.recolor c)).map Typed.left = (e.run s).map fun r => recolorLeft c r.left := by
  have hshown : ∀ {f f' : Option Shown}, f' = f.map (Shown.recolor c) →
      (f'.map (Shown.typed e.keys)).map Typed.left =
        (f.map (Shown.typed e.keys)).map fun r => recolorLeft c r.left := by
    rintro f _ rfl
    rw [Option.map_map, Option.map_map, Option.map_map]
    rfl
  have htyped : ∀ {f f' : Option (Typed Shell)}, f' = f.map (Typed.recolor c) →
      f'.map Typed.left = f.map fun r => recolorLeft c r.left := by
    rintro f _ rfl
    rw [Option.map_map]
    rfl
  have htransfer : ∀ f : Option Transfer, (f.map (Transfer.typed (s.recolor c) e.keys)).map Typed.left =
      (f.map (Transfer.typed s e.keys)).map fun r => recolorLeft c r.left := by
    intro f
    rw [Option.map_map, Option.map_map]
    rfl
  unfold ShellCall.run
  cases e.cmd with
  | new => exact hshown (cmdNew_recolor e.arg)
  | edit => exact htyped (cmdEdit_recolor e.arg e.keys)
  | write => exact htyped (cmdWrite_recolor e.arg e.keys)
  | see => exact hshown (cmdSee_recolor e.arg)
  | laf => rfl
  | notes => exact htyped (cmdNotes_recolor e.arg e.keys)
  | fm => exact cmdFm_recolor e.keys
  | del => exact hshown (cmdDel_recolor e.arg)
  | cpy => exact htransfer (cmdCpy s e.arg)
  | mov => exact htransfer (cmdMov s e.arg)
  | rename => exact htransfer (cmdRename s e.arg)
  | look => exact hshown (cmdLook_recolor e.arg)
  | wdir => rfl
  | goto => exact hshown (cmdGoto_recolor e.arg)
  | mkd => exact hshown (cmdMkd_recolor e.arg)
  | deld => exact hshown (cmdDeld_recolor e.arg)

end MiniOS
