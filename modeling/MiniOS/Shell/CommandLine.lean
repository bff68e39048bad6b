import MiniOS.Shell.TransferNames

/-!
# From the line to the command (`shell_run` in `kernel/shell.c`)

A line is cut at its first blank: what stands before it, in 64 bytes, names the
command, and what stands behind the blanks is its argument (`splitCommand`).
The names are compared one after the other (`commandTable`, `dispatch`).
-/

namespace MiniOS

open Lib

/-- The branches of `shell_run`. -/
inductive Command where
  | cmds | osinfo | cls | wrt | memo | new | edit | write | see | laf | date | alive | calc
  | color | history | todo | passgen | notes | fm | sysinfo | del | cpy | mov | rename | look
  | wdir | goto | mkd | deld | dtree | whoiam | rst | bye | disk | hunt | cnt | top | btm | flip
  | dice | splash | ver | ref
deriving DecidableEq

/-- The names in the order of the comparisons. -/
def commandTable : List (List UInt8 × Command) :=
  [(text "cmds", .cmds), (text "osinfo", .osinfo), (text "cls", .cls), (text "wrt", .wrt),
    (text "memo", .memo), (text "new", .new), (text "edit", .edit), (text "write", .write),
    (text "see", .see), (text "laf", .laf), (text "date", .date), (text "alive", .alive),
    (text "uptime", .alive), (text "calc", .calc), (text "color", .color),
    (text "history", .history), (text "todo", .todo), (text "passgen", .passgen),
    (text "notes", .notes), (text "fm", .fm), (text "sysinfo", .sysinfo), (text "del", .del),
    (text "cpy", .cpy), (text "mov", .mov), (text "rename", .rename), (text "look", .look),
    (text "wdir", .wdir), (text "goto", .goto), (text "mkd", .mkd), (text "deld", .deld),
    (text "dtree", .dtree), (text "whoiam", .whoiam), (text "rst", .rst), (text "bye", .bye),
    (text "disk", .disk), (text "hunt", .hunt), (text "cnt", .cnt), (text "top", .top),
    (text "btm", .btm), (text "flip", .flip), (text "dice", .dice), (text "splash", .splash),
    (text "ver", .ver), (text "ref", .ref)]

/-- The branch for the name `cmd`; `none` for an unknown command. -/
def dispatch (cmd : List UInt8) : Option Command :=
  (commandTable.find? fun e => strcmp cmd e.1 = 0).map Prod.snd

/-- `cmd` and `arg` of a line without blanks at its start. -/
def splitCommand (line : List UInt8) : Option (Chars 64 × List UInt8) :=
  match strchr line (ch ' ') with
  | some space => do
    let cmdLen := if space ≥ 64 then 64 - 1 else space
    let cmd ← strncpy (Chars.uninit 64) 0 line cmdLen
    let cmd ← cmd.put cmdLen 0
    some (cmd, skipSpaces (line.drop (space + 1)))
  | none => do
    let cmd ← strncpy (Chars.uninit 64) 0 line (64 - 1)
    let cmd ← cmd.put (64 - 1) 0
    some (cmd, [])

/-- The branch and the argument for what `input_buf` holds. -/
def commandLine (inputBuf : List UInt8) : Option (Option Command × List UInt8) := do
  let (cmd, arg) ← splitCommand (skipSpaces inputBuf)
  some (dispatch cmd.bytes, arg)

/-! ## The name -/

/-- No two branches have one name, so the order of the comparisons does not matter. -/
theorem dispatch_eq_some_iff (cmd : List UInt8) (c : Command) :
    dispatch cmd = some c ↔ ∃ name, (name, c) ∈ commandTable ∧ str cmd = name := by
  have hname : ∀ e ∈ commandTable, str e.1 = e.1 := by decide
  have hfirst : ∀ e ∈ commandTable,
      commandTable.find? (fun e' => strcmp e.1 e'.1 = 0) = some e := by decide
  have hcong : ∀ e ∈ commandTable, str cmd = e.1 →
      ∀ e' : List UInt8 × Command, strcmp cmd e'.1 = 0 ↔ strcmp e.1 e'.1 = 0 := by
    intro e he hcmd e'
    rw [strcmp_eq_zero_iff, strcmp_eq_zero_iff, hname e he, hcmd]
  unfold dispatch
  constructor
  · intro h
    obtain ⟨e, hfind, rfl⟩ := Option.map_eq_some_iff.mp h
    have hmem := List.mem_of_find?_eq_some hfind
    have heq : strcmp cmd e.1 = 0 := by simpa using List.find?_some hfind
    rw [strcmp_eq_zero_iff, hname e hmem] at heq
    exact ⟨e.1, hmem, heq⟩
  · rintro ⟨name, hmem, hcmd⟩
    simp only [hcong (name, c) hmem hcmd, hfirst (name, c) hmem]
    rfl

/-- A name followed by a blank is the command, if it is one. -/
theorem commandLine_of_name {name : List UInt8} {c : Command} (hname : (name, c) ∈ commandTable)
    (rest : List UInt8) : commandLine (name ++ ch ' ' :: rest) = some (some c, skipSpaces rest) := by
  have hplain : ∀ e ∈ commandTable, e.1 ≠ [] ∧ e.1.length ≤ 63 ∧ 0 ∉ e.1 ∧ ch ' ' ∉ e.1 ∧
      ch '\t' ∉ e.1 := by decide
  obtain ⟨hne, hlen, h0, hspace, htab⟩ := hplain _ hname
  simp only at hne hlen h0 hspace htab
  have hhead : name.headD 0 ≠ ch '\t' := fun h => htab (h ▸ headD_mem hne)
  have hchr : strchr (name ++ ch ' ' :: rest) (ch ' ') = some name.length :=
    strchr_append (by decide) h0 hspace rest
  have hstr : (str (name ++ ch ' ' :: rest)).take name.length = name := by
    rw [str_append h0]
    exact List.take_left
  obtain ⟨b, b', hb, hb', hs⟩ := strncpy_put_spec (Chars.uninit 64) 0 (name ++ ch ' ' :: rest)
    name.length (by omega) (Nat.zero_le _)
  rw [Nat.zero_add] at hb'
  rw [List.take_zero, List.nil_append, hstr] at hs
  have hdrop : (name ++ ch ' ' :: rest).drop (name.length + 1) = rest := by
    rw [List.drop_append, List.drop_eq_nil_of_le (by omega), Nat.add_sub_cancel_left]
    rfl
  have hd : dispatch b'.bytes = some c := (dispatch_eq_some_iff _ _).mpr ⟨name, hname, hs⟩
  unfold commandLine splitCommand
  rw [skipSpaces_append hne hspace hhead]
  simp only [hchr, if_neg (show ¬ name.length ≥ 64 by omega), hb, hb', hdrop, hd,
    Option.bind_eq_bind, Option.bind_some]

end MiniOS
