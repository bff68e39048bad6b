import MiniOS.Filesystem.FileMap
import MiniOS.Memory.Heap
import MiniOS.Memory.Numbers
import MiniOS.Screen.PrintfFields
import MiniOS.Screen.Printing
import MiniOS.Shell.Invariants
import MiniOS.Shell.LineEditor

/-!
# The commands that report (`kernel/shell.c`)

The commands that print a text, a help page or a state.  Where `terminal_printf`
has a field of two digits, `twoDigits` is its text (`clock_printf`).

* `clock_reads`: the uptime is read back from its clock;
* `disk_slots`: the free slots are those in which files can still be created.
-/

namespace MiniOS

open Lib

/-! ## What is printed -/

theorem printedText_say {s : List UInt8} (h0 : 0 ∉ s) : printedText (say s) = s :=
  (displays_say h0).text_eq

/-! ## Texts -/

/-- The lines of `cmd_cmds` after its title. -/
def cmdsLines : List (List UInt8) :=
  [text "  cmds          -- show this list\n",
    text "  osinfo        -- show OS info and author\n",
    text "  cls           -- clear the screen\n",
    text "  wrt [text]    -- print text back to screen\n",
    text "  memo          -- show heap usage stats\n",
    text "  new [file]    -- create a new file\n",
    text "  edit [file]   -- open file in MiniEdit (ESC=save&quit)\n",
    text "  write  [file] -- write text to a file\n",
    text "  see [file]    -- display file contents\n",
    text "  laf           -- list all files\n",
    text "  date          -- show a hardcoded timestamp\n",
    text "  alive         -- show how long OS has been running\n",
    text "  calc [expr]   -- basic calculator (e.g. calc 5 + 3)\n",
    text "  color [color] -- change terminal text colour\n",
    text "  history       -- show last 10 typed commands\n",
    text "  todo [opts]   -- todo manager (add/list/done/clear)\n",
    text "  fm            -- interactive file manager\n",
    text "  passgen [len] -- generate a random password\n",
    text "  notes [opts]  -- notes app (new/list/view)\n",
    text "  sysinfo       -- system info dashboard\n"]

def cmdCmds (s : Shell) : List TerminalCall :=
  [.setcolor .yellow .black] ++ say (text "\nAvailable commands:\n") ++
    [.setcolor .lightGrey .black] ++ cmdsLines.map .writestring ++ [.setcolor s.textColor .black]

def cmdOsinfo (s : Shell) : List TerminalCall :=
  say (text "\n") ++ [.setcolor .cyan .black] ++ say (text "  MiniOS v1.0\n") ++
    [.setcolor .lightGrey .black] ++ say (text "  Built by Ahmed Ali\n") ++
      say (text "  Stack: C99 + x86 Assembly, GRUB 2, QEMU\n") ++ [.setcolor s.textColor .black]

def cmdWrt (arg : List UInt8) : List TerminalCall :=
  [.putchar (ch '\n'), .writestring arg, .putchar (ch '\n')]

def cmdSplash (s : Shell) : List TerminalCall :=
  [.setcolor .lightCyan .black] ++ say (text "\n  === Welcome to MiniOS ===\n\n") ++
    [.setcolor s.textColor .black]

def cmdVer : List TerminalCall := say (text "MiniOS v1.0\n")

def cmdWhoiam : List TerminalCall := say (text "root\n")

/-- The comparisons of `cmd_ref`, in their order. -/
def refTable : List (List UInt8 × List UInt8) :=
  [(text "new", text "  new [file] -- Create empty file\n  Example: new notes.txt\n"),
    (text "see", text "  see [file] -- Display file contents\n  Example: see notes.txt\n"),
    (text "del", text "  del [file] -- permanently deletes a file\n  Example: del notes.txt\n"),
    (text "cpy", text "  cpy [src] [dst] -- Copy a file\n  Example: cpy notes.txt backup.txt\n"),
    (text "mov",
      text "  mov [src] [dst] -- Move / rename a file\n  Example: mov old.txt new.txt\n"),
    (text "look", text "  look [name] -- Search for a file\n  Example: look todo\n"),
    (text "laf", text "  laf -- List files\n  Example: laf\n"),
    (text "wdir", text "  wdir -- Show current directory\n  Example: wdir\n"),
    (text "goto", text "  goto [dir] -- Change directory\n  Example: goto docs\n"),
    (text "mkd", text "  mkd [dir] -- Create directory\n  Example: mkd projects\n"),
    (text "deld", text "  deld [dir] -- Delete directory\n  Example: deld projects\n"),
    (text "dtree", text "  dtree -- Show directory tree\n  Example: dtree\n"),
    (text "cls", text "  cls -- Clear screen\n  Example: cls\n"),
    (text "wrt", text "  wrt [text] -- Print text\n  Example: wrt Hello from MiniOS\n"),
    (text "osinfo", text "  osinfo -- OS name and version\n  Example: osinfo\n"),
    (text "alive", text "  alive / uptime -- Uptime since boot\n  Example: uptime\n"),
    (text "uptime", text "  alive / uptime -- Uptime since boot\n  Example: uptime\n"),
    (text "whoiam", text "  whoiam -- Current user\n  Example: whoiam\n"),
    (text "rst", text "  rst -- Restart OS\n  Example: rst\n"),
    (text "bye", text "  bye -- Shutdown OS\n  Example: bye\n"),
    (text "memo", text "  memo -- Heap memory stats\n  Example: memo\n"),
    (text "disk", text "  disk -- Filesystem stats\n  Example: disk\n"),
    (text "hunt",
      text "  hunt [file] [word] -- Search in file\n  Example: hunt notes.txt meeting\n"),
    (text "cnt", text "  cnt [file] -- Count words/lines\n  Example: cnt notes.txt\n"),
    (text "top", text "  top [file] [n] -- First N lines\n  Example: top notes.txt 3\n"),
    (text "btm", text "  btm [file] [n] -- Last N lines\n  Example: btm notes.txt 3\n"),
    (text "todo", text "  todo -- To-do list manager\n  Example: todo\n"),
    (text "calc", text "  calc -- Calculator\n  Example: calc\n"),
    (text "passgen", text "  passgen [n] -- Password generator\n  Example: passgen 16\n"),
    (text "flip", text "  flip -- Flip a coin\n  Example: flip\n"),
    (text "dice", text "  dice -- Roll a dice\n  Example: dice\n"),
    (text "color", text "  color [name] -- Change text colour\n  Example: color green\n"),
    (text "splash", text "  splash -- Show boot screen\n  Example: splash\n"),
    (text "ver", text "  ver -- Version info\n  Example: ver\n"),
    (text "ref", text "  ref [cmd] -- Help for a command\n  Example: ref del\n"),
    (text "cmds", text "  cmds -- List all commands\n  Example: cmds\n")]

def cmdRef (arg : List UInt8) : List TerminalCall :=
  if arg.headD 0 = 0 then say (text "Usage: ref [cmd]\n")
  else
    match refTable.find? fun e => strcmp arg e.1 = 0 with
    | some e => say e.2
    | none => say (text "  " ++ str arg ++ text " -- see 'cmds' for a full list of commands.\n")

/-- The last branch of `shell_run`. -/
def unknownCommand (s : Shell) (cmd : List UInt8) : List TerminalCall :=
  [.setcolor .lightRed .black] ++ say (text "\nUnknown command: '" ++ str cmd ++ text "'\n") ++
    say (text "Type 'cmds' for a list of commands.\n") ++ [.setcolor s.textColor .black]

/-! ## The colour -/

/-- The colour `cmd_color` takes `arg` for. -/
def colorNamed (arg : List UInt8) : Option VgaColor :=
  if strcmp arg (text "red") = 0 then some .lightRed
  else if strcmp arg (text "green") = 0 then some .lightGreen
  else if strcmp arg (text "blue") = 0 then some .lightBlue
  else if strcmp arg (text "white") = 0 then some .white
  else if strcmp arg (text "yellow") = 0 then some .yellow
  else if strcmp arg (text "cyan") = 0 then some .lightCyan
  else none

def cmdColor (s : Shell) (arg : List UInt8) : Shown :=
  match colorNamed arg with
  | some c => ({ s with textColor := c }, [.setcolor c .black] ++ say (text "\nColor changed.\n"))
  | none => (s, say (text "\nUsage: color [red|green|blue|white|yellow|cyan]\n"))

/-! ## The state -/

/-- `timer_freq`, as `kernel_main` sets it. -/
def timerFreq : UInt32 := 100

def timerGetUptimeSeconds (ticks : UInt32) : UInt32 := ticks / timerFreq

/-- `%02d`. -/
def twoDigits (w : UInt32) : List UInt8 :=
  fieldBytes ((Field.d w).zeros true) false 2 (Field.d w).unpadded

/-- `%02d:%02d:%02d` of the hours, minutes and seconds. -/
def clock (secs : UInt32) : List UInt8 :=
  twoDigits (secs / 3600) ++ text ":" ++ twoDigits (secs % 3600 / 60) ++ text ":" ++
    twoDigits (secs % 60)

def cmdDate (ticks : UInt32) : List TerminalCall :=
  say (text "\nSystem Date: 2026-06-11 12:00:" ++ twoDigits (timerGetUptimeSeconds ticks % 60) ++
    text " UTC (Simulated)\n")

def cmdAlive (ticks : UInt32) : List TerminalCall :=
  say (text "\nUptime: " ++ clock (timerGetUptimeSeconds ticks) ++ text "\n")

/-- What `memory_print_stats` prints. -/
def heapStats (h : Heap) : List TerminalCall :=
  let (total, used, free) := memoryPrintStats h
  say (text "Heap total : " ++ decimal total ++ text " bytes\n") ++
    say (text "Heap used  : " ++ decimal used ++ text " bytes\n") ++
      say (text "Heap free  : " ++ decimal free ++ text " bytes\n")

def cmdMemo (h : Heap) : List TerminalCall := say (text "\n") ++ heapStats h

def cmdShowHistory (h : ShellHistory) : List TerminalCall :=
  say (text "\nCommand History:\n") ++ (List.finRange historyMax).flatMap fun i =>
    if i.val < h.historyCount then
      say (text "  [" ++ itoa (i.val + 1) ++ text "] " ++ str (h.shellHistory i).bytes ++ text "\n")
    else []

def fsGetTotalFiles (t : FsTable) : Nat := (List.finRange fsMaxFiles).countP fun i => (t i).used

def cmdSysinfo (s : Shell) (ticks : UInt32) (totalCommandsRun : Int) : List TerminalCall :=
  [.setcolor .lightCyan .black] ++ say (text "\n  ================================\n") ++
    say (text "  MiniOS v1.0 - by Ahmed Ali\n") ++
      say (text "  ================================\n") ++ [.setcolor s.textColor .black] ++
  say (text "  Files stored: " ++ itoa (fsGetTotalFiles s.table) ++ text "\n") ++
    say (text "  Uptime      : " ++ clock (timerGetUptimeSeconds ticks) ++ text "\n") ++
      say (text "  Commands run: " ++ itoa totalCommandsRun ++ text "\n") ++
  [.setcolor .lightCyan .black] ++ say (text "  ================================\n") ++
    [.setcolor s.textColor .black]

def cmdDisk (s : Shell) : List TerminalCall :=
  say (text "Filesystem: MiniFS v1\n") ++
    say (text "Total slots : " ++ itoa fsMaxFiles ++ text " files\n") ++
      say (text "Used slots  : " ++ itoa (fsGetTotalFiles s.table) ++ text " files\n") ++
        say (text "Free slots  : " ++ itoa (fsMaxFiles - fsGetTotalFiles s.table) ++
          text " files\n")

/-! ## The clock -/

/-- Zeros in front of a numeral do not change its value. -/
theorem numeralDigits_zeros (k : Nat) (ds : List UInt8) :
    numeralDigits 0 (List.replicate k (ch '0') ++ ds) = numeralDigits 0 ds := by
  induction k with
  | zero => rfl
  | succ k ih => exact ih

theorem twoDigits_eq {w : UInt32} (hlt : w.toNat < 2 ^ 31) :
    ∃ k, twoDigits w = List.replicate k (ch '0') ++ decimal w.toNat ∧
      (k : Int) + (decimal w.toNat).length = max 2 (decimal w.toNat).length := by
  have hint : i32 (w.toNat : Int) = w.toNat := i32_of_lt (by omega) (by omega)
  have hzeros : (Field.d w).zeros true = true := by
    show decide (i32 (w.toNat : Int) ≥ 0 ∧ true = true) = true
    rw [hint]
    simp
  have hunpadded : (Field.d w).unpadded = decimal w.toNat := by
    show itoa (i32 (w.toNat : Int)) = _
    rw [hint]
    exact itoa_natCast (by omega)
  have hlen : (decimal w.toNat).length ≤ 10 := decimal_length_le (by decide) (by omega)
  have hlen32 : i32 ((decimal w.toNat).length : Int) = (decimal w.toNat).length :=
    i32_of_lt (by omega) (by omega)
  refine ⟨(2 - (decimal w.toNat).length : Int).toNat, ?_, by omega⟩
  unfold twoDigits
  rw [hzeros, hunpadded]
  unfold fieldBytes
  rw [hlen32]
  exact List.append_nil _

/-- **`%02d`** of a number that is an `int`: its digits, and two at least. -/
theorem twoDigits_spec {w : UInt32} (hw : w.toNat < 2 ^ 31) :
    AllDigits (twoDigits w) ∧ numeralDigits 0 (twoDigits w) = w.toNat ∧
      (w < 100 → (twoDigits w).length = 2) := by
  obtain ⟨k, htext, hk⟩ := twoDigits_eq hw
  rw [htext]
  refine ⟨?_, ?_, ?_⟩
  · intro c hc
    rcases List.mem_append.mp hc with hc | hc
    · rw [List.eq_of_mem_replicate hc]
      decide
    · exact (isDigit_iff c).mpr (decimal_digits _ c hc)
  · rw [numeralDigits_zeros]
    have hvalue := numeralDigits_decimal w.toNat []
    rw [List.append_nil] at hvalue
    exact hvalue
  · intro h100
    have hlt : w.toNat < 100 := UInt32.lt_iff_toNat_lt.mp h100
    have hlen : (decimal w.toNat).length ≤ 2 := decimal_length_le (by decide) (by omega)
    rw [List.length_append, List.length_replicate]
    omega

/-- The conversion `%02d`. -/
def twoColumns : Conversion where
  leftJustify := false
  zeroPad := true
  width := [ch '2']
  digits := List.forall_mem_singleton.mpr (by decide)
  flagged := nofun
  fits := by decide

/-- A text without conversions. -/
def plainPieces (s : List UInt8) (hs : ∀ c ∈ s, c ≠ 0 ∧ c ≠ ch '%') : List Piece :=
  s.pmap Piece.char hs

theorem plainPieces_spec (s : List UInt8) (hs : ∀ c ∈ s, c ≠ 0 ∧ c ≠ ch '%') :
    (plainPieces s hs).flatMap Piece.spelled = s ∧ (plainPieces s hs).flatMap Piece.args = [] ∧
      (plainPieces s hs).flatMap Piece.bytes = s := by
  unfold plainPieces
  induction s with
  | nil => exact ⟨rfl, rfl, rfl⟩
  | cons c s ih =>
    obtain ⟨hspelled, hargs, hbytes⟩ := ih fun d hd => hs d (List.mem_cons_of_mem c hd)
    exact ⟨congrArg (c :: ·) hspelled, hargs, congrArg (c :: ·) hbytes⟩

/-- `cmdAlive` shows what `terminal_printf` makes of the format of `cmd_alive`. -/
theorem alive_printf (ticks : UInt32) :
    let secs := timerGetUptimeSeconds ticks
    ∃ calls, terminalPrintf (text "\nUptime: %02d:%02d:%02d\n" ++ [0])
        [.word (secs / 3600), .word (secs % 3600 / 60), .word (secs % 60)] = some (.ok calls) ∧
      printedText calls = text "\nUptime: " ++ clock secs ++ text "\n" := by
  intro secs
  have hhead : ∀ c ∈ text "\nUptime: ", c ≠ 0 ∧ c ≠ ch '%' := forall_of_all (by decide)
  have hcolon : ∀ c ∈ text ":", c ≠ 0 ∧ c ≠ ch '%' := forall_of_all (by decide)
  have hend : ∀ c ∈ text "\n", c ≠ 0 ∧ c ≠ ch '%' := forall_of_all (by decide)
  let field (w : UInt32) : List Piece := [.field twoColumns (.d w)]
  obtain ⟨calls, hcalls, hbytes⟩ := terminalPrintf_pieces (plainPieces _ hhead ++
    (field (secs / 3600) ++ (plainPieces _ hcolon ++ (field (secs % 3600 / 60) ++
      (plainPieces _ hcolon ++ (field (secs % 60) ++ plainPieces _ hend))))))
  obtain ⟨hhead₁, hhead₂, hhead₃⟩ := plainPieces_spec _ hhead
  obtain ⟨hcolon₁, hcolon₂, hcolon₃⟩ := plainPieces_spec _ hcolon
  obtain ⟨hend₁, hend₂, hend₃⟩ := plainPieces_spec _ hend
  simp only [List.flatMap_append, hhead₁, hhead₂, hhead₃, hcolon₁, hcolon₂, hcolon₃, hend₁, hend₂,
    hend₃] at hcalls hbytes
  have hfield : ∀ w, (field w).flatMap Piece.bytes = twoDigits w := fun w => List.append_nil _
  refine ⟨calls, hcalls, hbytes.trans ?_⟩
  unfold clock
  simp only [hfield, List.append_assoc]

/-- **The uptime** is read back from its clock: minutes and seconds of two digits, below 60. -/
theorem clock_reads (secs : UInt32) : ∃ h m s, clock secs = h ++ text ":" ++ m ++ text ":" ++ s ∧
    AllDigits h ∧ AllDigits m ∧ AllDigits s ∧ m.length = 2 ∧ s.length = 2 ∧
      numeralDigits 0 m < 60 ∧ numeralDigits 0 s < 60 ∧
        numeralDigits 0 h * 3600 + numeralDigits 0 m * 60 + numeralDigits 0 s = secs.toNat := by
  have hlt := secs.toNat_lt
  have hh : (secs / 3600).toNat = secs.toNat / 3600 := by
    simp only [UInt32.toNat_div, UInt32.reduceToNat]
  have hm : (secs % 3600 / 60).toNat = secs.toNat % 3600 / 60 := by
    simp only [UInt32.toNat_div, UInt32.toNat_mod, UInt32.reduceToNat]
  have hs : (secs % 60).toNat = secs.toNat % 60 := by
    simp only [UInt32.toNat_mod, UInt32.reduceToNat]
  have htwo : ∀ {w : UInt32} {k : Nat}, w.toNat = k → k < 60 → w < 100 := by
    intro w k hw hk
    rw [UInt32.lt_iff_toNat_lt, hw]
    exact Nat.lt_trans hk (by decide)
  obtain ⟨hdigits, hvalue, _⟩ := twoDigits_spec (w := secs / 3600) (by rw [hh]; omega)
  obtain ⟨mdigits, mvalue, mlen⟩ := twoDigits_spec (w := secs % 3600 / 60) (by rw [hm]; omega)
  obtain ⟨sdigits, svalue, slen⟩ := twoDigits_spec (w := secs % 60) (by rw [hs]; omega)
  refine ⟨_, _, _, rfl, hdigits, mdigits, sdigits, mlen (htwo hm (by omega)),
    slen (htwo hs (by omega)), ?_, ?_, ?_⟩
  · rw [mvalue, hm]
    omega
  · rw [svalue, hs]
    omega
  · rw [hvalue, mvalue, svalue, hh, hm, hs]
    omega

/-! ## The slots -/

/-- `fs_get_total_files` counts the names of the map. -/
theorem fsGetTotalFiles_eq {t : FsTable} (h : TableInv t) :
    fsGetTotalFiles t = (fsMap t).keys.card := by
  have hused : ∀ i, (t i).used = (fsView t i).isSome := by
    intro i
    unfold fsView entryView
    cases (t i).used
    · rfl
    · rfl
  unfold fsGetTotalFiles fsMap
  have hcard : (Finset.univ.filter fun i => (fsView t i).isSome = true).card =
      ((List.finRange fsMaxFiles).filter fun i => decide ((fsView t i).isSome = true)).length := rfl
  rw [SlotTable.card_toMap h.slots, hcard, List.countP_eq_length_filter]
  simp only [hused, Bool.decide_eq_true]

theorem fsGetTotalFiles_le (t : FsTable) : fsGetTotalFiles t ≤ fsMaxFiles := by
  have hle := (List.finRange fsMaxFiles).countP_le_length (p := fun i => (t i).used)
  rw [List.length_finRange] at hle
  exact hle

/-- Files can be created under all the names, one after the other. -/
def CreatesAll (t : FsTable) : List (List UInt8) → Prop
  | [] => True
  | name :: names => ∃ r, fsCreate t name = some r ∧ r.ret = 0 ∧ CreatesAll r.table names

/-- Names of 1 to 63 characters that are all different and not taken. -/
structure FreshNames (m : FsMap) (names : List (List UInt8)) : Prop where
  nodup : (names.map str).Nodup
  fresh : ∀ name ∈ names, str name ∉ m
  fits : ∀ name ∈ names, 0 < (str name).length ∧ (str name).length < fsMaxFilename

theorem card_keys_insert {m : FsMap} {name : List UInt8} (hname : name ∉ m) (v : Node) :
    (m.insert name v).keys.card = m.keys.card + 1 := by
  have hkeys : (m.insert name v).keys = insert name m.keys := by
    ext p
    rw [Finmap.mem_keys, Finmap.mem_insert, Finset.mem_insert, Finmap.mem_keys]
  rw [hkeys, Finset.card_insert_of_notMem (mt Finmap.mem_keys.mp hname)]

theorem FreshNames.tail {m m' : FsMap} {name : List UInt8} {names : List (List UInt8)} {v : Node}
    (hn : FreshNames m (name :: names)) (hm : m' = m.insert (str name) v) :
    FreshNames m' names := by
  obtain ⟨hnot, hnodup⟩ := List.nodup_cons.mp hn.nodup
  refine ⟨hnodup, ?_, fun n hmem => hn.fits n (List.mem_cons_of_mem name hmem)⟩
  intro n hmem
  rw [hm, Finmap.mem_insert]
  rintro (heq | hold)
  · exact hnot (heq ▸ List.mem_map_of_mem hmem)
  · exact hn.fresh n (List.mem_cons_of_mem name hmem) hold

theorem createsAll_iff {t : FsTable} (h : TableInv t) {names : List (List UInt8)}
    (hn : FreshNames (fsMap t) names) :
    CreatesAll t names ↔ names.length ≤ fsMaxFiles - (fsMap t).keys.card := by
  induction names generalizing t with
  | nil => exact iff_of_true trivial (Nat.zero_le _)
  | cons name names ih =>
    obtain ⟨r, hr, hinv, hcase⟩ := fsCreate_spec h name
    obtain ⟨hfits, _⟩ := List.forall_mem_cons.mp hn.fits
    obtain ⟨hfresh, _⟩ := List.forall_mem_cons.mp hn.fresh
    have hcreatable : Creatable (fsMap t) (str name) ↔ (fsMap t).keys.card < fsMaxFiles :=
      ⟨fun hc => hc.2.2.2, fun hc => ⟨hfits.1, hfits.2, hfresh, hc⟩⟩
    rcases hcase with ⟨hc, hret, hmap⟩ | ⟨hc, hret, _⟩
    · have hroom := hcreatable.mp hc
      have hcons : CreatesAll t (name :: names) ↔ CreatesAll r.table names := by
        refine ⟨?_, fun hall => ⟨r, hr, hret, hall⟩⟩
        rintro ⟨r', hr', _, hall⟩
        rw [hr] at hr'
        cases hr'
        exact hall
      rw [hcons, ih hinv (hn.tail hmap), hmap, card_keys_insert hfresh, List.length_cons]
      omega
    · have hfull : ¬ CreatesAll t (name :: names) := by
        rintro ⟨r', hr', hret', _⟩
        rw [hr] at hr'
        cases hr'
        rw [hret] at hret'
        cases hret'
      have hno : ¬ (fsMap t).keys.card < fsMaxFiles := mt hcreatable.mpr hc
      refine iff_of_false hfull ?_
      rw [List.length_cons]
      omega

/-- **`disk`** counts right: files can be created under further names exactly as long as there are
free slots for them. -/
theorem disk_slots {s : Shell} (h : shellMachine.Reach s) {names : List (List UInt8)}
    (hn : FreshNames (fsMap s.table) names) :
    ∃ used free : Nat, used + free = 32 ∧ used = (fsMap s.table).keys.card ∧
      printedText (cmdDisk s) = text "Filesystem: MiniFS v1\nTotal slots : 32 files\nUsed slots  : " ++
        decimal used ++ text " files\nFree slots  : " ++ decimal free ++ text " files\n" ∧
      (CreatesAll s.table names ↔ names.length ≤ free) := by
  have hinv := (shell_reach_inv h).table
  have hused := fsGetTotalFiles_eq hinv
  have hle := fsGetTotalFiles_le s.table
  refine ⟨fsGetTotalFiles s.table, fsMaxFiles - fsGetTotalFiles s.table, ?_, hused, ?_, ?_⟩
  · exact Nat.add_sub_cancel' hle
  · have hsub : (fsMaxFiles : Int) - (fsGetTotalFiles s.table : Int) =
        (fsMaxFiles - fsGetTotalFiles s.table : Nat) := by omega
    have h32 : fsGetTotalFiles s.table < 2 ^ 32 := Nat.lt_of_le_of_lt hle (by decide)
    unfold cmdDisk
    rw [hsub, itoa_natCast h32, itoa_natCast (Nat.lt_of_le_of_lt (Nat.sub_le _ _) (by decide))]
    simp only [printedText_append]
    rw [printedText_say (by decide), printedText_say (by decide +kernel),
      printedText_say (zero_notMem_count (by decide) (by decide)),
      printedText_say (zero_notMem_count (by decide) (by decide))]
    have hhead : text "Filesystem: MiniFS v1\n" ++ text "Total slots : " ++ itoa fsMaxFiles ++
        text " files\n" ++ text "Used slots  : " =
          text "Filesystem: MiniFS v1\nTotal slots : 32 files\nUsed slots  : " := by decide +kernel
    have hmid : text " files\n" ++ text "Free slots  : " = text " files\nFree slots  : " := by decide
    simp only [← List.append_assoc]
    rw [hhead, List.append_assoc _ (text " files\n") (text "Free slots  : "), hmid]
  · rw [hused]
    exact createsAll_iff hinv hn

theorem disk_slots_boot : ∃ s, shellMachine.Reach s ∧ CreatesAll s.table [text "/a", text "/b"] := by
  obtain ⟨s, hs, _, hmap⟩ := boot_reach
  have hfresh : FreshNames (fsMap s.table) [text "/a", text "/b"] := by
    rw [hmap]
    refine ⟨by decide, by decide, by decide⟩
  obtain ⟨used, free, hsum, hused, _, hall⟩ := disk_slots hs hfresh
  rw [hmap] at hused
  have hone : used = 1 := hused
  refine ⟨s, hs, hall.mpr ?_⟩
  show 2 ≤ free
  omega

end MiniOS
