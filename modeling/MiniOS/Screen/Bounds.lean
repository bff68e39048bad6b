import MiniOS.Screen.Scrollback

/-!
# The indices of the screen driver

Nothing in the driver checks an index into `vga_buf`, `history_buf` or
`live_snapshot`.  `TerminalCall.uses` lists the indices a call uses, branch by
branch and loop by loop; `redraw_scroll` reads where `redrawSource` says, and every
cell that a call changes is among them (`run_within`).  With the cursor inside the grid, the ring's head inside the ring
and the view at most as many rows back as were kept, they are all inside the
buffers (`uses_inBounds`).

`terminal_scroll_down` does not compare `view_scroll` with the rows kept, so
this is about amounts that are not negative.
-/

namespace MiniOS

open Lib

/-- Inside of the VGA memory, `history_buf[200][80]` or `live_snapshot[25][80]`. -/
def Access.InBounds : Access → Prop
  | .vga i => i < vgaRowsMax * vgaCols
  | .history row col => 0 ≤ row ∧ row < historyLines ∧ col < vgaCols
  | .snapshot row col => 0 ≤ row ∧ row < vgaRowsMax ∧ col < vgaCols

/-! ## The indices a call uses -/

/-- Two nested loops over `rows` rows of 80 columns. -/
def gridUses (rows : Nat) (f : Nat → Nat → List Access) : List Access :=
  (List.range rows).flatMap fun r => (List.range vgaCols).flatMap fun c => f r c

def saveHistoryUses (historyHead : Nat) : List Access :=
  (List.range vgaCols).flatMap fun c => [.vga c, .history historyHead c]

def redrawUses (historyHead : Nat) (viewScroll : Int) : List Access :=
  gridUses vgaRows fun r c => [redrawSource historyHead viewScroll r c, .vga (r * vgaCols + c)]

def scrollUpUses (t : Terminal) (lines : Int) : List Access :=
  let snapshot := gridUses vgaRows fun r c => [.vga (r * vgaCols + c), .snapshot r c]
  let viewScroll := i32 (t.viewScroll + lines)
  let viewScroll := if viewScroll > t.historyCount then (t.historyCount : Int) else viewScroll
  (if t.viewScroll = 0 then snapshot else []) ++
    if viewScroll > 0 then redrawUses t.historyHead viewScroll else []

def scrollDownUses (t : Terminal) (lines : Int) : List Access :=
  if t.viewScroll > 0 then
    let viewScroll := i32 (t.viewScroll - lines)
    redrawUses t.historyHead (if viewScroll < 0 then 0 else viewScroll)
  else []

def scrollUses (historyHead : Nat) : List Access :=
  saveHistoryUses historyHead ++
    gridUses (vgaRows - 1) (fun r c => [.vga ((r + 1) * vgaCols + c), .vga (r * vgaCols + c)]) ++
    (List.range vgaCols).map fun c => .vga ((vgaRows - 1) * vgaCols + c)

def leaveUses (t : Terminal) : List Access :=
  if t.viewScroll > 0 then redrawUses t.historyHead 0 else []

def clearUses (t : Terminal) : List Access :=
  leaveUses t ++ (List.range (vgaRowsMax * vgaCols)).map .vga

/-- `vga_buf[term_row * VGA_COLS + term_col]`. -/
def cursorUses (t : Terminal) : List Access := [.vga (t.termRow * vgaCols + t.termCol)]

def nextLineUses (t : Terminal) : List Access :=
  if t.termRow + 1 ≥ vgaRows then scrollUses t.historyHead else []

def putPrintableUses (t : Terminal) : List Access :=
  cursorUses t ++ if t.termCol + 1 ≥ vgaCols then nextLineUses t else []

def putBackspaceUses (t : Terminal) : List Access :=
  if t.termCol > 0 then cursorUses { t with termCol := t.termCol - 1 }
  else if t.termRow > 0 then cursorUses { t with termRow := t.termRow - 1, termCol := vgaCols - 1 }
  else cursorUses t

/-- The rounds of the tab loop. -/
def tabUses (nextTab : Nat) : Nat → Terminal → List Access
  | 0, _ => []
  | fuel + 1, t =>
    if t.termCol < nextTab then
      leaveUses t ++ putPrintableUses (leaveScrollback t) ++
        tabUses nextTab fuel (putPrintable (leaveScrollback t) (ch ' '))
    else []

def putcharUses (fuel : Nat) (t : Terminal) (c : UInt8) : List Access :=
  leaveUses t ++
    let t := leaveScrollback t
    if c = ch '\n' then nextLineUses t
    else if c = ch '\r' then []
    else if c = 8 then putBackspaceUses t
    else if c = ch '\t' then tabUses (nextTab t.termCol) fuel t
    else putPrintableUses t

def writeUses (fuel : Nat) (t : Terminal) : List UInt8 → List Access
  | [] => []
  | c :: data => putcharUses fuel t c ++
      match terminalPutchar fuel t c with
      | some t => writeUses fuel t data
      | none => []

def TerminalCall.uses (fuel : Nat) (t : Terminal) : TerminalCall → List Access
  | .init => clearUses { t with termColor := makeColor .lightGrey .black, termRow := 0, termCol := 0 }
  | .clear => clearUses t
  | .setcolor _ _ | .setcursor _ _ => []
  | .putchar c => putcharUses fuel t c
  | .write data => writeUses fuel t data
  | .writestring s => writeUses fuel t (str s)
  | .writecolor s fg bg => writeUses fuel { t with termColor := makeColor fg bg } (str s)
  | .scrollUp lines => scrollUpUses t lines
  | .scrollDown lines => scrollDownUses t lines

theorem mem_gridUses {rows : Nat} {f : Nat → Nat → List Access} {a : Access} :
    a ∈ gridUses rows f ↔ ∃ r < rows, ∃ c < vgaCols, a ∈ f r c := by
  unfold gridUses
  simp only [List.mem_flatMap, List.mem_range]

/-! ## What a call changes -/

/-- Every cell that differs is in the list. -/
structure Within (uses : List Access) (t t' : Terminal) : Prop where
  vga : ∀ i, .vga i ∉ uses → t'.vgaBuf i = t.vgaBuf i
  history : ∀ r c, .history r c ∉ uses → t'.historyBuf r c = t.historyBuf r c
  snapshot : ∀ r c, .snapshot r c ∉ uses → t'.liveSnapshot r c = t.liveSnapshot r c

variable {t t' t₁ : Terminal} {us vs : List Access}

/-- Other fields do not matter. -/
theorem Within.of_same (h : Within us t₁ t') (hv : t₁.vgaBuf = t.vgaBuf)
    (hh : t₁.historyBuf = t.historyBuf) (hs : t₁.liveSnapshot = t.liveSnapshot) :
    Within us t t' :=
  ⟨fun i hi => by rw [h.vga i hi, hv], fun r c hi => by rw [h.history r c hi, hh],
    fun r c hi => by rw [h.snapshot r c hi, hs]⟩

theorem Within.refl (us : List Access) (t : Terminal) : Within us t t :=
  ⟨fun _ _ => rfl, fun _ _ _ => rfl, fun _ _ _ => rfl⟩

theorem Within.append (h : Within us t t₁) (h' : Within vs t₁ t') : Within (us ++ vs) t t' := by
  refine ⟨fun i hi => ?_, fun r c hi => ?_, fun r c hi => ?_⟩
  · obtain ⟨h1, h2⟩ := not_or.mp (fun hm => hi (List.mem_append.mpr hm))
    rw [h'.vga i h2, h.vga i h1]
  · obtain ⟨h1, h2⟩ := not_or.mp (fun hm => hi (List.mem_append.mpr hm))
    rw [h'.history r c h2, h.history r c h1]
  · obtain ⟨h1, h2⟩ := not_or.mp (fun hm => hi (List.mem_append.mpr hm))
    rw [h'.snapshot r c h2, h.snapshot r c h1]

/-- A cell of the grid, by its row and column. -/
theorem vga_mem_gridUses {rows : Nat} {f : Nat → Nat → List Access} {i : Nat}
    (hi : i < rows * vgaCols) (hf : .vga i ∈ f (i / vgaCols) (i % vgaCols)) :
    .vga i ∈ gridUses rows f :=
  mem_gridUses.mpr ⟨_, Nat.div_lt_of_lt_mul (by rwa [Nat.mul_comm]), _,
    Nat.mod_lt _ (by decide), hf⟩

/-- The three buffers are the same. -/
theorem Within.of_eq (us : List Access) (hv : t'.vgaBuf = t.vgaBuf)
    (hh : t'.historyBuf = t.historyBuf) (hs : t'.liveSnapshot = t.liveSnapshot) : Within us t t' :=
  ⟨fun _ _ => by rw [hv], fun _ _ _ => by rw [hh], fun _ _ _ => by rw [hs]⟩

theorem redraw_within (t : Terminal) :
    Within (redrawUses t.historyHead t.viewScroll) t (redrawScroll t) := by
  refine ⟨fun i hi => ?_, fun _ _ _ => rfl, fun _ _ _ => rfl⟩
  show (if i < vgaRows * vgaCols then _ else t.vgaBuf i) = _
  rw [if_neg]
  intro hlt
  refine hi (vga_mem_gridUses hlt (List.mem_cons_of_mem _ (List.mem_singleton.mpr ?_)))
  rw [Nat.div_add_mod']

theorem redraw_from {head : Nat} {view : Int} (hv : t₁.vgaBuf = t.vgaBuf)
    (hh : t₁.historyBuf = t.historyBuf) (hs : t₁.liveSnapshot = t.liveSnapshot)
    (hhead : t₁.historyHead = head) (hview : t₁.viewScroll = view) :
    Within (redrawUses head view) t (redrawScroll t₁) := by
  rw [← hhead, ← hview]
  exact (redraw_within t₁).of_same hv hh hs

theorem leave_within (t : Terminal) : Within (leaveUses t) t (leaveScrollback t) := by
  unfold leaveUses leaveScrollback
  split
  · exact redraw_from rfl rfl rfl rfl rfl
  · exact Within.refl _ t

theorem takeSnapshot_within (t : Terminal) :
    Within (if t.viewScroll = 0 then
      gridUses vgaRows fun r c => [.vga (r * vgaCols + c), .snapshot r c] else []) t
      (takeSnapshot t) := by
  unfold takeSnapshot
  split
  · refine ⟨fun _ _ => rfl, fun _ _ _ => rfl, fun r c hi => ?_⟩
    show (if 0 ≤ r ∧ r < vgaRows ∧ c < vgaCols then _ else t.liveSnapshot r c) = _
    rw [if_neg]
    rintro ⟨h0, hr, hc⟩
    refine hi (mem_gridUses.mpr ⟨r.toNat, by omega, c, hc, List.mem_cons_of_mem _ ?_⟩)
    rw [Int.toNat_of_nonneg h0]
    exact List.mem_singleton.mpr rfl
  · exact Within.refl _ t

theorem scrollUp_within (t : Terminal) (lines : Int) :
    Within (scrollUpUses t lines) t (terminalScrollUp t lines) := by
  obtain ⟨_, _, _, _, hview, hcount, hhead, _⟩ := takeSnapshot_fields t
  rw [terminalScrollUp_eq]
  unfold scrollUpUses
  refine (takeSnapshot_within t).append ?_
  rw [← hhead]
  simp only [hview, hcount]
  by_cases hclamp : i32 (t.viewScroll + lines) > t.historyCount
  · simp only [if_pos hclamp]
    split
    · exact redraw_from rfl rfl rfl rfl rfl
    · exact Within.of_eq _ rfl rfl rfl
  · simp only [if_neg hclamp]
    split
    · exact redraw_from rfl rfl rfl rfl rfl
    · exact Within.of_eq _ rfl rfl rfl

theorem scrollDown_within (t : Terminal) (lines : Int) :
    Within (scrollDownUses t lines) t (terminalScrollDown t lines) := by
  unfold scrollDownUses terminalScrollDown
  split
  · simp only
    split
    · exact redraw_from rfl rfl rfl rfl rfl
    · exact redraw_from rfl rfl rfl rfl rfl
  · exact Within.refl _ t

theorem scroll_within (t : Terminal) : Within (scrollUses t.historyHead) t (scroll t) := by
  have hrows : (vgaRows - 1) * vgaCols + vgaCols = vgaRows * vgaCols := rfl
  unfold scrollUses
  refine ⟨fun i hi => ?_, fun r c hi => ?_, fun _ _ _ => rfl⟩
  · simp only [List.mem_append, not_or] at hi
    obtain ⟨⟨_, hmove⟩, hblank⟩ := hi
    show (if i < (vgaRows - 1) * vgaCols then _ else
      if i < vgaRows * vgaCols then _ else t.vgaBuf i) = _
    have h1 : ¬ i < (vgaRows - 1) * vgaCols := by
      intro hlt
      refine hmove (vga_mem_gridUses hlt (List.mem_cons_of_mem _ (List.mem_singleton.mpr ?_)))
      rw [Nat.div_add_mod']
    rw [if_neg h1, if_neg]
    intro hlt
    refine hblank (List.mem_map.mpr ⟨i - (vgaRows - 1) * vgaCols, List.mem_range.mpr ?_, ?_⟩)
    · omega
    · rw [Nat.add_sub_cancel' (Nat.le_of_not_lt h1)]
  · simp only [List.mem_append, not_or] at hi
    show (if r = t.historyHead ∧ c < vgaCols then _ else t.historyBuf r c) = _
    rw [if_neg]
    rintro ⟨rfl, hc⟩
    refine hi.1.1 (List.mem_flatMap.mpr ⟨c, List.mem_range.mpr hc, List.mem_cons_of_mem _ ?_⟩)
    exact List.mem_singleton.mpr rfl

theorem nextLine_within (t : Terminal) : Within (nextLineUses t) t (nextLine t) := by
  unfold nextLineUses nextLine
  simp only
  split
  · exact (scroll_within { t with termCol := 0, termRow := t.termRow + 1 }).of_same rfl rfl rfl
  · exact Within.of_eq _ rfl rfl rfl

theorem putCell_within (t : Terminal) (c : UInt8) : Within (cursorUses t) t (putCell t c) := by
  refine ⟨fun i hi => ?_, fun _ _ _ => rfl, fun _ _ _ => rfl⟩
  apply Function.update_of_ne
  rintro rfl
  exact hi (List.mem_singleton.mpr rfl)

theorem putPrintable_within (t : Terminal) (c : UInt8) :
    Within (putPrintableUses t) t (putPrintable t c) := by
  unfold putPrintableUses putPrintable
  refine (putCell_within t c).append ?_
  simp only
  show Within (if t.termCol + 1 ≥ vgaCols then _ else _) _
    (if t.termCol + 1 ≥ vgaCols then _ else _)
  split
  · exact (nextLine_within { putCell t c with termCol := t.termCol + 1 }).of_same rfl rfl rfl
  · exact Within.of_eq _ rfl rfl rfl

theorem putBackspace_within (t : Terminal) : Within (putBackspaceUses t) t (putBackspace t) := by
  unfold putBackspaceUses putBackspace
  simp only
  split
  · exact (putCell_within { t with termCol := t.termCol - 1 } _).of_same rfl rfl rfl
  · split
    · exact (putCell_within { t with termRow := t.termRow - 1, termCol := vgaCols - 1 } _).of_same
        rfl rfl rfl
    · exact putCell_within t _

theorem tabLoop_within {n fuel : Nat} (h : loop (tabBody n) fuel t = some t') :
    Within (tabUses n fuel t) t t' := by
  induction fuel generalizing t with
  | zero => cases h
  | succ fuel ih =>
    unfold tabUses
    by_cases hn : t.termCol < n
    · rw [loop_next (show tabBody n t = .inl _ from if_pos hn)] at h
      rw [if_pos hn]
      exact ((leave_within t).append (putPrintable_within _ _)).append (ih h)
    · rw [loop_done (show tabBody n t = .inr t from if_neg hn)] at h
      cases h
      exact Within.refl _ _

theorem putchar_within {fuel : Nat} {c : UInt8} (h : terminalPutchar fuel t c = some t') :
    Within (putcharUses fuel t c) t t' := by
  unfold putcharUses
  refine (leave_within t).append ?_
  unfold terminalPutchar at h
  by_cases hn : c = ch '\n'
  · simp only [if_pos hn] at h ⊢
    cases h
    exact nextLine_within _
  by_cases hr : c = ch '\r'
  · simp only [if_neg hn, if_pos hr] at h ⊢
    cases h
    exact Within.of_eq _ rfl rfl rfl
  by_cases hb : c = 8
  · simp only [if_neg hn, if_neg hr, if_pos hb] at h ⊢
    cases h
    exact putBackspace_within _
  by_cases ht : c = ch '\t'
  · simp only [if_neg hn, if_neg hr, if_neg hb, if_pos ht] at h ⊢
    exact tabLoop_within h
  · simp only [if_neg hn, if_neg hr, if_neg hb, if_neg ht] at h ⊢
    cases h
    exact putPrintable_within _ _

theorem write_within {fuel : Nat} {data : List UInt8} (h : terminalWrite fuel t data = some t') :
    Within (writeUses fuel t data) t t' := by
  induction data generalizing t with
  | nil =>
    cases h
    exact Within.refl _ _
  | cons c data ih =>
    rw [terminalWrite, Option.bind_eq_bind, Option.bind_eq_some_iff] at h
    obtain ⟨t₁, h1, h2⟩ := h
    unfold writeUses
    simp only [h1]
    exact (putchar_within h1).append (ih h2)

theorem clear_within (t : Terminal) : Within (clearUses t) t (terminalClear t) := by
  unfold clearUses terminalClear
  refine (leave_within t).append ⟨fun i hi => ?_, fun _ _ _ => rfl, fun _ _ _ => rfl⟩
  show (if i < vgaRowsMax * vgaCols then _ else (leaveScrollback t).vgaBuf i) = _
  rw [if_neg]
  intro hlt
  exact hi (List.mem_map.mpr ⟨i, List.mem_range.mpr hlt, rfl⟩)

/-- **What a call changes** is among what it uses. -/
theorem run_within {fuel : Nat} {call : TerminalCall} (h : call.run fuel t = some t') :
    Within (call.uses fuel t) t t' := by
  cases call with
  | init =>
    cases h
    have := clear_within
      { t with termColor := makeColor .lightGrey .black, termRow := 0, termCol := 0 }
    exact ⟨this.vga, this.history, this.snapshot⟩
  | clear =>
    cases h
    exact clear_within t
  | setcolor fg bg =>
    cases h
    exact Within.of_eq _ rfl rfl rfl
  | putchar c => exact putchar_within h
  | write data => exact write_within h
  | writestring s =>
    simp only [TerminalCall.run, writestring_eq_write] at h
    exact write_within h
  | writecolor s fg bg =>
    simp only [TerminalCall.run, terminalWritecolor, writestring_eq_write, Option.bind_eq_bind,
      Option.bind_eq_some_iff] at h
    obtain ⟨t₁, h1, h2⟩ := h
    cases h2
    have := write_within h1
    exact ⟨this.vga, this.history, this.snapshot⟩
  | setcursor row col =>
    cases h
    unfold TerminalCall.uses terminalSetcursor
    simp only
    split
    · split
      · exact Within.of_eq _ rfl rfl rfl
      · exact Within.of_eq _ rfl rfl rfl
    · split
      · exact Within.of_eq _ rfl rfl rfl
      · exact Within.of_eq _ rfl rfl rfl
  | scrollUp lines =>
    cases h
    exact scrollUp_within t lines
  | scrollDown lines =>
    cases h
    exact scrollDown_within t lines

/-! ## The ring and the view -/

/-- A property of the ring and the view that drawing keeps. -/
structure Kept (P : Terminal → Prop) : Prop where
  same : ∀ t t', P t → t'.historyBuf = t.historyBuf → t'.historyHead = t.historyHead →
    t'.historyCount = t.historyCount → t'.viewScroll = t.viewScroll → P t'
  leave : ∀ t, P t → P (leaveScrollback t)
  scroll : ∀ t, P t → P (scroll t)

section

variable {P : Terminal → Prop} (hP : Kept P)
include hP

theorem Kept.line (h : P t) : P (nextLine t) := by
  have hmoved : P { t with termCol := 0, termRow := t.termRow + 1 } := hP.same t _ h rfl rfl rfl rfl
  unfold nextLine
  simp only
  split
  · exact hP.scroll _ hmoved
  · exact hmoved

theorem Kept.put (h : P t) (c : UInt8) : P (putPrintable t c) := by
  have hcell : P { putCell t c with termCol := t.termCol + 1 } := hP.same t _ h rfl rfl rfl rfl
  unfold putPrintable
  simp only
  split
  · exact hP.line hcell
  · exact hcell

theorem Kept.back (h : P t) : P (putBackspace t) := by
  unfold putBackspace
  simp only
  split
  · exact hP.same t _ h rfl rfl rfl rfl
  · split
    · exact hP.same t _ h rfl rfl rfl rfl
    · exact hP.same t _ h rfl rfl rfl rfl

theorem Kept.tabLoop {n fuel : Nat} (h : P t) (hr : loop (tabBody n) fuel t = some t') : P t' := by
  induction fuel generalizing t with
  | zero => cases hr
  | succ fuel ih =>
    by_cases hn : t.termCol < n
    · rw [loop_next (show tabBody n t = .inl _ from if_pos hn)] at hr
      exact ih (hP.put (hP.leave _ h) _) hr
    · rw [loop_done (show tabBody n t = .inr t from if_neg hn)] at hr
      cases hr
      exact h

theorem Kept.putchar {fuel : Nat} {c : UInt8} (h : P t)
    (hr : terminalPutchar fuel t c = some t') : P t' := by
  have hl := hP.leave t h
  unfold terminalPutchar at hr
  simp only at hr
  split at hr
  · cases hr
    exact hP.line hl
  split at hr
  · cases hr
    exact hP.same _ _ hl rfl rfl rfl rfl
  split at hr
  · cases hr
    exact hP.back hl
  split at hr
  · exact hP.tabLoop hl hr
  · cases hr
    exact hP.put hl _

theorem Kept.write {fuel : Nat} {data : List UInt8} (h : P t)
    (hr : terminalWrite fuel t data = some t') : P t' :=
  write_keeps (fun _ _ _ => hP.putchar) h hr

/-- A call keeps it, if the amounts that it scrolls the view by do. -/
theorem Kept.run {fuel : Nat} {call : TerminalCall} (h : P t)
    (hup : ∀ lines, call = .scrollUp lines → P (terminalScrollUp t lines))
    (hdown : ∀ lines, call = .scrollDown lines → P (terminalScrollDown t lines))
    (hr : call.run fuel t = some t') : P t' := by
  cases call with
  | init =>
    cases hr
    have hinit : P { t with termColor := makeColor .lightGrey .black, termRow := 0, termCol := 0 } :=
      hP.same t _ h rfl rfl rfl rfl
    exact hP.same _ _ (hP.leave _ hinit) rfl rfl rfl rfl
  | clear =>
    cases hr
    exact hP.same _ _ (hP.leave _ h) rfl rfl rfl rfl
  | setcolor fg bg =>
    cases hr
    exact hP.same t _ h rfl rfl rfl rfl
  | putchar c => exact hP.putchar h hr
  | write data => exact hP.write h hr
  | writestring s =>
    simp only [TerminalCall.run, writestring_eq_write] at hr
    exact hP.write h hr
  | writecolor s fg bg =>
    simp only [TerminalCall.run, terminalWritecolor, writestring_eq_write, Option.bind_eq_bind,
      Option.bind_eq_some_iff] at hr
    obtain ⟨t₁, h1, h2⟩ := hr
    cases h2
    have hcolor : P { t with termColor := makeColor fg bg } := hP.same t _ h rfl rfl rfl rfl
    exact hP.same t₁ _ (hP.write hcolor h1) rfl rfl rfl rfl
  | setcursor row col =>
    cases hr
    unfold terminalSetcursor
    simp only
    split
    · split
      · exact hP.same t _ h rfl rfl rfl rfl
      · exact hP.same t _ h rfl rfl rfl rfl
    · split
      · exact hP.same t _ h rfl rfl rfl rfl
      · exact h
  | scrollUp lines =>
    cases hr
    exact hup lines rfl
  | scrollDown lines =>
    cases hr
    exact hdown lines rfl

end

/-- The head is in the ring, and the view not above the rows kept. -/
structure RingInv (t : Terminal) : Prop where
  head_lt : t.historyHead < historyLines
  count_le : t.historyCount ≤ historyLines
  view_le : t.viewScroll ≤ t.historyCount

theorem RingInv.of_same (h : RingInv t) (hhead : t'.historyHead = t.historyHead)
    (hcount : t'.historyCount = t.historyCount) (hview : t'.viewScroll = t.viewScroll) :
    RingInv t' :=
  ⟨by rw [hhead]; exact h.head_lt, by rw [hcount]; exact h.count_le,
    by rw [hcount, hview]; exact h.view_le⟩

theorem scroll_ring (h : RingInv t) : RingInv (scroll t) := by
  obtain ⟨_, hcount, hview⟩ := h
  refine ⟨Nat.mod_lt _ (by decide), ?_, ?_⟩
  · show (if t.historyCount < historyLines then t.historyCount + 1 else t.historyCount) ≤ _
    split
    · omega
    · exact hcount
  · show t.viewScroll ≤ ((if t.historyCount < historyLines then t.historyCount + 1
      else t.historyCount : Nat) : Int)
    split
    · omega
    · exact hview

theorem ringInv_kept : Kept RingInv where
  same t t' h _ hhead hcount hview := h.of_same hhead hcount hview
  leave t h := by
    unfold leaveScrollback
    split
    · exact ⟨h.head_lt, h.count_le, Int.natCast_nonneg _⟩
    · exact h
  scroll t h := scroll_ring h

theorem scrollUp_ring (h : RingInv t) (lines : Int) : RingInv (terminalScrollUp t lines) := by
  obtain ⟨_, _, _, _, hview, hcount, hhead, _⟩ := takeSnapshot_fields t
  rw [terminalScrollUp_eq]
  simp only [hview, hcount]
  have hclamped : ∀ {s : Terminal}, s.historyHead = t.historyHead →
      s.historyCount = t.historyCount → s.viewScroll ≤ t.historyCount → RingInv s := by
    intro s hs hc hv
    exact ⟨by rw [hs]; exact h.head_lt, by rw [hc]; exact h.count_le, by rw [hc]; exact hv⟩
  by_cases hc : i32 (t.viewScroll + lines) > t.historyCount
  · simp only [if_pos hc]
    split
    · exact hclamped hhead rfl (Int.le_refl _)
    · exact hclamped hhead rfl (Int.le_refl _)
  · simp only [if_neg hc]
    split
    · exact hclamped hhead rfl (Int.not_lt.mp hc)
    · exact hclamped hhead rfl (Int.not_lt.mp hc)

/-- The amount `terminal_scroll_down` takes off the view leaves it an `int`. -/
theorem scrollDown_view (h : RingInv t) {lines : Int} (h0 : 0 ≤ lines) (hint : lines < 2 ^ 31)
    (hv : t.viewScroll > 0) : i32 (t.viewScroll - lines) = t.viewScroll - lines := by
  have := h.view_le
  have := h.count_le
  have : historyLines = 200 := rfl
  exact i32_of_lt (by omega) (by omega)

theorem scrollDown_ring (h : RingInv t) {lines : Int} (h0 : 0 ≤ lines) (hint : lines < 2 ^ 31) :
    RingInv (terminalScrollDown t lines) := by
  have hle := h.view_le
  unfold terminalScrollDown
  split
  · simp only [scrollDown_view h h0 hint (by assumption)]
    refine RingInv.of_same (t := if t.viewScroll - lines < 0 then { t with viewScroll := 0 }
      else { t with viewScroll := t.viewScroll - lines }) ?_ rfl rfl rfl
    split
    · exact ⟨h.head_lt, h.count_le, Int.natCast_nonneg _⟩
    · exact ⟨h.head_lt, h.count_le, show t.viewScroll - lines ≤ t.historyCount by omega⟩
  · exact h

/-- `terminal_scroll_down` is called with amounts that are not negative. -/
def DownCall (_ : Terminal) (e : Nat × TerminalCall) : Prop :=
  ∀ lines, e.2 = .scrollDown lines → 0 ≤ lines ∧ lines < 2 ^ 31

theorem run_ring (h : RingInv t) {fuel : Nat} {call : TerminalCall} (hd : DownCall t (fuel, call))
    (hr : call.run fuel t = some t') : RingInv t' := by
  refine ringInv_kept.run h (fun lines _ => scrollUp_ring h lines) ?_ hr
  intro lines hl
  obtain ⟨h0, hint⟩ := hd lines hl
  exact scrollDown_ring h h0 hint

/-! ## Inside of the buffers -/

theorem redraw_inBounds {head : Nat} {view : Int} (h0 : 0 ≤ view) (hle : view ≤ historyLines) :
    ∀ a ∈ redrawUses head view, a.InBounds := by
  intro a ha
  obtain ⟨r, hr, c, hc, ha⟩ := mem_gridUses.mp ha
  have h24 : vgaRows = 24 := rfl
  have h25 : vgaRowsMax = 25 := rfl
  rcases List.mem_cons.mp ha with rfl | ha
  · unfold redrawSource
    split
    · exact ⟨Int.natCast_nonneg r, by omega, hc⟩
    · split
      · exact ⟨Int.tmod_nonneg _ (by omega), Int.tmod_lt_of_pos _ (by decide), hc⟩
      · exact ⟨by omega, by omega, hc⟩
  · rw [List.mem_singleton.mp ha]
    exact (cell_lt_iff hc).mpr (by omega)

theorem leave_inBounds (t : Terminal) : ∀ a ∈ leaveUses t, a.InBounds := by
  unfold leaveUses
  split
  · exact redraw_inBounds (Int.le_refl 0) (Int.natCast_nonneg _)
  · exact fun a ha => absurd ha List.not_mem_nil

theorem cursor_inBounds (h : CursorInv t) : ∀ a ∈ cursorUses t, a.InBounds := by
  intro a ha
  rw [List.mem_singleton.mp ha]
  have h24 : vgaRows = 24 := rfl
  have h25 : vgaRowsMax = 25 := rfl
  exact (cell_lt_iff h.2).mpr (by have := h.1; omega)

theorem scroll_inBounds {head : Nat} (hhead : head < historyLines) :
    ∀ a ∈ scrollUses head, a.InBounds := by
  have h24 : vgaRows = 24 := rfl
  have h25 : vgaRowsMax = 25 := rfl
  have h80 : vgaCols = 80 := rfl
  intro a ha
  unfold scrollUses at ha
  rcases List.mem_append.mp ha with ha | ha
  · rcases List.mem_append.mp ha with ha | ha
    · obtain ⟨c, hc, ha⟩ := List.mem_flatMap.mp ha
      rw [List.mem_range] at hc
      rcases List.mem_cons.mp ha with rfl | ha
      · show c < 25 * 80
        omega
      · rw [List.mem_singleton.mp ha]
        exact ⟨Int.natCast_nonneg _, by omega, hc⟩
    · obtain ⟨r, hr, c, hc, ha⟩ := mem_gridUses.mp ha
      rcases List.mem_cons.mp ha with rfl | ha
      · exact (cell_lt_iff hc).mpr (by omega)
      · rw [List.mem_singleton.mp ha]
        exact (cell_lt_iff hc).mpr (by omega)
  · obtain ⟨c, hc, rfl⟩ := List.mem_map.mp ha
    rw [List.mem_range] at hc
    exact (cell_lt_iff hc).mpr (by omega)

theorem nextLine_inBounds (h : RingInv t) : ∀ a ∈ nextLineUses t, a.InBounds := by
  unfold nextLineUses
  split
  · exact scroll_inBounds h.head_lt
  · exact fun a ha => absurd ha List.not_mem_nil

theorem putPrintable_inBounds (hc : CursorInv t) (h : RingInv t) :
    ∀ a ∈ putPrintableUses t, a.InBounds := by
  unfold putPrintableUses
  refine List.forall_mem_append.mpr ⟨cursor_inBounds hc, ?_⟩
  split
  · exact nextLine_inBounds h
  · exact fun a ha => absurd ha List.not_mem_nil

theorem putBackspace_inBounds (hc : CursorInv t) : ∀ a ∈ putBackspaceUses t, a.InBounds := by
  obtain ⟨hrow, hcol⟩ := hc
  unfold putBackspaceUses
  split
  · exact cursor_inBounds ⟨hrow, Nat.lt_of_le_of_lt (Nat.sub_le _ _) hcol⟩
  · split
    · exact cursor_inBounds ⟨Nat.lt_of_le_of_lt (Nat.sub_le _ _) hrow, Nat.lt_succ_self 79⟩
    · exact cursor_inBounds ⟨hrow, hcol⟩

theorem tab_inBounds (n : Nat) {fuel : Nat} (hc : CursorInv t) (h : RingInv t) :
    ∀ a ∈ tabUses n fuel t, a.InBounds := by
  induction fuel generalizing t with
  | zero => exact fun a ha => absurd ha List.not_mem_nil
  | succ fuel ih =>
    unfold tabUses
    split
    · have hc' := leaveScrollback_inv hc
      have h' := ringInv_kept.leave t h
      exact List.forall_mem_append.mpr ⟨List.forall_mem_append.mpr
        ⟨leave_inBounds _, putPrintable_inBounds hc' h'⟩,
        ih (putPrintable_spec _ _ hc').2.2 (ringInv_kept.put h' _)⟩
    · exact fun a ha => absurd ha List.not_mem_nil

theorem putchar_inBounds (fuel : Nat) (hc : CursorInv t) (h : RingInv t) (c : UInt8) :
    ∀ a ∈ putcharUses fuel t c, a.InBounds := by
  have hc' := leaveScrollback_inv hc
  have h' := ringInv_kept.leave t h
  unfold putcharUses
  refine List.forall_mem_append.mpr ⟨leave_inBounds _, ?_⟩
  simp only
  split
  · exact nextLine_inBounds h'
  split
  · exact fun a ha => absurd ha List.not_mem_nil
  split
  · exact putBackspace_inBounds hc'
  split
  · exact tab_inBounds _ hc' h'
  · exact putPrintable_inBounds hc' h'

theorem write_inBounds (fuel : Nat) (hc : CursorInv t) (h : RingInv t) (data : List UInt8) :
    ∀ a ∈ writeUses fuel t data, a.InBounds := by
  induction data generalizing t with
  | nil => exact fun a ha => absurd ha List.not_mem_nil
  | cons c data ih =>
    unfold writeUses
    refine List.forall_mem_append.mpr ⟨putchar_inBounds fuel hc h c, ?_⟩
    cases hp : terminalPutchar fuel t c with
    | none => exact fun a ha => absurd ha List.not_mem_nil
    | some t₁ => exact ih (putchar_inv hc hp) (ringInv_kept.putchar h hp)

theorem clear_inBounds (t : Terminal) : ∀ a ∈ clearUses t, a.InBounds := by
  refine List.forall_mem_append.mpr ⟨leave_inBounds _, ?_⟩
  intro a ha
  obtain ⟨i, hi, rfl⟩ := List.mem_map.mp ha
  exact List.mem_range.mp hi

theorem scrollUp_inBounds (h : RingInv t) (lines : Int) :
    ∀ a ∈ scrollUpUses t lines, a.InBounds := by
  have h24 : vgaRows = 24 := rfl
  have h25 : vgaRowsMax = 25 := rfl
  have hcount := h.count_le
  unfold scrollUpUses
  refine List.forall_mem_append.mpr ⟨?_, ?_⟩
  · split
    · intro a ha
      obtain ⟨r, hr, c, hc, ha⟩ := mem_gridUses.mp ha
      rcases List.mem_cons.mp ha with rfl | ha
      · exact (cell_lt_iff hc).mpr (by omega)
      · rw [List.mem_singleton.mp ha]
        exact ⟨Int.natCast_nonneg r, by omega, hc⟩
    · exact fun a ha => absurd ha List.not_mem_nil
  · have hredraw : ∀ view : Int, view ≤ t.historyCount →
        ∀ a ∈ (if view > 0 then redrawUses t.historyHead view else []), a.InBounds := by
      intro view hle
      split
      · rename_i hv
        exact redraw_inBounds (Int.le_of_lt hv) (by omega)
      · exact fun a ha => absurd ha List.not_mem_nil
    refine hredraw _ ?_
    split
    · omega
    · omega

theorem scrollDown_inBounds (h : RingInv t) {lines : Int} (h0 : 0 ≤ lines) (hint : lines < 2 ^ 31) :
    ∀ a ∈ scrollDownUses t lines, a.InBounds := by
  have hle := h.view_le
  have hcount := h.count_le
  unfold scrollDownUses
  split
  · have hview := scrollDown_view h h0 hint (by assumption)
    show ∀ a ∈ redrawUses t.historyHead (if i32 (t.viewScroll - lines) < 0 then 0
      else i32 (t.viewScroll - lines)), a.InBounds
    rw [hview]
    split
    · exact redraw_inBounds (Int.le_refl 0) (Int.natCast_nonneg _)
    · exact redraw_inBounds (by omega) (by omega)
  · exact fun a ha => absurd ha List.not_mem_nil

theorem uses_inBounds (fuel : Nat) (hc : CursorInv t) (h : RingInv t) {call : TerminalCall}
    (hd : DownCall t (fuel, call)) : ∀ a ∈ call.uses fuel t, a.InBounds := by
  cases call with
  | init => exact clear_inBounds _
  | clear => exact clear_inBounds t
  | setcolor fg bg => exact fun a ha => absurd ha List.not_mem_nil
  | setcursor row col => exact fun a ha => absurd ha List.not_mem_nil
  | putchar c => exact putchar_inBounds fuel hc h c
  | write data => exact write_inBounds fuel hc h data
  | writestring s => exact write_inBounds fuel hc h (str s)
  | writecolor s fg bg =>
    have hcolor : RingInv { t with termColor := makeColor fg bg } := h.of_same rfl rfl rfl
    exact write_inBounds fuel (show CursorInv { t with termColor := makeColor fg bg } from hc) hcolor
      (str s)
  | scrollUp lines => exact scrollUp_inBounds h lines
  | scrollDown lines =>
    obtain ⟨h0, hint⟩ := hd lines rfl
    exact scrollDown_inBounds h h0 hint

/-- **Inside of the buffers.**  After any calls the cursor is in the grid, and every index that a
further call uses is inside of its buffer; the cells it changes are among these. -/
theorem terminal_inBounds (h : (terminalMachine.restrict DownCall).Reach t) :
    (t.termRow < vgaRows ∧ t.termCol < vgaCols) ∧
      ∀ fuel call, DownCall t (fuel, call) →
        (∀ a ∈ call.uses fuel t, a.InBounds) ∧
          ∀ t', call.run fuel t = some t' → Within (call.uses fuel t) t t' := by
  have hring : RingInv t := by
    refine h.invariant (I := RingInv) ?_ ?_
    · rintro _ ⟨vga, rfl⟩
      exact ⟨Nat.zero_lt_succ 199, Nat.zero_le _, Int.le_refl 0⟩
    · intro t e o t' hi hl hs
      obtain ⟨t₁, h1, h2⟩ := Option.map_eq_some_iff.mp hs
      cases h2
      exact run_ring hi hl.2 h1
  have hcursor := terminal_reach_inv h.of_restrict
  exact ⟨hcursor, fun fuel call hd => ⟨uses_inBounds fuel hcursor hring hd, fun t' => run_within⟩⟩

theorem terminal_inBounds_oneRowBack : ∃ t, (terminalMachine.restrict DownCall).Reach t ∧
    t.viewScroll = 1 ∧ ∀ a ∈ (TerminalCall.scrollDown 1).uses 0 t, a.InBounds := by
  obtain ⟨os, t, hrun, hview, _⟩ := oneRowBack_run DownCall (by
    intro t e he _ lines hl
    simp only [oneRowBack, List.mem_cons, List.not_mem_nil, or_false] at he
    rcases he with rfl | rfl | rfl
    · cases hl
    · cases hl
    · cases hl)
  have ht : (terminalMachine.restrict DownCall).Reach t := ⟨_, _, os, ⟨_, rfl⟩, hrun⟩
  have hcall : DownCall t (0, .scrollDown 1) := by
    intro lines hl
    cases hl
    decide
  exact ⟨t, ht, hview, ((terminal_inBounds ht).2 0 (.scrollDown 1) hcall).1⟩

/-- Scrolling down by -300 from one row back reads row -100 of the ring. -/
theorem scrollDown_negative : ∃ t, terminalMachine.Reach t ∧
    .history (-100) 0 ∈ (TerminalCall.scrollDown (-300)).uses 0 t ∧
      ¬ (Access.history (-100) 0).InBounds := by
  refine ⟨_, ⟨_, oneRowBack, _, ⟨fun _ => 0, rfl⟩, Machine.Run.cons trivial rfl
    (Machine.Run.cons trivial rfl (Machine.Run.cons trivial rfl (Machine.Run.nil _)))⟩, ?_, ?_⟩
  · refine mem_gridUses.mpr ⟨0, by decide, 0, by decide, ?_⟩
    exact List.mem_cons.mpr (.inl rfl)
  · rintro ⟨h, _⟩
    exact absurd h (by decide)

end MiniOS
