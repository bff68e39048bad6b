import Mathlib.Data.List.TakeWhile
import Mathlib.Order.Monotone.Basic

/-!
# Frames of a fixed length

A receiver collects `n` symbols to a frame (`receive`).  The one symbol it tests
is the first of a frame: a symbol that cannot start one is dropped.

A receiver between two frames of a stream collects the frames of the stream
(`receiveAll_frames`).  One that is `p` symbols into a frame when it takes a
symbol for the first moves on by one for each symbol it drops, so its place is
right again once it has dropped the symbols at the places `p`, …, `n - 1`, in
this order, each in some frame (`Slips`, `receiveAll_aligned_iff`).  After the
loss of a symbol this starts with `p = 1` (`receiveAll_lost_iff`).
-/

namespace Lib

universe u

variable {α : Type u}

/-- `n` symbols, the first of which can start a frame. -/
structure Frame (n : ℕ) (starts : α → Bool) where
  symbols : List α
  length_eq : symbols.length = n
  head_starts : ∀ a ∈ symbols.head?, starts a = true

/-- One symbol behind the symbols `buf` of a frame, and the frame that it completes. -/
def receive (n : ℕ) (starts : α → Bool) (buf : List α) (a : α) : List α × Option (List α) :=
  if buf = [] ∧ starts a = false then ([], none)
  else if buf.length + 1 = n then ([], some (buf ++ [a]))
  else (buf ++ [a], none)

/-- The symbols of the frame in progress and the frames completed. -/
def receiveAll (n : ℕ) (starts : α → Bool) (buf : List α) : List α → List α × List (List α)
  | [] => (buf, [])
  | a :: l =>
    let r := receive n starts buf a
    let rest := receiveAll n starts r.1 l
    (rest.1, r.2.toList ++ rest.2)

variable {n : ℕ} {starts : α → Bool} {buf : List α} {p : ℕ}

theorem receiveAll_append (buf l l' : List α) :
    receiveAll n starts buf (l ++ l') =
      ((receiveAll n starts (receiveAll n starts buf l).1 l').1,
        (receiveAll n starts buf l).2 ++
          (receiveAll n starts (receiveAll n starts buf l).1 l').2) := by
  induction l generalizing buf with
  | nil => rfl
  | cons a l ih => simp [receiveAll, ih]

/-! ## One frame -/

theorem receive_of_ne_nil (hbuf : buf ≠ []) (a : α) :
    receive n starts buf a =
      if buf.length + 1 = n then ([], some (buf ++ [a])) else (buf ++ [a], none) := by
  unfold receive
  rw [if_neg]
  rintro ⟨h, _⟩
  exact hbuf h

theorem receiveAll_room {l : List α} (hbuf : buf ≠ []) (h : buf.length + l.length < n) :
    receiveAll n starts buf l = (buf ++ l, []) := by
  induction l generalizing buf with
  | nil => simp [receiveAll]
  | cons a l ih =>
    rw [List.length_cons] at h
    have hrest := ih (show buf ++ [a] ≠ [] by simp) (by simp; omega)
    simp [receiveAll, receive_of_ne_nil hbuf, show buf.length + 1 ≠ n by omega, hrest]

/-- The symbols that were missing complete the frame. -/
theorem receiveAll_full {l : List α} (hbuf : buf ≠ []) (hl : l ≠ [])
    (h : buf.length + l.length = n) : receiveAll n starts buf l = ([], [buf ++ l]) := by
  obtain ⟨l, a, rfl⟩ := List.eq_nil_or_concat l |>.resolve_left hl
  rw [List.concat_eq_append] at h ⊢
  rw [List.length_append, List.length_singleton] at h
  have hlen : buf.length + l.length + 1 = n := by omega
  rw [receiveAll_append, receiveAll_room hbuf (by omega)]
  simp [receiveAll, receive_of_ne_nil (List.append_ne_nil_of_left_ne_nil hbuf l), hlen]

/-- Between two frames, what cannot start one is dropped. -/
theorem receiveAll_drops {l : List α} (h : l.length < n) :
    receiveAll n starts [] l = (l.dropWhile fun a => !starts a, []) := by
  induction l with
  | nil => rfl
  | cons a l ih =>
    rw [List.length_cons] at h
    cases ha : starts a with
    | false => simp [receiveAll, receive, ha, ih (by omega)]
    | true =>
      have hrest : receiveAll n starts [a] l = ([a] ++ l, []) := by
        apply receiveAll_room
        · simp
        · rw [List.length_singleton]
          omega
      simp [receiveAll, receive, ha, show 1 ≠ n by omega, hrest]

theorem Frame.cons (F : Frame n starts) (hn : 0 < n) :
    ∃ a l, F.symbols = a :: l ∧ starts a = true ∧ l.length + 1 = n := by
  have hlen := F.length_eq
  cases hs : F.symbols with
  | nil =>
    rw [hs, List.length_nil] at hlen
    omega
  | cons a l =>
    rw [hs, List.length_cons] at hlen
    exact ⟨a, l, rfl, F.head_starts a (by rw [hs]; rfl), hlen⟩

/-- A part of a frame from its start on is kept. -/
theorem receiveAll_part (F : Frame n starts) {part : List α} (hpart : part <+: F.symbols)
    (hlt : part.length < n) : receiveAll n starts [] part = (part, []) := by
  rw [receiveAll_drops hlt]
  cases part with
  | nil => rfl
  | cons a part =>
    obtain ⟨t, ht⟩ := hpart
    have ha : starts a = true := F.head_starts a (by rw [← ht]; rfl)
    simp [ha]

theorem receiveAll_frame (F : Frame n starts) (hn : 0 < n) :
    receiveAll n starts [] F.symbols = ([], [F.symbols]) := by
  obtain ⟨a, l, hs, ha, hlen⟩ := F.cons hn
  rw [hs]
  cases l with
  | nil =>
    rw [List.length_nil] at hlen
    simp [receiveAll, receive, ha, hlen]
  | cons b l =>
    rw [List.length_cons] at hlen
    have hrest : receiveAll n starts [a] (b :: l) = ([], [[a] ++ b :: l]) := by
      apply receiveAll_full
      · simp
      · simp
      · rw [List.length_singleton, List.length_cons]
        omega
    have hfirst : receive n starts [] a = ([a], none) := by
      simp [receive, ha, show 1 ≠ n by omega]
    rw [receiveAll, hfirst, hrest]
    rfl

/-- **In place.**  The frames of the stream are collected, and the start of the next. -/
theorem receiveAll_frames (hn : 0 < n) (Fs : List (Frame n starts)) (l : List α) :
    receiveAll n starts [] (Fs.flatMap Frame.symbols ++ l) =
      ((receiveAll n starts [] l).1, Fs.map Frame.symbols ++ (receiveAll n starts [] l).2) := by
  induction Fs with
  | nil => simp
  | cons F Fs ih =>
    rw [List.flatMap_cons, List.append_assoc, receiveAll_append, receiveAll_frame F hn, ih]
    rfl

/-! ## Out of place -/

/-- The place the next frame is cut at, after a frame that is cut at `p`. -/
def Frame.slip (F : Frame n starts) (p : ℕ) : ℕ :=
  p + ((F.symbols.drop p).takeWhile fun a => !starts a).length

theorem Frame.le_slip (F : Frame n starts) (p : ℕ) : p ≤ F.slip p := Nat.le_add_right _ _

theorem Frame.length_dropWhile (F : Frame n starts) (hp : p ≤ n) :
    ((F.symbols.drop p).dropWhile fun a => !starts a).length + F.slip p = n := by
  have hlen := congrArg List.length
    (List.takeWhile_append_dropWhile (p := fun a => !starts a) (l := F.symbols.drop p))
  rw [List.length_append, List.length_drop, F.length_eq] at hlen
  unfold Frame.slip
  omega

theorem Frame.slip_le (F : Frame n starts) (hp : p ≤ n) : F.slip p ≤ n := by
  have := F.length_dropWhile hp
  omega

/-- The symbols passed over cannot start a frame. -/
theorem Frame.dropped (F : Frame n starts) {s : ℕ} (hps : p ≤ s) (hs : s < F.slip p) :
    ∃ a, F.symbols[s]? = some a ∧ starts a = false := by
  unfold Frame.slip at hs
  have hlt : s - p < ((F.symbols.drop p).takeWhile fun a => !starts a).length := by omega
  have hmem := List.getElem_mem hlt
  obtain ⟨t, ht⟩ := List.takeWhile_prefix (p := fun a => !starts a) (l := F.symbols.drop p)
  refine ⟨_, ?_, by simpa using List.mem_takeWhile_imp hmem⟩
  have hget : (F.symbols.drop p)[s - p]? =
      some (((F.symbols.drop p).takeWhile fun a => !starts a)[s - p]) := by
    conv => lhs; rw [← ht]
    rw [List.getElem?_append_left hlt, List.getElem?_eq_getElem hlt]
  rw [List.getElem?_drop, show p + (s - p) = s by omega] at hget
  exact hget

/-- The symbol at the new place can. -/
theorem Frame.kept (F : Frame n starts) (hp : p ≤ n) (hlt : F.slip p < n) :
    ∃ a, F.symbols[F.slip p]? = some a ∧ starts a = true := by
  have hlen := F.length_dropWhile hp
  cases hd : (F.symbols.drop p).dropWhile fun a => !starts a with
  | nil =>
    rw [hd, List.length_nil] at hlen
    omega
  | cons a l =>
    have ha : starts a = true := by
      have := List.head?_dropWhile_not (fun a => !starts a) (F.symbols.drop p)
      simpa [hd] using this
    have hsplit := List.takeWhile_append_dropWhile (p := fun a => !starts a) (l := F.symbols.drop p)
    have hget := congrArg
      (fun l => l[((F.symbols.drop p).takeWhile fun a => !starts a).length]?) hsplit
    simp only [hd] at hget
    rw [List.getElem?_append_right (Nat.le_refl _), Nat.sub_self, List.getElem?_cons_zero,
      List.getElem?_drop] at hget
    exact ⟨a, hget.symm, ha⟩

/-- A frame cut at `p` moves the receiver to its `slip`. -/
theorem receiveAll_slip (F : Frame n starts) (hp : 0 < p) (hbuf : buf.length + p = n) :
    (receiveAll n starts buf F.symbols).1.length + F.slip p = n := by
  by_cases hn : buf = []
  · subst hn
    rw [List.length_nil, Nat.zero_add] at hbuf
    subst hbuf
    have := F.slip_le (Nat.le_refl p)
    have := F.le_slip p
    rw [receiveAll_frame F hp, List.length_nil]
    omega
  · have hpos := List.length_pos_iff.mpr hn
    have htake : (F.symbols.take p).length = p := by
      rw [List.length_take, F.length_eq]
      omega
    have hfull : receiveAll n starts buf (F.symbols.take p) = ([], [buf ++ F.symbols.take p]) := by
      apply receiveAll_full hn
      · rw [← List.length_pos_iff]
        omega
      · omega
    conv => lhs; rw [← List.take_append_drop p F.symbols]
    rw [receiveAll_append, hfull, receiveAll_drops (by rw [List.length_drop, F.length_eq]; omega)]
    exact F.length_dropWhile (by omega)

/-- The places `p`, …, `n - 1` in frames in the order of the stream, with symbols that cannot
start a frame. -/
def Slips (p : ℕ) (Fs : List (Frame n starts)) : Prop :=
  ∃ f : ℕ → ℕ, Monotone f ∧ ∀ s, p ≤ s → s < n →
    ∃ F a, Fs[f s]? = some F ∧ F.symbols[s]? = some a ∧ starts a = false

theorem slips_nil (p : ℕ) : Slips p ([] : List (Frame n starts)) ↔ n ≤ p := by
  constructor
  · rintro ⟨f, _, hf⟩
    by_contra hlt
    obtain ⟨F, a, hF, _⟩ := hf p (Nat.le_refl p) (by omega)
    cases hF
  · intro hle
    exact ⟨id, monotone_id, fun s hs hlt => by omega⟩

theorem slips_cons (F : Frame n starts) (Fs : List (Frame n starts)) (hp : p ≤ n) :
    Slips p (F :: Fs) ↔ Slips (F.slip p) Fs := by
  constructor
  · rintro ⟨f, hmono, hf⟩
    refine ⟨fun s => f s - 1, fun s t hst => Nat.sub_le_sub_right (hmono hst) 1, ?_⟩
    intro s hs hlt
    -- the symbol at the new place starts a frame, so it is not the one to be dropped
    have hlater : 0 < f (F.slip p) := by
      by_contra h0
      obtain ⟨a, ha, hstart⟩ := F.kept hp (by omega)
      obtain ⟨F', a', hF', ha', hdrop⟩ := hf (F.slip p) (F.le_slip p) (by omega)
      rw [show f (F.slip p) = 0 by omega] at hF'
      cases hF'
      rw [ha] at ha'
      cases ha'
      rw [hstart] at hdrop
      cases hdrop
    have hle := hmono hs
    obtain ⟨F', a, hF', ha⟩ := hf s (Nat.le_trans (F.le_slip p) hs) hlt
    refine ⟨F', a, ?_, ha⟩
    rwa [show f s = f s - 1 + 1 by omega, List.getElem?_cons_succ] at hF'
  · rintro ⟨f, hmono, hf⟩
    refine ⟨fun s => if s < F.slip p then 0 else f s + 1, ?_, ?_⟩
    · intro s t hst
      have := hmono hst
      simp only
      split
      · omega
      · rw [if_neg (by omega)]
        omega
    · intro s hs hlt
      by_cases hnew : s < F.slip p
      · obtain ⟨a, ha⟩ := F.dropped hs hnew
        exact ⟨F, a, by simp [hnew], ha⟩
      · obtain ⟨F', a, hF', ha⟩ := hf s (by omega) hlt
        exact ⟨F', a, by simpa [hnew] using hF', ha⟩

/-- **Out of place.**  The receiver is back in place when the symbols that tell it have come. -/
theorem receiveAll_aligned_iff (Fs : List (Frame n starts)) (hp : 0 < p)
    (hbuf : buf.length + p = n) :
    (receiveAll n starts buf (Fs.flatMap Frame.symbols)).1 = [] ↔ Slips p Fs := by
  induction Fs generalizing buf p with
  | nil =>
    rw [slips_nil]
    show buf = [] ↔ _
    rw [← List.length_eq_zero_iff]
    omega
  | cons F Fs ih =>
    have hslip := receiveAll_slip F hp hbuf
    have hle := F.le_slip p
    rw [List.flatMap_cons, receiveAll_append, slips_cons F Fs (by omega)]
    exact ih (by omega) hslip

/-- The frame in progress behind a frame that has lost a symbol. -/
theorem receiveAll_eraseIdx (hn : 1 < n) (F : Frame n starts) {k : ℕ} (hk : k < n) :
    (receiveAll n starts [] (F.symbols.eraseIdx k)).1.length + (if k = 0 then F.slip 1 else 1) =
      n := by
  have hlen : (F.symbols.eraseIdx k).length = n - 1 := by
    rw [List.length_eraseIdx_of_lt (by rw [F.length_eq]; exact hk), F.length_eq]
  rw [receiveAll_drops (by omega)]
  by_cases h0 : k = 0
  · rw [if_pos h0, h0, List.eraseIdx_zero, ← List.drop_one]
    exact F.length_dropWhile (by omega)
  · obtain ⟨a, l, hs, ha, _⟩ := F.cons (by omega)
    obtain ⟨k, rfl⟩ := Nat.exists_eq_succ_of_ne_zero h0
    rw [hs, List.eraseIdx_cons_succ] at hlen ⊢
    rw [if_neg h0, List.dropWhile_cons_of_neg (by simp [ha]), hlen]
    omega

/-- **A loss.**  What is left of the frame counts if its first symbol was lost. -/
theorem receiveAll_lost_iff (hn : 1 < n) (before : List (Frame n starts)) (F : Frame n starts)
    {k : ℕ} (hk : k < n) (after : List (Frame n starts)) :
    (receiveAll n starts [] (before.flatMap Frame.symbols ++ (F.symbols.eraseIdx k ++
        after.flatMap Frame.symbols))).1 = [] ↔ Slips 1 (if k = 0 then F :: after else after) := by
  have hbuf := receiveAll_eraseIdx hn F hk
  rw [receiveAll_frames (by omega), receiveAll_append]
  by_cases h0 : k = 0
  · have := F.le_slip 1
    rw [if_pos h0] at hbuf ⊢
    rw [slips_cons F after (by omega)]
    exact receiveAll_aligned_iff after (by omega) hbuf
  · rw [if_neg h0] at hbuf ⊢
    exact receiveAll_aligned_iff after (by omega) hbuf

end Lib
