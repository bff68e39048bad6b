import MiniOS.Lib.Tally
import MiniOS.Memory.Rand
import MiniOS.Shell.Reports

/-!
# Coins, dice and passwords (`kernel/shell.c`)

`flip`, `dice` and `passgen` seed the generator with the tick count and take the
bits from 16 upwards of what it returns.

* `flip_fair`, `dice_faces`: how often each outcome comes up over the ticks;
* `passgen_spec`: the length of a password and the characters it is made of.
-/

namespace MiniOS

open Lib

/-! ## The commands

What is shown, and the new `rand_seed`. -/

def cmdFlip (ticks : UInt32) : List TerminalCall × UInt32 :=
  let (r, randSeed) := rand (srand ticks)
  (if r % 2 = 0 then say (text "Heads!\n") else say (text "Tails!\n"), randSeed)

def rolled (face : UInt32) : List TerminalCall :=
  say (text "You rolled: " ++ itoa (i32 face.toNat) ++ text "\n")

def cmdDice (ticks : UInt32) : List TerminalCall × UInt32 :=
  let (r, randSeed) := rand (srand ticks)
  (rolled (r % 6 + 1), randSeed)

/-- `numbers_only`, `alpha_only`, or neither. -/
inductive PassKind where
  | numbers
  | alpha
  | any
deriving DecidableEq

/-- The `while` loop of `cmd_passgen`: the first of the two words decides. -/
def passKind : List UInt8 → PassKind
  | [] => .any
  | c :: p =>
    if c = 0 then .any
    else if strncmp (c :: p) (text "number") 6 = 0 then .numbers
    else if strncmp (c :: p) (text "alpha") 5 = 0 then .alpha
    else passKind p

/-- A character from what `rand` returned. -/
def passChar (kind : PassKind) (r : UInt32) : UInt8 :=
  match kind with
  | .numbers => ch '0' + (r % 10).toUInt8
  | .alpha =>
    let r := r % 52
    if r < 26 then ch 'A' + r.toUInt8 else ch 'a' + (r - 26).toUInt8
  | .any => 33 + (r % 94).toUInt8

/-- The `for` loop: the characters, and the seed behind the last. -/
def passChars (kind : PassKind) : Nat → UInt32 → List UInt8 × UInt32
  | 0, randSeed => ([], randSeed)
  | len + 1, randSeed =>
    let (r, randSeed) := rand randSeed
    let (cs, randSeed) := passChars kind len randSeed
    (passChar kind r :: cs, randSeed)

def passLength (arg : List UInt8) : Nat :=
  let len := atoi arg
  (if len ≤ 0 ∨ len > 64 then 16 else len).toNat

def cmdPassgen (ticks : UInt32) (arg : List UInt8) : List TerminalCall × UInt32 :=
  let (cs, randSeed) := passChars (passKind arg) (passLength arg) (srand ticks)
  (say (text "\n  Generated: ") ++ cs.map .putchar ++ say (text "\n"), randSeed)

/-! ## The bits of the first draw -/

theorem rand_bits (ticks : UInt32) :
    (rand (srand ticks)).1.toNat = affine (2 ^ 31) 1103515245 12345 ticks.toNat / 65536 := by
  have hdraw : (rand (srand ticks)).1.toNat = (rand ticks).2.toNat / 65536 % 32768 := by
    unfold rand srand
    rw [UInt32.toNat_mod, UInt32.toNat_div]
    rfl
  rw [hdraw, rand_toNat]
  unfold affine
  rw [show 2 ^ 32 = 65536 * 65536 from rfl, show 2 ^ 31 = 65536 * 32768 from rfl,
    Nat.mod_mul_right_div_self, Nat.mod_mul_right_div_self, Nat.mod_mod_of_dvd _ (by decide)]

theorem rand_low_bit (ticks : UInt32) :
    (rand (srand ticks)).1.toNat % 2 = affine (2 ^ 17) 1103515245 12345 ticks.toNat / 65536 := by
  rw [rand_bits]
  unfold affine
  rw [show 2 ^ 31 = 65536 * 32768 from rfl, show 2 ^ 17 = 65536 * 2 from rfl,
    Nat.mod_mul_right_div_self, Nat.mod_mul_right_div_self, Nat.mod_mod_of_dvd _ (by decide)]

/-- The count of ticks is taken modulo 2^32, which a power of two below does not see. -/
theorem affine_ticks {k : Nat} (hk : k ≤ 32) (x : Nat) :
    affine (2 ^ k) 1103515245 12345 (UInt32.ofNat x).toNat =
      affine (2 ^ k) 1103515245 12345 x := by
  have hmod : (UInt32.ofNat x).toNat ≡ x [MOD 2 ^ k] := by
    rw [UInt32.toNat_ofNat']
    exact (Nat.mod_modEq x (2 ^ 32)).of_dvd (pow_dvd_pow 2 hk)
  exact (hmod.mul_left _).add_right _

/-- **A draw modulo `q`.**  Over any 2^31 ticks in a row the residues below `2 ^ 15 % q` come up
2^16 times more often than the others. -/
theorem draw_tally (n : Nat) {q v : Nat} (hv : v < q) :
    ((Finset.Ico n (n + 2 ^ 31)).filter fun x =>
      (rand (srand (UInt32.ofNat x))).1.toNat % q = v).card =
        2 ^ 16 * (32768 / q + if v < 32768 % q then 1 else 0) := by
  have hbits : ∀ x, (rand (srand (UInt32.ofNat x))).1.toNat % q = v ↔
      affine (2 ^ 31) 1103515245 12345 x / 65536 ≡ v [MOD q] := by
    intro x
    rw [rand_bits, affine_ticks (by decide)]
    unfold Nat.ModEq
    rw [Nat.mod_eq_of_lt hv]
  simp only [hbits]
  rw [card_affine (P := fun y => y / 65536 ≡ v [MOD q]) (by decide) (by decide),
    show 2 ^ 31 = 65536 * 32768 from rfl, count_div (P := fun r => r ≡ v [MOD q]),
    Nat.count_modEq_card _ (Nat.zero_lt_of_lt hv), Nat.mod_eq_of_lt hv]
  rfl

/-! ## Coins and dice -/

theorem flip_shows (ticks : UInt32) : printedText (cmdFlip ticks).1 =
    if affine (2 ^ 17) 1103515245 12345 ticks.toNat / 65536 = 0 then text "Heads!\n"
    else text "Tails!\n" := by
  have hcond : (rand (srand ticks)).1 % 2 = 0 ↔ (rand (srand ticks)).1.toNat % 2 = 0 := by
    rw [← UInt32.toNat_inj, UInt32.toNat_mod]
    rfl
  rw [← rand_low_bit]
  unfold cmdFlip
  simp only [hcond]
  split
  · exact printedText_say (by decide)
  · exact printedText_say (by decide)

/-- **A coin is fair.**  Over any 2^17 ticks in a row each side comes up as often as the other. -/
theorem flip_fair (n : Nat) :
    ((Finset.Ico n (n + 2 ^ 17)).filter fun x =>
      printedText (cmdFlip (UInt32.ofNat x)).1 = text "Heads!\n").card = 2 ^ 16 ∧
    ((Finset.Ico n (n + 2 ^ 17)).filter fun x =>
      printedText (cmdFlip (UInt32.ofNat x)).1 = text "Tails!\n").card = 2 ^ 16 := by
  have hne : text "Tails!\n" ≠ text "Heads!\n" := by decide
  have hheads : ∀ x, printedText (cmdFlip (UInt32.ofNat x)).1 = text "Heads!\n" ↔
      affine (2 ^ 17) 1103515245 12345 x / 65536 = 0 := by
    intro x
    rw [flip_shows, affine_ticks (by decide)]
    split
    · rename_i h
      exact iff_of_true rfl h
    · rename_i h
      exact iff_of_false hne h
  have htails : ∀ x, printedText (cmdFlip (UInt32.ofNat x)).1 = text "Tails!\n" ↔
      affine (2 ^ 17) 1103515245 12345 x / 65536 ≠ 0 := by
    intro x
    rw [flip_shows, affine_ticks (by decide)]
    split
    · rename_i h
      exact iff_of_false hne.symm (absurd h)
    · rename_i h
      exact iff_of_true rfl h
  have hblocks : ∀ P : Nat → Prop, ∀ [DecidablePred P],
      ((Finset.Ico n (n + 2 ^ 17)).filter fun x =>
        P (affine (2 ^ 17) 1103515245 12345 x / 65536)).card = 65536 * Nat.count P 2 := by
    intro P _
    rw [card_affine (P := fun y => P (y / 65536)) (by decide) (by decide),
      show 2 ^ 17 = 65536 * 2 from rfl, count_div]
  simp only [hheads, htails]
  exact ⟨hblocks (· = 0), hblocks (· ≠ 0)⟩

/-- The six faces. -/
theorem rolled_shows {r : UInt32} (hr : r < 6) :
    printedText (rolled (r + 1)) = text "You rolled: " ++ decimal (r.toNat + 1) ++ text "\n" := by
  have hlt : r.toNat < 6 := UInt32.lt_iff_toNat_lt.mp hr
  have hface : (r + 1).toNat = r.toNat + 1 := by
    rw [UInt32.toNat_add, UInt32.toNat_one]
    omega
  have hint : i32 ((r.toNat + 1 : Nat) : Int) = (r.toNat + 1 : Nat) :=
    i32_of_lt (by omega) (by omega)
  unfold rolled
  rw [hface, hint, itoa_natCast (by omega)]
  exact printedText_say (zero_notMem_count (by decide) (by decide))

theorem dice_shows (ticks : UInt32) : printedText (cmdDice ticks).1 =
    text "You rolled: " ++ decimal ((rand (srand ticks)).1.toNat % 6 + 1) ++ text "\n" := by
  have hmod : ((rand (srand ticks)).1 % 6).toNat = (rand (srand ticks)).1.toNat % 6 :=
    UInt32.toNat_mod _ _
  rw [← hmod]
  exact rolled_shows (UInt32.mod_lt _ (by decide))

/-- **Dice are not quite fair.**  Over any 2^31 ticks in a row the faces 1 and 2 come up 2^16 times
more often than the others, since 6 does not divide the 2^15 values of `rand`. -/
theorem dice_faces (n : Nat) (face : Fin 6) :
    ((Finset.Ico n (n + 2 ^ 31)).filter fun x => printedText (cmdDice (UInt32.ofNat x)).1 =
      text "You rolled: " ++ decimal (face + 1) ++ text "\n").card =
        2 ^ 16 * if face.val < 2 then 5462 else 5461 := by
  have hfaces : ∀ k < 6, ∀ face : Fin 6,
      text "You rolled: " ++ decimal (k + 1) ++ text "\n" =
        text "You rolled: " ++ decimal (face + 1) ++ text "\n" ↔ k = face := by decide
  have hshows : ∀ x, printedText (cmdDice (UInt32.ofNat x)).1 =
      text "You rolled: " ++ decimal (face + 1) ++ text "\n" ↔
        (rand (srand (UInt32.ofNat x))).1.toNat % 6 = face := by
    intro x
    rw [dice_shows]
    exact hfaces _ (Nat.mod_lt _ (by decide)) face
  simp only [hshows]
  rw [draw_tally n face.isLt]
  show 2 ^ 16 * (5461 + if face.val < 2 then 1 else 0) = _
  split
  · rfl
  · rfl

/-! ## Passwords -/

/-- `w` stands in `s`, and `other` does not begin before it. -/
def Before (w other s : List UInt8) : Prop :=
  ∃ i, w <+: s.drop i ∧ ∀ j < i, ¬ other <+: s.drop j

theorem not_before_nil {w other : List UInt8} (hw : w ≠ []) : ¬ Before w other [] := by
  rintro ⟨i, h, _⟩
  rw [List.drop_nil] at h
  exact hw (List.prefix_nil.mp h)

/-- The scan at a character where neither or one of two words begins. -/
theorem before_cons {w other s : List UInt8} {c : UInt8} (hw : ¬ w <+: c :: s) :
    Before w other (c :: s) ↔ ¬ other <+: c :: s ∧ Before w other s := by
  constructor
  · rintro ⟨i, h, hj⟩
    cases i with
    | zero => exact absurd h hw
    | succ i => exact ⟨hj 0 (Nat.succ_pos i), i, h, fun j hji => hj (j + 1) (Nat.succ_lt_succ hji)⟩
  · rintro ⟨h0, i, h, hj⟩
    refine ⟨i + 1, h, ?_⟩
    intro j hji
    cases j with
    | zero => exact h0
    | succ j => exact hj j (Nat.lt_of_succ_lt_succ hji)

theorem before_of_start {w other s : List UInt8} (h : w <+: s) : Before w other s :=
  ⟨0, h, fun _ hj => absurd hj (Nat.not_lt_zero _)⟩

/-- **The kind of a password** is decided by the word that comes first. -/
theorem passKind_spec (arg : List UInt8) :
    (passKind arg = .numbers ↔ Before (text "number") (text "alpha") (str arg)) ∧
      (passKind arg = .alpha ↔ Before (text "alpha") (text "number") (str arg)) := by
  have hnumber : ∀ s, strncmp s (text "number") 6 = 0 ↔ text "number" <+: str s :=
    fun s => strncmp_strlen_iff s (text "number")
  have halpha : ∀ s, strncmp s (text "alpha") 5 = 0 ↔ text "alpha" <+: str s :=
    fun s => strncmp_strlen_iff s (text "alpha")
  have hend : (PassKind.any = .numbers ↔ Before (text "number") (text "alpha") []) ∧
      (PassKind.any = .alpha ↔ Before (text "alpha") (text "number") []) :=
    ⟨iff_of_false nofun (not_before_nil (by decide)),
      iff_of_false nofun (not_before_nil (by decide))⟩
  induction arg with
  | nil => exact hend
  | cons c p ih =>
    unfold passKind
    by_cases hc : c = 0
    · rw [if_pos hc, (str_eq_nil_iff (c :: p)).mpr hc]
      exact hend
    rw [if_neg hc]
    simp only [hnumber, halpha, str_cons hc]
    split
    · rename_i hn
      have ha : ¬ text "alpha" <+: c :: str p := by
        intro ha
        have hne : ch 'n' ≠ ch 'a' := by decide
        exact hne ((List.cons_prefix_cons.mp hn).1.trans (List.cons_prefix_cons.mp ha).1.symm)
      refine ⟨iff_of_true rfl (before_of_start hn), iff_of_false nofun ?_⟩
      rw [before_cons ha]
      exact fun h => h.1 hn
    rename_i hn
    split
    · rename_i ha
      refine ⟨iff_of_false nofun ?_, iff_of_true rfl (before_of_start ha)⟩
      rw [before_cons hn]
      exact fun h => h.1 ha
    · rename_i ha
      rw [before_cons hn, before_cons ha, and_iff_right ha, and_iff_right hn]
      exact ih

/-- The characters a kind of password is made of. -/
def PassKind.Allows : PassKind → UInt8 → Prop
  | .numbers, c => ch '0' ≤ c ∧ c ≤ ch '9'
  | .alpha, c => (ch 'A' ≤ c ∧ c ≤ ch 'Z') ∨ (ch 'a' ≤ c ∧ c ≤ ch 'z')
  | .any, c => 33 ≤ c ∧ c ≤ 126

theorem PassKind.Allows.bounds {kind : PassKind} {c : UInt8} (h : kind.Allows c) :
    33 ≤ c ∧ c ≤ 126 := by
  cases kind with
  | numbers => exact ⟨UInt8.le_trans (by decide) h.1, UInt8.le_trans h.2 (by decide)⟩
  | alpha =>
    rcases h with h | h
    · exact ⟨UInt8.le_trans (by decide) h.1, UInt8.le_trans h.2 (by decide)⟩
    · exact ⟨UInt8.le_trans (by decide) h.1, UInt8.le_trans h.2 (by decide)⟩
  | any => exact h

theorem passChar_allowed (kind : PassKind) (r : UInt32) : kind.Allows (passChar kind r) := by
  have hresidue : ∀ q : UInt32, 0 < q → (r % q).toNat < q.toNat :=
    fun q hq => UInt32.lt_iff_toNat_lt.mp (UInt32.mod_lt r hq)
  cases kind with
  | numbers =>
    have hall : ∀ k < 10, ch '0' ≤ ch '0' + UInt8.ofNat k ∧ ch '0' + UInt8.ofNat k ≤ ch '9' := by
      decide
    exact hall _ (hresidue 10 (by decide))
  | alpha =>
    have hupper : ∀ k < 26, ch 'A' ≤ ch 'A' + UInt8.ofNat k ∧ ch 'A' + UInt8.ofNat k ≤ ch 'Z' := by
      decide
    have hlower : ∀ k < 26, ch 'a' ≤ ch 'a' + UInt8.ofNat k ∧ ch 'a' + UInt8.ofNat k ≤ ch 'z' := by
      decide
    have hlt : (r % 52).toNat < 52 := hresidue 52 (by decide)
    unfold passChar
    simp only
    split
    · rename_i h
      exact .inl (hupper _ (UInt32.lt_iff_toNat_lt.mp h))
    · rename_i h
      have hge : (26 : UInt32) ≤ r % 52 := UInt32.not_lt.mp h
      have hsub : (r % 52 - 26).toNat = (r % 52).toNat - 26 := UInt32.toNat_sub_of_le _ _ hge
      exact .inr (hlower _ (by omega))
  | any =>
    have hall : ∀ k < 94, 33 ≤ 33 + UInt8.ofNat k ∧ 33 + UInt8.ofNat k ≤ 126 := by decide
    exact hall _ (hresidue 94 (by decide))

theorem passChars_spec (kind : PassKind) (len : Nat) (randSeed : UInt32) :
    (passChars kind len randSeed).1.length = len ∧
      ∀ c ∈ (passChars kind len randSeed).1, kind.Allows c := by
  induction len generalizing randSeed with
  | zero => exact ⟨rfl, fun _ h => nomatch h⟩
  | succ len ih =>
    obtain ⟨hlen, hall⟩ := ih (rand randSeed).2
    refine ⟨congrArg Nat.succ hlen, ?_⟩
    exact List.forall_mem_cons.mpr ⟨passChar_allowed kind (rand randSeed).1, hall⟩

/-- The number is read as an `int`, so that it counts modulo 2^32. -/
theorem passLength_eq (arg : List UInt8) : (passLength arg : Int) =
    if 1 ≤ numeral arg % 2 ^ 32 ∧ numeral arg % 2 ^ 32 ≤ 64 then numeral arg % 2 ^ 32 else 16 := by
  have hmod := i32_emod (numeral arg)
  have hbounds := i32_bounds (numeral arg)
  unfold passLength
  simp only [atoi_eq]
  split
  · rw [if_neg (by omega)]
    rfl
  · rw [if_pos (by omega), Int.toNat_of_nonneg (by omega)]
    omega

/-- **Passwords.**  Whatever the argument and the tick, a password has the length asked for modulo
2^32, or 16 characters if that is not from 1 to 64, and is made of the characters asked for. -/
theorem passgen_spec (ticks : UInt32) (arg : List UInt8) :
    ∃ password, printedText (cmdPassgen ticks arg).1 =
        text "\n  Generated: " ++ password ++ text "\n" ∧
      (password.length : Int) =
        (if 1 ≤ numeral arg % 2 ^ 32 ∧ numeral arg % 2 ^ 32 ≤ 64 then numeral arg % 2 ^ 32 else 16) ∧
      ∀ c ∈ password, 33 ≤ c ∧ c ≤ 126 ∧
        (Before (text "number") (text "alpha") (str arg) → ch '0' ≤ c ∧ c ≤ ch '9') ∧
        (Before (text "alpha") (text "number") (str arg) →
          (ch 'A' ≤ c ∧ c ≤ ch 'Z') ∨ (ch 'a' ≤ c ∧ c ≤ ch 'z')) := by
  obtain ⟨hlen, hall⟩ := passChars_spec (passKind arg) (passLength arg) (srand ticks)
  obtain ⟨hnumbers, halpha⟩ := passKind_spec arg
  refine ⟨(passChars (passKind arg) (passLength arg) (srand ticks)).1, ?_, ?_, ?_⟩
  · have hhead : printedText (say (text "\n  Generated: ")) = text "\n  Generated: " :=
      printedText_say (by decide)
    have hend : printedText (say (text "\n")) = text "\n" := printedText_say (by decide)
    unfold cmdPassgen
    simp only [printedText_append, hhead, hend, printedText_putchars]
  · rw [hlen, passLength_eq]
  · intro c hc
    have hc := hall c hc
    refine ⟨hc.bounds.1, hc.bounds.2, ?_, ?_⟩
    · intro h
      rw [hnumbers.mpr h] at hc
      exact hc
    · intro h
      rw [halpha.mpr h] at hc
      exact hc

end MiniOS
