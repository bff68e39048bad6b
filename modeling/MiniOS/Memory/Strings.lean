import MiniOS.Lib.CString
import MiniOS.Target

/-!
# String functions (`kernel/memory.c`)

A `const char *` argument is the list of bytes from the pointer on; a `char *`
result is the offset from that pointer (`none` for `NULL`).  A destination is
an array, and a copy that would store outside of it fails.

Each copy is one `write`: `strcpy_eq`, `strncpy_eq`, `strcat_eq`, `strncat_eq`,
`memcpy_eq`.  What a caller needs follows: whether the copy fits, and the
string it leaves.
-/

namespace MiniOS

open Lib

variable {n : Nat}

def strlen : List UInt8 → Nat
  | [] => 0
  | c :: s => if c = 0 then 0 else strlen s + 1

def strcmp : List UInt8 → List UInt8 → Int
  | a :: as, b :: bs => if a ≠ 0 ∧ a = b then strcmp as bs else (a.toNat : Int) - b.toNat
  | a :: _, [] => a.toNat
  | [], b :: _ => -b.toNat
  | [], [] => 0

def strncmp : List UInt8 → List UInt8 → Nat → Int
  | _, _, 0 => 0
  | a :: as, b :: bs, k + 1 =>
    if a ≠ 0 ∧ a = b then strncmp as bs k else (a.toNat : Int) - b.toNat
  | a :: _, [], _ + 1 => a.toNat
  | [], b :: _, _ + 1 => -b.toNat
  | [], [], _ + 1 => 0

def strchr : List UInt8 → UInt8 → Option Nat
  | [], _ => none
  | x :: s, c => if x = 0 then none else if x = c then some 0 else (strchr s c).map (· + 1)

/-- The loop of `strrchr` at offset `i`; the NUL itself is compared too. -/
def strrchrLoop (c : UInt8) (i : Nat) (last : Option Nat) : List UInt8 → Option Nat
  | [] => if 0 = c then some i else last
  | x :: s =>
    let last := if x = c then some i else last
    if x = 0 then last else strrchrLoop c (i + 1) last s

def strrchr (s : List UInt8) (c : UInt8) : Option Nat := strrchrLoop c 0 none s

/-- `while ((*d++ = *src++));` -/
def strcpyLoop (dest : Chars n) (d : Nat) : List UInt8 → Option (Chars n)
  | [] => dest.put d 0
  | c :: src => do
    let dest ← dest.put d c
    if c = 0 then some dest else strcpyLoop dest (d + 1) src

def strcpy (dest : Chars n) (src : List UInt8) : Option (Chars n) := strcpyLoop dest 0 src

/-- The second loop of `strncpy`: the remaining `k` bytes become NUL. -/
def strncpyZeros (dest : Chars n) (d : Nat) : Nat → Option (Chars n)
  | 0 => some dest
  | k + 1 => do
    let dest ← dest.put d 0
    strncpyZeros dest (d + 1) k

/-- The first loop of `strncpy`, with `k` bytes to go. -/
def strncpyLoop (dest : Chars n) (d : Nat) : Nat → List UInt8 → Option (Chars n)
  | 0, _ => some dest
  | k + 1, [] => strncpyZeros dest d (k + 1)
  | k + 1, c :: src =>
    if c = 0 then strncpyZeros dest d (k + 1)
    else do
      let dest ← dest.put d c
      strncpyLoop dest (d + 1) k src

/-- `strncpy(dest + d, src, k)`. -/
def strncpy (dest : Chars n) (d : Nat) (src : List UInt8) (k : Nat) : Option (Chars n) :=
  strncpyLoop dest d k src

/-- `while (*src) *d++ = *src++; *d = '\0';` -/
def strcatLoop (dest : Chars n) (d : Nat) : List UInt8 → Option (Chars n)
  | [] => dest.put d 0
  | c :: src =>
    if c = 0 then dest.put d 0
    else do
      let dest ← dest.put d c
      strcatLoop dest (d + 1) src

def strcat (dest : Chars n) (src : List UInt8) : Option (Chars n) :=
  strcatLoop dest (strlen dest.bytes) src

/-- `while (k-- && *src) *d++ = *src++; *d = '\0';` -/
def strncatLoop (dest : Chars n) (d : Nat) : Nat → List UInt8 → Option (Chars n)
  | 0, _ => dest.put d 0
  | _ + 1, [] => dest.put d 0
  | k + 1, c :: src =>
    if c = 0 then dest.put d 0
    else do
      let dest ← dest.put d c
      strncatLoop dest (d + 1) k src

def strncat (dest : Chars n) (src : List UInt8) (k : Nat) : Option (Chars n) :=
  strncatLoop dest (strlen dest.bytes) k src

/-- `while (k--) *d++ = *s++;` -/
def memcpyLoop (dest : Chars n) (d : Nat) : Nat → List UInt8 → Option (Chars n)
  | 0, _ => some dest
  | k + 1, src => do
    let dest ← dest.put d (src.headD 0)
    memcpyLoop dest (d + 1) k src.tail

def memcpy (dest : Chars n) (src : List UInt8) (k : Nat) : Option (Chars n) :=
  memcpyLoop dest 0 k src

/-! ## Reading -/

theorem strlen_eq (s : List UInt8) : strlen s = (str s).length := by
  induction s with
  | nil => rfl
  | cons c s ih =>
    by_cases hc : c = 0
    · subst hc; simp [strlen]
    · rw [strlen, if_neg hc, str_cons hc, List.length_cons, ih]

theorem strcmp_eq_zero_iff (a b : List UInt8) : strcmp a b = 0 ↔ str a = str b := by
  induction a generalizing b with
  | nil =>
    cases b with
    | nil => simp [strcmp]
    | cons b bs =>
      by_cases hb : b = 0
      · subst hb; simp [strcmp]
      · have : b.toNat ≠ 0 := fun h => hb (UInt8.toNat_inj.mp h)
        rw [strcmp, str_cons hb, str_nil]
        simp [this]
  | cons a as ih =>
    cases b with
    | nil =>
      by_cases ha : a = 0
      · subst ha; simp [strcmp]
      · have : a.toNat ≠ 0 := fun h => ha (UInt8.toNat_inj.mp h)
        rw [strcmp, str_cons ha, str_nil]
        simp [this]
    | cons b bs =>
      by_cases hab : a = b
      · subst hab
        by_cases ha : a = 0
        · subst ha; simp [strcmp]
        · rw [strcmp, if_pos ⟨ha, rfl⟩, str_cons ha, str_cons ha, ih]
          simp
      · have hne : (a.toNat : Int) - b.toNat ≠ 0 := by
          intro h
          exact hab (UInt8.toNat_inj.mp (by omega))
        rw [strcmp, if_neg (fun h => hab h.2)]
        refine iff_of_false hne ?_
        intro h
        by_cases ha : a = 0
        · subst ha
          rw [str_zero, str_cons (Ne.symm hab)] at h
          cases h
        · by_cases hb : b = 0
          · subst hb
            rw [str_zero, str_cons ha] at h
            cases h
          · rw [str_cons ha, str_cons hb] at h
            exact hab (List.cons.inj h).1

theorem strcmp_neg (a b : List UInt8) : -strcmp a b = strcmp b a := by
  induction a generalizing b with
  | nil =>
    cases b with
    | nil => rfl
    | cons b bs => exact Int.neg_neg _
  | cons a as ih =>
    cases b with
    | nil => rfl
    | cons b bs =>
      rw [strcmp, strcmp]
      by_cases hab : a ≠ 0 ∧ a = b
      · rw [if_pos hab, if_pos ⟨hab.2 ▸ hab.1, hab.2.symm⟩]
        exact ih bs
      · have hba : ¬(b ≠ 0 ∧ b = a) := fun h => hab ⟨h.2 ▸ h.1, h.2.symm⟩
        rw [if_neg hab, if_neg hba]
        omega

/-- The order of `strcmp` is the one of the lists. -/
theorem strcmp_neg_iff (a b : List UInt8) : strcmp a b < 0 ↔ str a < str b := by
  have hpos : ∀ {c : UInt8}, c ≠ 0 → 0 < c.toNat := fun hc =>
    Nat.pos_of_ne_zero fun h => hc (UInt8.toNat_inj.mp h)
  induction a generalizing b with
  | nil =>
    cases b with
    | nil => simp [strcmp]
    | cons b bs =>
      by_cases hb : b = 0
      · subst hb; simp [strcmp]
      · have := hpos hb
        rw [strcmp, str_cons hb]
        exact iff_of_true (by omega) (List.nil_lt_cons b _)
  | cons a as ih =>
    cases b with
    | nil =>
      rw [strcmp, str_nil]
      exact iff_of_false (by omega) (List.not_lt_nil _)
    | cons b bs =>
      rw [strcmp]
      by_cases ha : a = 0
      · subst ha
        rw [if_neg (fun h => h.1 rfl), str_zero]
        by_cases hb : b = 0
        · subst hb; simp
        · have := hpos hb
          rw [str_cons hb]
          exact iff_of_true (by simp; omega) (List.nil_lt_cons b _)
      · rw [str_cons ha]
        by_cases hb : b = 0
        · subst hb
          rw [if_neg fun h => ha h.2, str_zero]
          exact iff_of_false (by simp) (List.not_lt_nil _)
        · rw [str_cons hb, List.cons_lt_cons_iff]
          by_cases hab : a = b
          · rw [if_pos ⟨ha, hab⟩]
            simp [hab, ih bs]
          · rw [if_neg fun h => hab h.2, UInt8.lt_iff_toNat_lt]
            simp only [hab, false_and, or_false]
            omega

theorem strcmp_pos_iff (a b : List UInt8) : strcmp a b > 0 ↔ str b < str a := by
  rw [← strcmp_neg_iff, ← strcmp_neg a b]
  omega

/-- `strncmp` on the length of `a`. -/
theorem strncmp_strlen_iff (s a : List UInt8) : strncmp s a (strlen a) = 0 ↔ str a <+: str s := by
  induction a generalizing s with
  | nil =>
    rw [str_nil]
    exact iff_of_true (by cases s <;> rfl) List.nil_prefix
  | cons c a ih =>
    by_cases hc : c = 0
    · subst hc
      rw [strlen, if_pos rfl, str_zero]
      exact iff_of_true (by cases s <;> rfl) List.nil_prefix
    · rw [strlen, if_neg hc, str_cons hc]
      cases s with
      | nil =>
        have : c.toNat ≠ 0 := fun h => hc (UInt8.toNat_inj.mp h)
        rw [strncmp, str_nil]
        exact iff_of_false (by omega) (by simp)
      | cons x s =>
        rw [strncmp]
        by_cases hx : x = c
        · subst hx
          rw [if_pos ⟨hc, rfl⟩, str_cons hc, List.cons_prefix_cons, ih]
          simp
        · have hne : (x.toNat : Int) - c.toNat ≠ 0 := fun h => hx (UInt8.toNat_inj.mp (by omega))
          rw [if_neg fun h => hx h.2]
          refine iff_of_false hne ?_
          by_cases hx0 : x = 0
          · subst hx0; simp
          · rw [str_cons hx0, List.cons_prefix_cons]
            exact fun h => hx h.1.symm

/-- A string behind `u`. -/
theorem strncmp_append {u : List UInt8} (h0 : 0 ∉ u) (s : List UInt8) :
    strncmp (u ++ s) u u.length = 0 := by
  have hlen : strlen u = u.length := by rw [strlen_eq, str_of_not_mem h0]
  rw [← hlen, strncmp_strlen_iff, str_append h0, str_of_not_mem h0]
  exact List.prefix_append u (str s)

/-- `strchr` finds the first occurrence. -/
theorem strchr_spec (s : List UInt8) {c : UInt8} (hc : c ≠ 0) :
    (strchr s c = none ∧ c ∉ str s) ∨
      ∃ u v, str s = u ++ c :: v ∧ c ∉ u ∧ strchr s c = some u.length := by
  induction s with
  | nil => exact .inl ⟨rfl, by simp⟩
  | cons x s ih =>
    by_cases hx : x = 0
    · subst hx
      exact .inl ⟨by simp [strchr], by simp⟩
    · rw [strchr, if_neg hx, str_cons hx]
      by_cases hxc : x = c
      · subst hxc
        exact .inr ⟨[], str s, rfl, by simp, by simp⟩
      · rw [if_neg hxc]
        rcases ih with ⟨h1, h2⟩ | ⟨u, v, h1, h2, h3⟩
        · exact .inl ⟨by rw [h1]; rfl, by simp [Ne.symm hxc, h2]⟩
        · refine .inr ⟨x :: u, v, by rw [h1]; rfl, ?_, by rw [h3]; rfl⟩
          simp [Ne.symm hxc, h2]

theorem strchr_isNone_iff (s : List UInt8) {c : UInt8} (hc : c ≠ 0) :
    (strchr s c).isNone ↔ c ∉ str s := by
  rcases strchr_spec s hc with ⟨h1, h2⟩ | ⟨u, v, h1, _, h3⟩
  · rw [h1]
    exact iff_of_true rfl h2
  · rw [h3, h1]
    refine iff_of_false (by simp) ?_
    simp

theorem strrchrLoop_spec {c : UInt8} (hc : c ≠ 0) (s : List UInt8) (i : Nat) (last : Option Nat) :
    (strrchrLoop c i last s = last ∧ c ∉ str s) ∨
      ∃ u v, str s = u ++ c :: v ∧ c ∉ v ∧ strrchrLoop c i last s = some (i + u.length) := by
  induction s generalizing i last with
  | nil => exact .inl ⟨by simp [strrchrLoop, Ne.symm hc], by simp⟩
  | cons x s ih =>
    by_cases hx : x = 0
    · subst hx
      exact .inl ⟨by simp [strrchrLoop, Ne.symm hc], by simp⟩
    · rw [strrchrLoop, if_neg hx, str_cons hx]
      rcases ih (i + 1) (if x = c then some i else last) with ⟨h1, h2⟩ | ⟨u, v, h1, h2, h3⟩
      · by_cases hxc : x = c
        · subst hxc
          exact .inr ⟨[], str s, rfl, h2, by rw [h1]; simp⟩
        · exact .inl ⟨by rw [h1, if_neg hxc], by simp [Ne.symm hxc, h2]⟩
      · refine .inr ⟨x :: u, v, by rw [h1]; rfl, h2, ?_⟩
        rw [h3, List.length_cons]
        congr 1
        omega

/-- `strrchr` finds the last occurrence. -/
theorem strrchr_spec (s : List UInt8) {c : UInt8} (hc : c ≠ 0) :
    (strrchr s c = none ∧ c ∉ str s) ∨
      ∃ u v, str s = u ++ c :: v ∧ c ∉ v ∧ strrchr s c = some u.length := by
  have h := strrchrLoop_spec hc s 0 none
  simpa [strrchr] using h

/-! ## Copying -/

theorem strcpyLoop_eq (dest : Chars n) (d : Nat) (src : List UInt8) :
    strcpyLoop dest d src = dest.write d (str src ++ [0]) := by
  induction src generalizing dest d with
  | nil => simp [strcpyLoop, Chars.write_singleton]
  | cons c src ih =>
    by_cases hc : c = 0
    · subst hc; simp [strcpyLoop, Chars.write_singleton]
    · rw [strcpyLoop, str_cons hc, List.cons_append, Chars.write]
      simp only [if_neg hc, Option.bind_eq_bind]
      congr 1
      funext b
      exact ih b (d + 1)

theorem strcpy_eq (dest : Chars n) (src : List UInt8) :
    strcpy dest src = dest.write 0 (str src ++ [0]) := strcpyLoop_eq dest 0 src

theorem strncpyZeros_eq (dest : Chars n) (d k : Nat) :
    strncpyZeros dest d k = dest.write d (List.replicate k 0) := by
  induction k generalizing dest d with
  | zero => rfl
  | succ k ih =>
    rw [strncpyZeros, List.replicate_succ, Chars.write]
    simp only [Option.bind_eq_bind]
    congr 1
    funext b
    exact ih b (d + 1)

theorem strncpy_eq (dest : Chars n) (d : Nat) (src : List UInt8) (k : Nat) :
    strncpy dest d src k =
      dest.write d ((str src).take k ++ List.replicate (k - (str src).length) 0) := by
  unfold strncpy
  induction k generalizing dest d src with
  | zero => simp [strncpyLoop, Chars.write]
  | succ k ih =>
    cases src with
    | nil => rw [strncpyLoop, strncpyZeros_eq]; simp
    | cons c src =>
      by_cases hc : c = 0
      · subst hc
        rw [strncpyLoop, if_pos rfl, strncpyZeros_eq]
        simp
      · rw [strncpyLoop, if_neg hc, str_cons hc, List.take_succ_cons, List.cons_append,
          List.length_cons, Nat.add_sub_add_right, Chars.write]
        simp only [Option.bind_eq_bind]
        congr 1
        funext b
        exact ih b (d + 1) src

theorem strcatLoop_eq (dest : Chars n) (d : Nat) (src : List UInt8) :
    strcatLoop dest d src = dest.write d (str src ++ [0]) := by
  induction src generalizing dest d with
  | nil => simp [strcatLoop, Chars.write_singleton]
  | cons c src ih =>
    by_cases hc : c = 0
    · subst hc; simp [strcatLoop, Chars.write_singleton]
    · rw [strcatLoop, if_neg hc, str_cons hc, List.cons_append, Chars.write]
      simp only [Option.bind_eq_bind]
      congr 1
      funext b
      exact ih b (d + 1)

theorem strcat_eq (dest : Chars n) (src : List UInt8) :
    strcat dest src = dest.write (str dest.bytes).length (str src ++ [0]) := by
  rw [strcat, strcatLoop_eq, strlen_eq]

theorem strncatLoop_eq (dest : Chars n) (d k : Nat) (src : List UInt8) :
    strncatLoop dest d k src = dest.write d ((str src).take k ++ [0]) := by
  induction k generalizing dest d src with
  | zero => simp [strncatLoop, Chars.write_singleton]
  | succ k ih =>
    cases src with
    | nil => simp [strncatLoop, Chars.write_singleton]
    | cons c src =>
      by_cases hc : c = 0
      · subst hc; simp [strncatLoop, Chars.write_singleton]
      · rw [strncatLoop, if_neg hc, str_cons hc, List.take_succ_cons, List.cons_append,
          Chars.write]
        simp only [Option.bind_eq_bind]
        congr 1
        funext b
        exact ih b (d + 1) src

theorem strncat_eq (dest : Chars n) (src : List UInt8) (k : Nat) :
    strncat dest src k = dest.write (str dest.bytes).length ((str src).take k ++ [0]) := by
  rw [strncat, strncatLoop_eq, strlen_eq]

theorem memcpyLoop_eq (dest : Chars n) (d k : Nat) (src : List UInt8) (hk : k ≤ src.length) :
    memcpyLoop dest d k src = dest.write d (src.take k) := by
  induction k generalizing dest d src with
  | zero => rfl
  | succ k ih =>
    cases src with
    | nil => simp at hk
    | cons c src =>
      rw [memcpyLoop, List.take_succ_cons, Chars.write]
      simp only [Option.bind_eq_bind, List.headD_cons, List.tail_cons]
      congr 1
      funext b
      exact ih b (d + 1) src (by simpa using hk)

/-! ## What the copies leave -/

theorem strcpy_spec (dest : Chars n) (src : List UInt8) (h : (str src).length < n) :
    ∃ b, strcpy dest src = some b ∧ str b.bytes = str src := by
  obtain ⟨b, hb, _⟩ := dest.write_eq 0 (str src ++ [0]) (by simp; omega)
  refine ⟨b, by rw [strcpy_eq, hb], ?_⟩
  rw [Chars.str_write (zero_not_mem_str src) (Nat.zero_le _) hb]
  simp

theorem strcpy_fits {dest b : Chars n} {src : List UInt8} (h : strcpy dest src = some b) :
    (str src).length < n ∧ str b.bytes = str src := by
  rw [strcpy_eq] at h
  obtain ⟨hfit, _⟩ := Chars.bytes_write (by simp) h
  rw [List.length_append, List.length_singleton] at hfit
  refine ⟨by omega, ?_⟩
  rw [Chars.str_write (zero_not_mem_str src) (Nat.zero_le _) h]
  simp

theorem strcat_spec (dest : Chars n) (src : List UInt8)
    (h : (str dest.bytes).length + (str src).length < n) :
    ∃ b, strcat dest src = some b ∧ str b.bytes = str dest.bytes ++ str src := by
  obtain ⟨b, hb, _⟩ := dest.write_eq (str dest.bytes).length (str src ++ [0]) (by simp; omega)
  refine ⟨b, by rw [strcat_eq, hb], ?_⟩
  rw [Chars.str_write (zero_not_mem_str src) (Nat.le_refl _) hb]
  simp

theorem strcat_fits {dest b : Chars n} {src : List UInt8} (h : strcat dest src = some b) :
    (str dest.bytes).length + (str src).length < n ∧
      str b.bytes = str dest.bytes ++ str src := by
  rw [strcat_eq] at h
  obtain ⟨hfit, _⟩ := Chars.bytes_write (by simp) h
  rw [List.length_append, List.length_singleton] at hfit
  refine ⟨by omega, ?_⟩
  rw [Chars.str_write (zero_not_mem_str src) (Nat.le_refl _) h]
  simp

theorem zero_not_mem_take_str (s : List UInt8) (k : Nat) : 0 ∉ (str s).take k :=
  fun h => zero_not_mem_str s (List.mem_of_mem_take h)

theorem strncat_spec (dest : Chars n) (src : List UInt8) (k : Nat)
    (h : (str dest.bytes).length + ((str src).take k).length < n) :
    ∃ b, strncat dest src k = some b ∧ str b.bytes = str dest.bytes ++ (str src).take k := by
  obtain ⟨b, hb, _⟩ :=
    dest.write_eq (str dest.bytes).length ((str src).take k ++ [0])
      (by rw [List.length_append, List.length_singleton]; omega)
  refine ⟨b, by rw [strncat_eq, hb], ?_⟩
  rw [Chars.str_write (zero_not_mem_take_str src k) (Nat.le_refl _) hb]
  simp

/-- `strncpy(dest + d, src, k); dest[d + k] = '\0';` puts the first `k` bytes of
`src` at `d`, where the string before was at least `d` long. -/
theorem strncpy_put_spec (dest : Chars n) (d : Nat) (src : List UInt8) (k : Nat) (hk : d + k < n)
    (hd : d ≤ (str dest.bytes).length) :
    ∃ b b', strncpy dest d src k = some b ∧ b.put (d + k) 0 = some b' ∧
      str b'.bytes = (str dest.bytes).take d ++ (str src).take k := by
  have hlen : ((str src).take k ++ List.replicate (k - (str src).length) 0).length = k := by
    simp; omega
  obtain ⟨b, hb, hbytes⟩ := dest.write_eq d _ (by rw [hlen]; omega)
  obtain ⟨b', hb', hbytes'⟩ := Chars.put_eq (b := b) hk 0
  refine ⟨b, b', by rw [strncpy_eq, hb], hb', ?_⟩
  have h0 : 0 ∉ (str dest.bytes).take d ++ (str src).take k := by
    rw [List.mem_append, not_or]
    exact ⟨zero_not_mem_take_str _ d, zero_not_mem_take_str src k⟩
  have hdlen : ((str dest.bytes).take d).length = d := by
    rw [List.length_take]; omega
  rw [hlen, take_str_of_le hd, ← List.append_assoc, List.append_assoc (_ ++ _)] at hbytes
  have hP : ((str dest.bytes).take d ++ (str src).take k).length ≤ d + k := by
    rw [List.length_append, hdlen, List.length_take]; omega
  rw [hbytes', hbytes, List.set_append_right _ _ hP]
  -- the byte behind the copy is the first NUL filled in, or the one put last
  cases hz : k - (str src).length with
  | zero =>
    have hlast : d + k - ((str dest.bytes).take d ++ (str src).take k).length = 0 := by
      rw [List.length_append, hdlen, List.length_take]; omega
    have hdrop : dest.bytes.drop (d + k) ≠ [] := by
      intro h
      have := dest.length_eq
      rw [List.drop_eq_nil_iff] at h
      omega
    obtain ⟨x, t, ht⟩ := List.exists_cons_of_ne_nil hdrop
    rw [hlast, ht, List.replicate_zero, List.nil_append, List.set_cons_zero]
    exact str_append_zero h0 t
  | succ z =>
    have hlast : d + k - ((str dest.bytes).take d ++ (str src).take k).length = z + 1 := by
      rw [List.length_append, hdlen, List.length_take]; omega
    rw [hlast, List.replicate_succ, List.cons_append, List.set_cons_succ]
    exact str_append_zero h0 _

end MiniOS
