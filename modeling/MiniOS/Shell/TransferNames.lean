import MiniOS.Shell.Transfer

/-!
# Which files a transfer hits

For a line of two tokens the paths are those of the tokens cut to 31 characters,
for `mov` with the base name joined to the directory (`transfer_spec`).  So a
command acts on the files named exactly if both tokens have at most 31
characters, or if the cut line fails (`transfer_names_iff`).
-/

namespace MiniOS

open Lib

/-- What a token of a command line is. -/
structure Token (a : List UInt8) : Prop where
  nonempty : a ≠ []
  nul : 0 ∉ a
  space : ch ' ' ∉ a
  tab : ch '\t' ∉ a

/-- The part of a path behind its last `/`. -/
def baseName (path : List UInt8) : List UInt8 :=
  (path.reverse.takeWhile (· ≠ ch '/')).reverse

/-- The entry a transfer creates. -/
def TransferKind.target (k : TransferKind) (src dst : List UInt8) : List UInt8 :=
  if k = .mov then withSlash dst ++ baseName src else dst

/-- Why a transfer between these paths fails: no such directory, no such file, or a
destination that cannot be created. -/
def TransferKind.Blocked (k : TransferKind) (m : FsMap) (src dst : List UInt8) : Prop :=
  (k = .mov ∧ dst ≠ text "/" ∧ m.lookup dst ≠ some .dir) ∨
    (∀ bytes, m.lookup src ≠ some (.file bytes)) ∨ ¬ Creatable m ((k.target src dst).take 63)

/-- What a command does between these paths: it fails, or it reads the one and creates
the other. -/
def TransferKind.Does (k : TransferKind) (m : FsMap) (src dst : List UInt8) (r : Transfer) :
    Prop :=
  (k.Blocked m src dst ∧ ∀ p q, r.outcome ≠ .done p q) ∨
    (¬ k.Blocked m src dst ∧ r.outcome = .done src ((k.target src dst).take 63) ∧
      ∃ bytes, m.lookup src = some (.file bytes) ∧ Creatable m ((k.target src dst).take 63) ∧
        fsMap r.table =
          moved (k != .cpy) (m.insert ((k.target src dst).take 63) (.file bytes)) src)

/-! ## The line -/

theorem skipSpaces_of_ne {s : List UInt8} (h1 : s.headD 0 ≠ ch ' ') (h2 : s.headD 0 ≠ ch '\t') :
    skipSpaces s = s := by
  cases s with
  | nil => rfl
  | cons c s =>
    rw [skipSpaces, if_neg]
    rintro (h | h)
    · exact h1 h
    · exact h2 h

/-- A name at the start of the line is not skipped. -/
theorem skipSpaces_append {a : List UInt8} (hne : a ≠ []) (hspace : ch ' ' ∉ a)
    (htab : a.headD 0 ≠ ch '\t') (t : List UInt8) : skipSpaces (a ++ t) = a ++ t := by
  apply skipSpaces_of_ne
  · rw [headD_append hne]
    intro heq
    exact hspace (heq ▸ headD_mem hne)
  · rw [headD_append hne]
    exact htab

theorem Token.headD_ne_tab {a : List UInt8} (h : Token a) : a.headD 0 ≠ ch '\t' := by
  intro heq
  exact h.tab (heq ▸ headD_mem h.nonempty)

theorem strchr_append {a : List UInt8} {c : UInt8} (hc : c ≠ 0) (h0 : 0 ∉ a) (ha : c ∉ a)
    (t : List UInt8) : strchr (a ++ c :: t) c = some a.length := by
  induction a with
  | nil =>
    show strchr (c :: t) c = some 0
    rw [strchr, if_neg hc, if_pos rfl]
  | cons x a ih =>
    rw [List.mem_cons, not_or] at h0 ha
    rw [List.cons_append, strchr, if_neg (Ne.symm h0.1), if_neg (Ne.symm ha.1), ih h0.2 ha.2]
    rfl

/-- The copy of a name in front of a space, cut to 31 characters. -/
theorem cutName_spec {a : List UInt8} (h0 : 0 ∉ a) (b : List UInt8) :
    ∃ c c', strncpy (Chars.uninit 32) 0 (a ++ ch ' ' :: b)
        (if a.length ≥ 32 then 32 - 1 else a.length) = some c ∧
      c.put (if a.length ≥ 32 then 32 - 1 else a.length) 0 = some c' ∧ str c'.bytes = a.take 31 := by
  have hlen : (if a.length ≥ 32 then 32 - 1 else a.length) = min a.length 31 := by
    split <;> omega
  have hcut : (str (a ++ ch ' ' :: b)).take (min a.length 31) = a.take 31 := by
    rw [str_append h0, List.take_append_of_le_length (Nat.min_le_left _ _)]
    by_cases h : a.length ≤ 31
    · rw [Nat.min_eq_left h, List.take_length, List.take_of_length_le h]
    · rw [Nat.min_eq_right (by omega)]
  obtain ⟨c, c', hc, hc', hs⟩ := strncpy_put_spec (Chars.uninit 32) 0 (a ++ ch ' ' :: b)
    (min a.length 31) (by omega) (Nat.zero_le _)
  rw [Nat.zero_add] at hc'
  rw [List.take_zero, List.nil_append, hcut] at hs
  rw [hlen]
  exact ⟨c, c', hc, hc', hs⟩

theorem cut_ne_nil {x : List UInt8} (hx : x ≠ []) : x.take 31 ≠ [] := by
  rw [Ne, List.take_eq_nil_iff]
  rintro (h | h)
  · cases h
  · exact hx h

theorem cut_get_zero {c : Chars 32} {x : List UInt8} (hx : x ≠ []) (hc : str c.bytes = x.take 31) :
    c.get 0 ≠ 0 := by
  rw [Chars.get_zero, Ne, ← str_eq_nil_iff, hc]
  exact cut_ne_nil hx

/-- A name and what follows its space are read, each cut to 31 characters. -/
theorem twoArgs_read {a b : List UInt8} (h0 : 0 ∉ a) (hspace : ch ' ' ∉ a)
    (htab : a.headD 0 ≠ ch '\t') (hne : a ≠ []) (hb : str (skipSpaces b) ≠ []) :
    ∃ src dst, twoArgs (a ++ ch ' ' :: b) = some (some (src, dst)) ∧
      str src.bytes = a.take 31 ∧ str dst.bytes = (str (skipSpaces b)).take 31 := by
  have hchr : strchr (a ++ ch ' ' :: b) (ch ' ') = some a.length :=
    strchr_append (by decide) h0 hspace b
  have hskip : skipSpaces (a ++ ch ' ' :: b) = a ++ ch ' ' :: b :=
    skipSpaces_append hne hspace htab _
  have hrest : skipSpaces ((a ++ ch ' ' :: b).drop a.length) = skipSpaces b := by
    rw [List.drop_left]
    show skipSpaces (ch ' ' :: b) = skipSpaces b
    rw [skipSpaces, if_pos (.inl rfl)]
  obtain ⟨s₁, src, h1, h2, hsrc⟩ := cutName_spec h0 b
  obtain ⟨d₁, dst, h3, h4, hdst⟩ := strncpy_put_spec (Chars.uninit 32) 0 (skipSpaces b) (32 - 1)
    (by omega) (Nat.zero_le _)
  rw [Nat.zero_add] at h4
  rw [List.take_zero, List.nil_append] at hdst
  refine ⟨src, dst, ?_, hsrc, hdst⟩
  unfold twoArgs
  rw [hskip]
  simp only [hchr, hrest, h1, h2, h3, h4, Option.bind_eq_bind, Option.bind_some]
  rw [if_neg]
  rintro (h | h)
  · exact cut_get_zero hne hsrc h
  · exact cut_get_zero hb hdst h

/-- Two tokens are read, each cut to 31 characters. -/
theorem twoArgs_spec {a b : List UInt8} (ha : Token a) (hb : Token b) :
    ∃ src dst, twoArgs (a ++ ch ' ' :: b) = some (some (src, dst)) ∧
      str src.bytes = a.take 31 ∧ str dst.bytes = b.take 31 := by
  have hskip : skipSpaces b = b := by
    have := skipSpaces_append hb.nonempty hb.space hb.headD_ne_tab []
    rwa [List.append_nil] at this
  have hstr : str (skipSpaces b) = b := by
    rw [hskip, str_of_not_mem hb.nul]
  obtain ⟨src, dst, h, hsrc, hdst⟩ := twoArgs_read ha.nul ha.space
    ha.headD_ne_tab ha.nonempty (b := b) (by rw [hstr]; exact hb.nonempty)
  rw [hstr] at hdst
  exact ⟨src, dst, h, hsrc, hdst⟩

theorem str_basename (s : List UInt8) : str (basename s) = baseName (str s) := by
  unfold basename baseName
  rcases strrchr_spec s (c := ch '/') (by decide) with ⟨h1, h2⟩ | ⟨u, v, h1, h2, h3⟩
  · rw [h1]
    have hall : (str s).reverse.takeWhile (· ≠ ch '/') = (str s).reverse := by
      rw [List.takeWhile_eq_self_iff]
      intro x hx
      rw [List.mem_reverse] at hx
      have : x ≠ ch '/' := by
        rintro rfl
        exact h2 hx
      simpa using this
    rw [hall, List.reverse_reverse]
  · rw [h3]
    show str (s.drop (u.length + 1)) = _
    rw [str_drop (by rw [h1]; simp), h1]
    have hrev : (u ++ ch '/' :: v).reverse = v.reverse ++ ch '/' :: u.reverse := by simp
    have htake : (v.reverse ++ ch '/' :: u.reverse).takeWhile (· ≠ ch '/') = v.reverse := by
      rw [List.takeWhile_append_of_pos]
      · simp
      · intro x hx
        rw [List.mem_reverse] at hx
        have : x ≠ ch '/' := by
          rintro rfl
          exact h2 hx
        simpa using this
    rw [hrev, htake, List.reverse_reverse]
    simp

theorem joinBasename_spec (pathSrc pathDst : Chars 64) (h : (str pathDst.bytes).length ≤ 62) :
    ∃ b, joinBasename pathSrc pathDst = some b ∧
      str b.bytes = (withSlash (str pathDst.bytes) ++ baseName (str pathSrc.bytes)).take 63 := by
  have hw := (withSlash_length (str pathDst.bytes)).1
  obtain ⟨p, hp, hps⟩ := appendSlash_spec pathDst h
  have hplen : (str p.bytes).length ≤ 63 := by rw [hps]; omega
  have hu : u32 (63 + 2 ^ 32 - (str p.bytes).length) = 63 - (str p.bytes).length := by
    unfold u32
    omega
  obtain ⟨c, hc, hcs⟩ := strncat_spec p (basename pathSrc.bytes) (63 - (str p.bytes).length)
    (by rw [List.length_take]; omega)
  obtain ⟨b, hb, hbs⟩ := put_last (b := c)
    (by rw [hcs, List.length_append, List.length_take]; omega)
  refine ⟨b, ?_, ?_⟩
  · unfold joinBasename
    simp only [Option.bind_eq_bind, hp, Option.bind_some, strlen_eq, hu, hc]
    exact hb
  · rw [hbs, hcs, str_basename, ← hps, List.take_append, List.take_of_length_le hplen]

theorem joinPath_length (dir : List UInt8) {a : List UInt8} (ha : a ≠ []) :
    (joinPath dir a).length =
      (if a.headD 0 = ch '/' then 0 else (withSlash dir).length) + a.length := by
  unfold joinPath
  rw [if_neg ha]
  split
  · omega
  · rw [List.length_append]

theorem headD_take {a : List UInt8} {n : Nat} (hn : 0 < n) : (a.take n).headD 0 = a.headD 0 := by
  obtain ⟨n, rfl⟩ : ∃ m, n = m + 1 := ⟨n - 1, by omega⟩
  cases a <;> rfl

/-- The path of a cut token is as much shorter as the token. -/
theorem joinPath_take_length (dir : List UInt8) {a : List UInt8} (ha : a ≠ []) :
    (joinPath dir (a.take 31)).length + (a.length - min 31 a.length) =
      (joinPath dir a).length := by
  have hcut : a.take 31 ≠ [] := by
    rw [Ne, List.take_eq_nil_iff, not_or]
    exact ⟨by decide, ha⟩
  rw [joinPath_length dir hcut, joinPath_length dir ha, headD_take (by decide), List.length_take]
  omega

/-- A token whose path fits is resolved. -/
theorem resolveToken_spec (currentDir : Chars 64) {src : Chars 32} {a : List UInt8}
    (ha : a ≠ []) (hs : str src.bytes = a.take 31)
    (hlen : (joinPath (str currentDir.bytes) a).length ≤ 63) :
    ∃ p, resolvePath currentDir src.bytes (Chars.uninit 64) = some p ∧
      str p.bytes = joinPath (str currentDir.bytes) (a.take 31) := by
  have hcut := joinPath_take_length (str currentDir.bytes) ha
  have hhead : src.bytes.headD 0 = a.headD 0 := by
    rw [← headD_str, hs, headD_take (by decide)]
  have hfits : (str src.bytes = [] ∧ (str currentDir.bytes).length ≤ 63) ∨
      src.bytes.headD 0 = ch '/' ∨ (str currentDir.bytes).length ≤ 62 := by
    by_cases hr : a.headD 0 = ch '/'
    · exact .inr (.inl (by rw [hhead, hr]))
    · have hpos : 0 < a.length := List.length_pos_iff.mpr ha
      have hl := joinPath_length (str currentDir.bytes) ha
      rw [if_neg hr] at hl
      by_cases hroot : str currentDir.bytes = text "/"
      · rw [hroot]
        exact .inr (.inr (by decide))
      · have := (withSlash_length (str currentDir.bytes)).2 hroot
        exact .inr (.inr (by omega))
  obtain ⟨p, hp, hps⟩ := resolvePath_spec currentDir src.bytes (Chars.uninit 64) hfits
  refine ⟨p, hp, ?_⟩
  rw [hps, hs, List.take_of_length_le (by omega)]

/-! ## The commands -/

/-- The transfer itself, once both paths stand. -/
theorem transferFile_does {t : FsTable} (ht : TableInv t) (k : TransferKind) (pathSrc q : Chars 64)
    (verb : List UInt8) {d : List UInt8}
    (hq : str q.bytes = (k.target (str pathSrc.bytes) d).take 63)
    (hdir : ¬ (k = .mov ∧ d ≠ text "/" ∧ (fsMap t).lookup d ≠ some .dir)) :
    ∃ r, transferFile t pathSrc q (k != .cpy) verb = some r ∧
      k.Does (fsMap t) (str pathSrc.bytes) d r := by
  obtain ⟨r, hr, _, hcase⟩ := transferFile_spec ht pathSrc q (k != .cpy) verb
  rw [hq] at hcase
  refine ⟨r, hr, ?_⟩
  rcases hcase with ⟨hblocked, _, hout⟩ | ⟨bytes, hlook, hcr, hout, hmap⟩
  · exact .inl ⟨.inr hblocked, hout⟩
  · refine .inr ⟨?_, hout, bytes, hlook, hcr, hmap⟩
    rintro (hb | hb | hb)
    · exact hdir hb
    · exact hb bytes hlook
    · exact hb hcr

/-- `cpy` and `rename`, once the line is read and both paths are resolved. -/
theorem transferCmd_does {s : Shell} (ht : TableInv s.table) {k : TransferKind} (hk : k ≠ .mov)
    {arg : List UInt8} {src dst : Chars 32} {pathSrc pathDst : Chars 64}
    (hargs : twoArgs arg = some (some (src, dst)))
    (hps : resolvePath s.currentDir src.bytes (Chars.uninit 64) = some pathSrc)
    (hpd : resolvePath s.currentDir dst.bytes (Chars.uninit 64) = some pathDst)
    (hlen : (str pathDst.bytes).length ≤ 63) (usage verb : List UInt8) :
    ∃ r, transferCmd s arg usage (k != .cpy) verb = some r ∧
      k.Does (fsMap s.table) (str pathSrc.bytes) (str pathDst.bytes) r := by
  have htarget : k.target (str pathSrc.bytes) (str pathDst.bytes) = str pathDst.bytes := if_neg hk
  obtain ⟨r, hr, hdoes⟩ := transferFile_does ht k pathSrc pathDst verb (d := str pathDst.bytes)
    (by rw [htarget, List.take_of_length_le hlen]) (fun hm => hk hm.1)
  refine ⟨r, ?_, hdoes⟩
  unfold transferCmd
  simp only [hargs, hps, hpd, hr, Option.bind_eq_bind, Option.bind_some]

/-- `mov`, once the line is read and both paths are resolved. -/
theorem cmdMov_does {s : Shell} (ht : TableInv s.table) {arg : List UInt8} {src dst : Chars 32}
    {pathSrc pathDst : Chars 64} (hargs : twoArgs arg = some (some (src, dst)))
    (hps : resolvePath s.currentDir src.bytes (Chars.uninit 64) = some pathSrc)
    (hpd : resolvePath s.currentDir dst.bytes (Chars.uninit 64) = some pathDst)
    (hlen : (str pathDst.bytes).length ≤ 62) :
    ∃ r, cmdMov s arg = some r ∧
      TransferKind.mov.Does (fsMap s.table) (str pathSrc.bytes) (str pathDst.bytes) r := by
  have hisDir := fsIsDir_iff s.table pathDst.bytes
  by_cases hdir : fsIsDir s.table pathDst.bytes
  · obtain ⟨q, hq, hqs⟩ := joinBasename_spec pathSrc pathDst hlen
    have hdest : ¬ (TransferKind.mov = .mov ∧ str pathDst.bytes ≠ text "/" ∧
        (fsMap s.table).lookup (str pathDst.bytes) ≠ some .dir) := by
      rintro ⟨_, h1, h2⟩
      rcases hisDir.mp hdir with h | h
      · exact h1 h
      · exact h2 h
    obtain ⟨r, hr, hdoes⟩ := transferFile_does ht .mov pathSrc q (text "Moved: ") hqs hdest
    refine ⟨r, ?_, hdoes⟩
    unfold cmdMov
    simp only [hargs, hps, hpd, hdir, hq, Option.bind_eq_bind, Option.bind_some, if_true]
    exact hr
  · refine ⟨⟨.noDirectory (str pathDst.bytes), text "Error: Destination directory '" ++
      str pathDst.bytes ++ text "' does not exist.\n", s.table⟩, ?_, .inl ⟨.inl ⟨rfl, ?_, ?_⟩, ?_⟩⟩
    · unfold cmdMov
      simp only [hargs, hps, hpd, hdir, Option.bind_eq_bind, Option.bind_some]
      rfl
    · intro hroot
      exact hdir (hisDir.mpr (.inl hroot))
    · intro hl
      exact hdir (hisDir.mpr (.inr hl))
    · intro p q hout
      cases hout

/-- The destination of a `mov` that fits leaves room for the `/` behind it. -/
theorem joinPath_take_room (dir : List UInt8) {b base : List UInt8} (hb : b ≠ [])
    (hQ : (withSlash (joinPath dir b) ++ base).length ≤ 63) :
    (joinPath dir (b.take 31)).length ≤ 62 := by
  have hcut := joinPath_take_length dir hb
  rw [List.length_append] at hQ
  by_cases hroot : joinPath dir b = text "/"
  · rw [hroot, show (text "/").length = 1 from rfl] at hcut
    omega
  · have := (withSlash_length (joinPath dir b)).2 hroot
    omega

/-- **The command line.**  The paths of the cut tokens decide; a transfer that is not
blocked reads the one and creates the other. -/
theorem transfer_spec {s : Shell} (h : ShellInv s) (k : TransferKind) {a b : List UInt8}
    (ha : Token a) (hb : Token b)
    (hP : (joinPath (str s.currentDir.bytes) a).length ≤ 63)
    (hD : (joinPath (str s.currentDir.bytes) b).length ≤ 63)
    (hQ : (k.target (joinPath (str s.currentDir.bytes) a)
      (joinPath (str s.currentDir.bytes) b)).length ≤ 63)
    {p d : List UInt8} (hp : p = joinPath (str s.currentDir.bytes) (a.take 31))
    (hd : d = joinPath (str s.currentDir.bytes) (b.take 31)) :
    ∃ r, k.run s (a ++ ch ' ' :: b) = some r ∧ k.Does (fsMap s.table) p d r := by
  obtain ⟨src, dst, hargs, hsrc, hdst⟩ := twoArgs_spec ha hb
  obtain ⟨pathSrc, hps, hpstr⟩ := resolveToken_spec s.currentDir ha.nonempty hsrc hP
  obtain ⟨pathDst, hpd, hdstr⟩ := resolveToken_spec s.currentDir hb.nonempty hdst hD
  have hdcut := joinPath_take_length (str s.currentDir.bytes) hb.nonempty
  have hlen : (str pathDst.bytes).length ≤ 63 := by
    rw [hdstr]
    omega
  rw [hp, hd, ← hpstr, ← hdstr]
  cases k with
  | cpy => exact transferCmd_does h.table (k := .cpy) (by decide) hargs hps hpd hlen _ _
  | rename => exact transferCmd_does h.table (k := .rename) (by decide) hargs hps hpd hlen _ _
  | mov =>
    apply cmdMov_does h.table hargs hps hpd
    rw [hdstr]
    exact joinPath_take_room _ hb.nonempty hQ

/-- A transfer that succeeds reads the file `src` and creates `dst`, which is new; after
`mov` and `rename` `src` is gone. -/
def TransferKind.ActsOn (k : TransferKind) (m : FsMap) (src dst : List UInt8) (r : Transfer) :
    Prop :=
  ∀ p q, r.outcome = .done p q → p = src ∧ q = dst ∧ dst ∉ m ∧
    (∃ bytes, m.lookup src = some (.file bytes) ∧
      (fsMap r.table).lookup dst = some (.file bytes)) ∧
    (k ≠ .cpy → src ∉ fsMap r.table)

/-- The cut paths are the full ones only if nothing was cut. -/
theorem cut_eq_iff (k : TransferKind) (dir : List UInt8) {a b : List UInt8} (ha : a ≠ [])
    (hb : b ≠ []) (hD : (joinPath dir b).length ≤ 63)
    (hQ : (k.target (joinPath dir a) (joinPath dir b)).length ≤ 63) :
    (joinPath dir (a.take 31) = joinPath dir a ∧
      (k.target (joinPath dir (a.take 31)) (joinPath dir (b.take 31))).take 63 =
        k.target (joinPath dir a) (joinPath dir b)) ↔ a.length ≤ 31 ∧ b.length ≤ 31 := by
  have hacut := joinPath_take_length dir ha
  have hbcut := joinPath_take_length dir hb
  constructor
  · rintro ⟨hp, hq⟩
    have hp' := congrArg List.length hp
    have hq' := congrArg List.length hq
    refine ⟨by omega, ?_⟩
    rw [hp, List.length_take] at hq'
    unfold TransferKind.target at hq' hQ
    by_cases hk : k = .mov
    · rw [if_pos hk, if_pos hk, List.length_append, List.length_append] at hq'
      rw [if_pos hk, List.length_append] at hQ
      by_contra hlong
      -- the directory is no longer the root, and longer than the cut one
      have hroot : joinPath dir b ≠ text "/" := by
        intro hr
        have hfull := joinPath_length dir hb
        rw [hr, show (text "/").length = 1 from rfl] at hfull
        omega
      have hlt : (joinPath dir (b.take 31)).length < (joinPath dir b).length := by omega
      have h1 := (withSlash_length (joinPath dir (b.take 31))).1
      have h2 := (withSlash_length (joinPath dir b)).2 hroot
      omega
    · rw [if_neg hk, if_neg hk] at hq'
      omega
  · rintro ⟨h1, h2⟩
    rw [List.take_of_length_le h1, List.take_of_length_le h2, List.take_of_length_le hQ]
    exact ⟨rfl, rfl⟩

/-- **Which files are hit.**  For every table and every line of two tokens whose full
paths fit, the command comes back, and acts on the files named exactly if both tokens
have at most 31 characters or the transfer between the cut paths is blocked. -/
theorem transfer_names_iff {s : Shell} (h : ShellInv s) (k : TransferKind) {a b : List UInt8}
    (ha : Token a) (hb : Token b)
    (hP : (joinPath (str s.currentDir.bytes) a).length ≤ 63)
    (hD : (joinPath (str s.currentDir.bytes) b).length ≤ 63)
    (hQ : (k.target (joinPath (str s.currentDir.bytes) a)
      (joinPath (str s.currentDir.bytes) b)).length ≤ 63) :
    ∃ r, k.run s (a ++ ch ' ' :: b) = some r ∧
      (k.ActsOn (fsMap s.table) (joinPath (str s.currentDir.bytes) a)
          (k.target (joinPath (str s.currentDir.bytes) a) (joinPath (str s.currentDir.bytes) b)) r ↔
        (a.length ≤ 31 ∧ b.length ≤ 31) ∨
          k.Blocked (fsMap s.table) (joinPath (str s.currentDir.bytes) (a.take 31))
            (joinPath (str s.currentDir.bytes) (b.take 31))) := by
  obtain ⟨r, hr, hdoes⟩ := transfer_spec h k ha hb hP hD hQ rfl rfl
  refine ⟨r, hr, ?_⟩
  rw [← cut_eq_iff k (str s.currentDir.bytes) ha.nonempty hb.nonempty hD hQ]
  rcases hdoes with ⟨hblocked, hout⟩ | ⟨hfree, hout, bytes, hlook, hcr, hmap⟩
  · exact iff_of_true (fun p q hpq => absurd hpq (hout p q)) (.inr hblocked)
  · constructor
    · intro hacts
      obtain ⟨h1, h2, _⟩ := hacts _ _ hout
      exact .inl ⟨h1, h2⟩
    · rintro (⟨h1, h2⟩ | hb)
      · intro p q hpq
        rw [hout] at hpq
        cases hpq
        rw [h2, h1] at hmap
        rw [h2] at hcr
        rw [h1] at hlook
        have hne : k.target (joinPath (str s.currentDir.bytes) a)
            (joinPath (str s.currentDir.bytes) b) ≠ joinPath (str s.currentDir.bytes) a := by
          intro heq
          rw [heq] at hcr
          exact hcr.2.2.1 (Finmap.mem_of_lookup_eq_some hlook)
        refine ⟨h1, h2, hcr.2.2.1, ⟨bytes, hlook, ?_⟩, ?_⟩
        · rw [hmap]
          unfold moved
          split
          · rw [Finmap.lookup_erase_ne hne, Finmap.lookup_insert]
          · rw [Finmap.lookup_insert]
        · intro hk
          rw [hmap]
          unfold moved
          rw [if_pos (by simpa using hk)]
          exact Finmap.notMem_erase_self
      · exact absurd hb hfree

/-! ## Two lines -/

/-- The shell at boot after `new` with a name in `/root`. -/
theorem new_reach (name : List UInt8) (h0 : 0 ∉ name) (hne : name ≠ [])
    (hrel : name.headD 0 ≠ ch '/') (hlen : name.length ≤ 57)
    (hext : hasExtension (basename name) = true)
    (hc : Creatable rootMap (text "/root/" ++ name)) :
    ∃ s, shellMachine.Reach s ∧ str s.currentDir.bytes = text "/root" ∧
      fsMap s.table = rootMap.insert (text "/root/" ++ name) (.file []) := by
  obtain ⟨s, hboot, hdir, hmap⟩ := boot_reach
  have hstr : str name = name := str_of_not_mem h0
  obtain ⟨path, hpath, hps⟩ := resolvePath_spec s.currentDir name (Chars.uninit 64)
    (.inr (.inr (by rw [hdir]; decide)))
  have hjoin : joinPath (text "/root") name = text "/root/" ++ name := by
    unfold joinPath
    rw [if_neg hne, if_neg hrel]
    rfl
  have hfull : (text "/root/" ++ name).length ≤ 63 := by
    rw [List.length_append, show (text "/root/").length = 6 from rfl]
    omega
  rw [hdir, hstr, hjoin, List.take_of_length_le hfull] at hps
  obtain ⟨r, hr, _, hcase⟩ := fsCreate_spec (shell_reach_inv hboot).table path.bytes
  rw [hmap, hps] at hcase
  rcases hcase with ⟨_, hret, hrmap⟩ | ⟨hno, _⟩
  swap
  · exact absurd hc hno
  have hhead : name.headD 0 ≠ 0 := by
    rw [Ne, headD_eq_zero_iff, hstr]
    exact hne
  have hnew : cmdNew s name = some ({ s with table := r.table },
      say r.printed ++ say (text "\nCreated: " ++ str path.bytes ++ text "\n")) := by
    unfold cmdNew
    rw [if_neg hhead, if_neg (not_not.mpr hext)]
    simp only [hpath, hr, Option.bind_eq_bind, Option.bind_some, if_pos hret]
  have hreach : shellMachine.Reach { s with table := r.table } :=
    shell_reach_run (e := ⟨.new, name, []⟩) (r := ⟨_, _, []⟩) hboot
      (by show _ ≤ 255; rw [hstr]; omega) (by show (cmdNew _ _).map _ = _; rw [hnew]; rfl)
  exact ⟨_, hreach, hdir, hrmap⟩

theorem transfer_names_iff_rename : ∃ s r, shellMachine.Reach s ∧
    cmdRename s (text "a.txt" ++ ch ' ' :: text "b.txt") = some r ∧
      TransferKind.rename.ActsOn (fsMap s.table) (text "/root/a.txt") (text "/root/b.txt") r := by
  obtain ⟨s, hs, hdir, _⟩ := new_reach (text "a.txt") (by decide) (by decide) (by decide)
    (by decide) (by decide) (by decide)
  obtain ⟨r, hr, hiff⟩ := transfer_names_iff (shell_reach_inv hs) .rename (a := text "a.txt")
    (b := text "b.txt") ⟨by decide, by decide, by decide, by decide⟩
    ⟨by decide, by decide, by decide, by decide⟩ (by rw [hdir]; decide) (by rw [hdir]; decide)
    (by rw [hdir]; decide)
  rw [hdir] at hiff
  exact ⟨s, r, hs, hr, hiff.mpr (.inl ⟨by decide, by decide⟩)⟩

/-- A name of 32 characters. -/
def longName : List UInt8 := List.replicate 29 (ch 'a') ++ text ".tx"

/-- `rename` with a name of 32 characters moves the file with the first 31 of them; the
one that was named does not even exist. -/
theorem rename_hits_other : ∃ s r p q, shellMachine.Reach s ∧
    Token longName ∧ (text "/root/" ++ longName).length ≤ 63 ∧
      cmdRename s (longName ++ ch ' ' :: text "b.txt") = some r ∧ r.outcome = .done p q ∧
      p ≠ text "/root/" ++ longName ∧ text "/root/" ++ longName ∉ fsMap s.table ∧
      p ∈ fsMap s.table ∧ p ∉ fsMap r.table := by
  obtain ⟨s, hs, hdir, hmap⟩ := new_reach (longName.take 31) (by decide) (by decide)
    (by decide) (by decide) (by decide) (by decide)
  obtain ⟨r, hr, hdoes⟩ := transfer_spec (shell_reach_inv hs) .rename (a := longName)
    (b := text "b.txt") ⟨by decide, by decide, by decide, by decide⟩
    ⟨by decide, by decide, by decide, by decide⟩ (by rw [hdir]; decide) (by rw [hdir]; decide)
    (by rw [hdir]; decide) rfl rfl
  rw [hdir, hmap] at hdoes
  rcases hdoes with ⟨hb, _⟩ | ⟨_, hout, bytes, _, _, hrmap⟩
  · rcases hb with ⟨hm, _⟩ | hb | hb
    · cases hm
    · exact absurd (by decide) (hb [])
    · exact absurd (by decide) hb
  · refine ⟨s, r, _, _, hs, ⟨by decide, by decide, by decide, by decide⟩, by decide, hr, hout,
      by decide, ?_, ?_, ?_⟩
    · rw [hmap]
      decide
    · rw [hmap]
      decide
    · rw [hrmap]
      exact Finmap.notMem_erase_self

end MiniOS
