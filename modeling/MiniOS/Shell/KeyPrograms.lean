import MiniOS.Lib.Reads
import MiniOS.Editor.Session
import MiniOS.Shell.Invariants

/-!
# The file commands as programs that read keys

A command that does not come back either waits for a key or has left an array.
Those parts of the commands that read keys leave none: `keyboard_readline`
(`keyboardReadline_reads`), a session of the editor (`editorOpen_reads`) and `fm`
(`cmdFm_reads`) can be brought to their end whatever has been typed.
-/

namespace MiniOS

open Lib

variable {α β : Type} {s : Shell}

/-! ## Programs that read keys -/

/-- The program takes keys and is never stuck. -/
def ReadsKeys (p : List UInt8 → Option (Typed α)) : Prop :=
  Reads fun keys => (p keys).map fun r => ((r.val, r.out), r.keys)

namespace ReadsKeys

variable {p : List UInt8 → Option (Typed α)}

theorem total (h : ReadsKeys p) (keys : List UInt8) : ∃ more r, p (keys ++ more) = some r := by
  obtain ⟨more, hsome⟩ := Reads.total h keys
  rw [Option.isSome_map] at hsome
  exact ⟨more, Option.isSome_iff_exists.mp hsome⟩

theorem answer (a : α) (out : List TerminalCall) : ReadsKeys fun keys => some ⟨a, out, keys⟩ :=
  Reads.answer (a, out)

theorem bind (hp : ReadsKeys p) {q : Typed α → Option (Typed β)}
    (hq : ∀ keys r, p keys = some r → ReadsKeys fun rest => q ⟨r.val, r.out, rest⟩) :
    ReadsKeys fun keys => (p keys).bind q := by
  have h := Reads.bind hp
    (q := fun a rest => (q ⟨a.1, a.2, rest⟩).map fun r => ((r.val, r.out), r.keys)) (by
      intro keys a rest ha
      obtain ⟨r, hr, he⟩ := Option.map_eq_some_iff.mp ha
      cases he
      exact hq keys r hr)
  unfold ReadsKeys
  rwa [show (fun keys => ((p keys).map fun r => ((r.val, r.out), r.keys)).bind fun r =>
      (q ⟨r.1.1, r.1.2, r.2⟩).map fun r => ((r.val, r.out), r.keys)) =
    fun keys => ((p keys).bind q).map fun r => ((r.val, r.out), r.keys) from
      funext fun keys => by cases p keys <;> rfl] at h

end ReadsKeys

/-! ## Lines and sessions -/

theorem readlineEnd_answers {n : Nat} (buf : Chars n) {i : Nat} (hi : i < n)
    (out : List TerminalCall) :
    ∃ a, ∀ keys, (readlineEnd buf i out keys).map (fun r => ((r.val, r.out), r.keys)) =
      some (a, keys) := by
  obtain ⟨b, hb, _⟩ := Chars.put_eq (b := buf) hi 0
  refine ⟨((i, b), out), fun keys => ?_⟩
  unfold readlineEnd
  rw [hb]
  rfl

/-- `keyboard_readline` with room for its line. -/
theorem readlineLoop_reads {n room : Nat} (hroom : room < n) (buf : Chars n) {i : Nat}
    (hi : i ≤ room) (out : List TerminalCall) : ReadsKeys (readlineLoop room buf i out) := by
  refine Reads.letters (p := fun (st : Chars n × Nat × List TerminalCall) keys =>
    (readlineLoop room st.1 st.2.1 st.2.2 keys).map fun r => ((r.val, r.out), r.keys))
    (I := fun st => st.2.1 ≤ room) ?_ (s := (buf, i, out)) hi
  rintro ⟨buf, i, out⟩ hi
  by_cases hlt : i < room
  · right
    obtain ⟨a, ha⟩ := readlineEnd_answers buf (Nat.lt_trans hlt hroom)
      (out ++ [.putchar (ch '\n')])
    have henter : ∀ c, c = ch '\n' ∨ c = ch '\r' → ∀ keys,
        (readlineLoop room buf i out (c :: keys)).map (fun r => ((r.val, r.out), r.keys)) =
          some (a, keys) := by
      intro c hc keys
      rw [readlineLoop, if_pos hlt]
      simp only [if_pos hc]
      exact ha keys
    refine ⟨?_, ⟨ch '\r', a, henter _ (.inr rfl)⟩, fun c => ?_⟩
    · show (readlineLoop room buf i out []).map _ = none
      rw [readlineLoop, if_pos hlt]
      rfl
    by_cases hc : c = ch '\n' ∨ c = ch '\r'
    · exact .inl ⟨a, henter c hc⟩
    right
    by_cases h8 : c = 8
    · by_cases hpos : i > 0
      · refine ⟨(buf, i - 1, out ++ [.putchar 8]), Nat.le_trans (Nat.sub_le _ _) hi, fun keys => ?_⟩
        show (readlineLoop room buf i out (c :: keys)).map _ = _
        rw [readlineLoop, if_pos hlt]
        simp only [if_neg hc, if_pos h8, if_pos hpos]
      · refine ⟨(buf, i, out), hi, fun keys => ?_⟩
        show (readlineLoop room buf i out (c :: keys)).map _ = _
        rw [readlineLoop, if_pos hlt]
        simp only [if_neg hc, if_pos h8, if_neg hpos]
    · obtain ⟨b, hb, _⟩ := Chars.put_eq (b := buf) (Nat.lt_trans hlt hroom) c
      refine ⟨(b, i + 1, out ++ [.putchar c]), hlt, fun keys => ?_⟩
      show (readlineLoop room buf i out (c :: keys)).map _ = _
      rw [readlineLoop, if_pos hlt]
      simp only [if_neg hc, if_neg h8, hb, Option.bind_eq_bind, Option.bind_some]
  · left
    obtain ⟨a, ha⟩ := readlineEnd_answers buf (Nat.lt_of_le_of_lt hi hroom) out
    refine ⟨a, fun keys => ?_⟩
    show (readlineLoop room buf i out keys).map _ = _
    rw [readlineLoop.eq_def, if_neg hlt]
    exact ha keys

theorem keyboardReadline_reads {n : Nat} (h0 : 0 < n) (hn : n < 2 ^ 32) (buf : Chars n) :
    ReadsKeys (keyboardReadline buf n) := by
  refine readlineLoop_reads ?_ buf (Nat.zero_le _) []
  unfold u32
  omega

theorem keyboardGetchar_reads (a : α) (out : List TerminalCall) :
    ReadsKeys fun keys => (keyboardGetchar keys).bind fun r => some ⟨a, out, r.2⟩ :=
  Reads.next (q := fun _ keys => some ((a, out), keys)) (ch '\r') rfl (fun _ _ => rfl) fun _ =>
    Reads.answer (a, out)

/-- A session of the editor ends with ESC. -/
theorem runEditorInputLoop_reads {t : FsTable} (h : TableInv t) {e : Editor} {txt : List UInt8}
    (he : e.Holds txt) (path : List UInt8) (out : List TerminalCall) :
    ReadsKeys (runEditorInputLoop t e path out) := by
  refine Reads.letters (p := fun (st : Editor × List TerminalCall) keys =>
    (runEditorInputLoop t st.1 path st.2 keys).map fun r => ((r.val, r.out), r.keys))
    (I := fun st => ∃ txt, st.1.Holds txt) ?_ (s := (e, out)) ⟨txt, he⟩
  rintro ⟨e, out⟩ ⟨txt, he⟩
  right
  obtain ⟨w, hw, _⟩ := fsWrite_spec h path e.buffer.bytes e.len
    (by rw [e.buffer.length_eq]; exact Nat.le_trans (Nat.min_le_right _ _) (Nat.le_succ _))
  have hesc : ∃ a, ∀ keys, (runEditorInputLoop t e path out (keyEsc :: keys)).map
      (fun r => ((r.val, r.out), r.keys)) = some (a, keys) := by
    simp only [runEditorInputLoop, saveAndShowResult, hw, if_true, Option.bind_eq_bind,
      Option.bind_some, Option.map_some]
    exact ⟨_, fun _ => rfl⟩
  obtain ⟨a, ha⟩ := hesc
  refine ⟨rfl, ⟨keyEsc, a, ha⟩, fun c => ?_⟩
  by_cases hc : c = keyEsc
  · subst hc
    exact .inl ⟨a, ha⟩
  · obtain ⟨e', echo, hkey, he', _⟩ := editorKey_spec he c
    refine .inr ⟨(e', out ++ echo), ⟨_, he'⟩, fun keys => ?_⟩
    show (runEditorInputLoop t e path out (c :: keys)).map _ = _
    rw [runEditorInputLoop, if_neg hc, hkey]
    rfl

theorem editorOpen_reads {t : FsTable} (h : TableInv t) (e : Editor) (path : List UInt8) :
    ReadsKeys (editorOpen t e path) := by
  unfold editorOpen
  by_cases h0 : path.headD 0 = 0
  · simp only [if_pos h0]
    exact ReadsKeys.answer _ _
  obtain ⟨ret, e', printed, t', hload, hinv, hcase⟩ := loadFileOrCreate_spec h e path
  simp only [if_neg h0, hload, Option.bind_eq_bind, Option.bind_some]
  rcases hcase with ⟨old, _, rfl, hholds, _⟩ | ⟨_, rfl, _⟩
  · exact runEditorInputLoop_reads hinv hholds path _
  · exact ReadsKeys.answer _ _

/-! ## The file manager -/

/-- A file is read into a buffer that holds all of it. -/
theorem fsRead_returns {t : FsTable} (h : TableInv t) (path : List UInt8) :
    ∃ n buf, fsRead t path (Chars.uninit (fsMaxFilesize + 1)) (fsMaxFilesize + 1) =
      some (n, buf) := by
  obtain ⟨n, buf, hread, _⟩ := fsRead_spec h path (Chars.uninit (fsMaxFilesize + 1))
    (fsMaxFilesize + 1) (by decide) (by decide) (Nat.le_refl _)
  exact ⟨n, buf, hread⟩

/-- A line that was read is written. -/
theorem fsWrite_returns {t : FsTable} (h : TableInv t) (path : List UInt8)
    (line : Chars fsMaxFilesize) : ∃ w, fsWrite t path line.bytes (strlen line.bytes) = some w := by
  obtain ⟨w, hw, _⟩ := fsWrite_spec h path line.bytes (strlen line.bytes)
    (by rw [line.length_eq]; exact Nat.min_le_right _ _)
  exact ⟨w, hw⟩

/-- What a round of `cmd_fm` does with its key. -/
theorem fmKey_reads (h : TableInv s.table) (c : UInt8) : ReadsKeys (fmKey s c) := by
  have hname := keyboardReadline_reads (n := 64) (by decide) (by decide) (Chars.uninit 64)
  unfold fmKey
  by_cases hc : c = ch 'c' ∨ c = ch 'C'
  · simp only [if_pos hc]
    refine hname.bind fun keys name _ => ?_
    obtain ⟨r, hr, hinv, _⟩ := fsCreate_spec h name.val.2.bytes
    simp only [hr, Option.bind_eq_bind, Option.bind_some]
    by_cases hret : r.ret = 0
    · simp only [if_pos hret]
      have hbody := keyboardReadline_reads (n := fsMaxFilesize) (by decide) (by decide)
        (Chars.uninit fsMaxFilesize)
      refine hbody.bind fun keys body hb => ?_
      obtain ⟨w, hw⟩ := fsWrite_returns hinv name.val.2.bytes body.val.2
      simp only [hw, Option.bind_some]
      exact ReadsKeys.answer _ _
    · simp only [if_neg hret]
      exact ReadsKeys.answer _ _
  by_cases hr : c = ch 'r' ∨ c = ch 'R'
  · simp only [if_neg hc, if_pos hr]
    refine hname.bind fun keys name _ => ?_
    obtain ⟨n, buf, hread⟩ := fsRead_returns h name.val.2.bytes
    simp only [hread, Option.bind_eq_bind, Option.bind_some]
    by_cases hn : n ≥ 0
    · simp only [if_pos hn]
      exact keyboardGetchar_reads _ _
    · simp only [if_neg hn]
      exact ReadsKeys.answer _ _
  by_cases hd : c = ch 'd' ∨ c = ch 'D'
  · simp only [if_neg hc, if_neg hr, if_pos hd]
    refine hname.bind fun keys name _ => ?_
    dsimp only
    exact ReadsKeys.answer _ _
  · simp only [if_neg hc, if_neg hr, if_neg hd]
    exact ReadsKeys.answer _ _

/-- A round of `cmd_fm` as a program that reads. -/
def fmRound (st : Shell × List TerminalCall) :
    List UInt8 → Option (((Shell × List TerminalCall) ⊕ (Shell × List TerminalCall)) × List UInt8)
  | [] => none
  | c :: keys =>
    if c = ch 'q' ∨ c = ch 'Q' then some (.inr (st.1, st.2 ++ fmScreen st.1 ++ [.clear]), keys)
    else (fmKey st.1 c keys).map fun r => (.inl (r.val, st.2 ++ fmScreen st.1 ++ r.out), r.keys)

theorem fmLoop_rounds (n : Nat) (st : Shell × List TerminalCall) (keys : List UInt8) :
    ((loop fmBody n ⟨st.1, st.2, keys⟩).join).map (fun r => ((r.val, r.out), r.keys)) =
      Reads.rounds fmRound n st keys := by
  induction n generalizing st keys with
  | zero => rfl
  | succ n ih =>
    rw [loop, Reads.rounds]
    cases keys with
    | nil => rfl
    | cons c keys =>
      by_cases hq : c = ch 'q' ∨ c = ch 'Q'
      · simp only [fmBody, keyboardGetchar, fmRound, if_pos hq]
        rfl
      · simp only [fmBody, keyboardGetchar, fmRound, if_neg hq]
        cases hf : fmKey st.1 c keys with
        | none => rfl
        | some r => exact ih (r.val, st.2 ++ fmScreen st.1 ++ r.out) r.keys

theorem fmRound_next {st st' : Shell × List TerminalCall} {keys rest : List UInt8}
    (h : fmRound st keys = some (.inl st', rest)) :
    ∃ c ks r, keys = c :: ks ∧ fmKey st.1 c ks = some r ∧ st'.1 = r.val ∧ rest = r.keys := by
  cases keys with
  | nil => cases h
  | cons c ks =>
    simp only [fmRound] at h
    split at h
    · cases h
    · obtain ⟨r, hr, he⟩ := Option.map_eq_some_iff.mp h
      cases he
      exact ⟨c, ks, r, rfl, hr, rfl, rfl⟩

theorem cmdFm_reads (h : TableInv s.table) : ReadsKeys (cmdFm s) := by
  have hreads : Reads fun keys => Reads.rounds fmRound (keys.length + 1) (s, []) keys := by
    refine Reads.rounds_reads (I := fun st => TableInv st.1.table) ?_ ?_ ?_ ?_ h
    · intro st st' keys rest hb
      obtain ⟨c, ks, r, rfl, hf, _, rfl⟩ := fmRound_next hb
      exact Nat.lt_succ_of_le (fmKey_keys hf)
    · rintro st hst
      refine Reads.next (q := fun c keys => fmRound st (c :: keys)) (ch 'q') rfl (fun _ _ => rfl) ?_
      intro c
      by_cases hq : c = ch 'q' ∨ c = ch 'Q'
      · simp only [fmRound, if_pos hq]
        exact Reads.answer _
      · simp only [fmRound, if_neg hq]
        have hmap := (fmKey_reads hst c).map
          (fun r => (Sum.inl (r.1, st.2 ++ fmScreen st.1 ++ r.2) :
            (Shell × List TerminalCall) ⊕ (Shell × List TerminalCall)))
        simp only [Option.map_map] at hmap
        exact hmap
    · intro st st' keys rest hst hb
      obtain ⟨c, ks, r, rfl, hf, hv, _⟩ := fmRound_next hb
      rw [hv]
      exact (fmKey_keeps hf).table hst
    · intro st _
      exact ⟨[ch 'q'], _, rfl⟩
  unfold ReadsKeys cmdFm
  rwa [show (fun keys => ((loop fmBody (keys.length + 1) ⟨s, [], keys⟩).join).map
      fun r => ((r.val, r.out), r.keys)) =
    fun keys => Reads.rounds fmRound (keys.length + 1) (s, []) keys from
      funext fun keys => fmLoop_rounds _ (s, []) keys]

end MiniOS
