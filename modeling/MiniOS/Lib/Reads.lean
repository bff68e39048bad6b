import Mathlib.Data.List.Basic
import Mathlib.Data.Option.Basic

/-!
# Programs that read

A program that takes letters one after the other, and waits when there are none, is on a
list of letters a partial function: its answer and the letters that it has left.
`Reads p` says that it knows no more than the letters it has taken, and that it can be
brought to its end from wherever it waits: it is never stuck.  The rules follow the
programs: `Reads.answer`, `Reads.bind` and `Reads.next`; `Reads.letters` for a loop that takes
one letter a round, and `Reads.rounds_reads` for one whose rounds are such programs.

Of a program that may fail as well, `Returns safe o` says where a call comes back.
-/

namespace Lib

universe u v w

variable {κ : Type u} {α : Type v} {β : Type w}

/-- `p` reads letters, gives an answer and leaves the rest of them. -/
structure Reads (p : List κ → Option (α × List κ)) : Prop where
  /-- Letters behind those it has read make no difference. -/
  extend : ∀ {ks rest : List κ} {a : α} (more : List κ), p ks = some (a, rest) →
    p (ks ++ more) = some (a, rest ++ more)
  shorter : ∀ {ks rest : List κ} {a : α}, p ks = some (a, rest) → rest.length ≤ ks.length
  /-- Where it waits, some letters more bring it to its end. -/
  ends : ∀ {ks : List κ}, p ks = none → ∃ more a, p (ks ++ more) = some (a, [])

namespace Reads

variable {p : List κ → Option (α × List κ)}

/-- **Never stuck.**  Whatever has been read, the program can be brought to its end. -/
theorem total (h : Reads p) (ks : List κ) : ∃ more, (p (ks ++ more)).isSome := by
  cases hp : p ks with
  | none =>
    obtain ⟨more, a, hmore⟩ := h.ends hp
    exact ⟨more, by rw [hmore]; rfl⟩
  | some r => exact ⟨[], by rw [List.append_nil, hp]; rfl⟩

/-- On no letters it comes back with none left, or some bring it there. -/
theorem start (h : Reads p) : ∃ ks a, p ks = some (a, []) := by
  cases hp : p [] with
  | none =>
    obtain ⟨more, a, hmore⟩ := h.ends hp
    exact ⟨more, a, hmore⟩
  | some r =>
    obtain ⟨a, rest⟩ := r
    have hnil : rest = [] := List.eq_nil_of_length_eq_zero (Nat.le_zero.mp (h.shorter hp))
    exact ⟨[], a, by rw [hp, hnil]⟩

theorem answer (a : α) : Reads fun ks : List κ => some (a, ks) where
  extend more h := by
    cases h
    rfl
  shorter h := by
    cases h
    exact Nat.le_refl _
  ends := nofun

/-- One program after another. -/
theorem bind (hp : Reads p) {q : α → List κ → Option (β × List κ)}
    (hq : ∀ ks a rest, p ks = some (a, rest) → Reads (q a)) :
    Reads fun ks => (p ks).bind fun r => q r.1 r.2 where
  extend more h := by
    obtain ⟨⟨a, rest⟩, ha, h⟩ := Option.bind_eq_some_iff.mp h
    simp only [hp.extend more ha, Option.bind_some]
    exact (hq _ a rest ha).extend more h
  shorter h := by
    obtain ⟨⟨a, rest⟩, ha, h⟩ := Option.bind_eq_some_iff.mp h
    exact Nat.le_trans ((hq _ a rest ha).shorter h) (hp.shorter ha)
  ends {ks} h := by
    cases hks : p ks with
    | none =>
      -- the first one waits: it is brought to its end, and then the second one
      obtain ⟨more, a, ha⟩ := hp.ends hks
      obtain ⟨more', b, hb⟩ := (hq _ a _ ha).start
      refine ⟨more ++ more', b, ?_⟩
      rw [← List.append_assoc, hp.extend more' ha]
      exact hb
    | some r =>
      obtain ⟨a, rest⟩ := r
      rw [hks] at h
      obtain ⟨more, b, hb⟩ := (hq _ a rest hks).ends h
      exact ⟨more, b, by rw [hp.extend more hks]; exact hb⟩

theorem map (hp : Reads p) (f : α → β) : Reads fun ks => (p ks).map fun r => (f r.1, r.2) := by
  have h := hp.bind (q := fun a ks => some (f a, ks)) fun _ a _ _ => answer (f a)
  rwa [show (fun ks => (p ks).bind fun r => some (f r.1, r.2)) =
    fun ks => (p ks).map fun r => (f r.1, r.2) from funext fun ks => by cases p ks <;> rfl] at h

/-- A letter is taken, and what follows is up to it. -/
theorem next {q : κ → List κ → Option (α × List κ)} (c₀ : κ) (hnil : p [] = none)
    (hcons : ∀ c ks, p (c :: ks) = q c ks) (hq : ∀ c, Reads (q c)) : Reads p where
  extend {ks rest a} more h := by
    cases ks with
    | nil =>
      rw [hnil] at h
      cases h
    | cons c ks =>
      rw [hcons] at h
      rw [List.cons_append, hcons]
      exact (hq c).extend more h
  shorter {ks rest a} h := by
    cases ks with
    | nil =>
      rw [hnil] at h
      cases h
    | cons c ks =>
      rw [hcons] at h
      exact Nat.le_trans ((hq c).shorter h) (Nat.le_succ _)
  ends {ks} h := by
    cases ks with
    | nil =>
      obtain ⟨more, a, ha⟩ := (hq c₀).start
      exact ⟨c₀ :: more, a, by rw [List.nil_append, hcons, ha]⟩
    | cons c ks =>
      rw [hcons] at h
      obtain ⟨more, a, ha⟩ := (hq c).ends h
      exact ⟨more, a, by rw [List.cons_append, hcons, ha]⟩

/-! ## Loops -/

variable {σ : Type*}

/-- **One letter after the other.**  In each of its states the program has its answer, or takes a
letter and then has its answer or goes on, and there is a letter that ends it. -/
theorem letters {p : σ → List κ → Option (α × List κ)} {I : σ → Prop}
    (h : ∀ s, I s → (∃ a, ∀ ks, p s ks = some (a, ks)) ∨
      (p s [] = none ∧ (∃ c a, ∀ ks, p s (c :: ks) = some (a, ks)) ∧
        ∀ c, (∃ a, ∀ ks, p s (c :: ks) = some (a, ks)) ∨
          ∃ s', I s' ∧ ∀ ks, p s (c :: ks) = p s' ks))
    {s : σ} (hs : I s) : Reads (p s) where
  extend {ks rest a} more ha := by
    induction ks generalizing s with
    | nil =>
      rcases h s hs with ⟨b, hb⟩ | ⟨hnil, _⟩
      · rw [hb] at ha ⊢
        cases ha
        rfl
      · rw [hnil] at ha
        cases ha
    | cons c ks ih =>
      rcases h s hs with ⟨b, hb⟩ | ⟨_, _, hnext⟩
      · rw [hb] at ha ⊢
        cases ha
        rfl
      · rw [List.cons_append]
        rcases hnext c with ⟨b, hb⟩ | ⟨s', hs', hb⟩
        · rw [hb] at ha ⊢
          cases ha
          rfl
        · rw [hb] at ha ⊢
          exact ih hs' ha
  shorter {ks rest a} ha := by
    induction ks generalizing s with
    | nil =>
      rcases h s hs with ⟨b, hb⟩ | ⟨hnil, _⟩
      · rw [hb] at ha
        cases ha
        exact Nat.le_refl _
      · rw [hnil] at ha
        cases ha
    | cons c ks ih =>
      rcases h s hs with ⟨b, hb⟩ | ⟨_, _, hnext⟩
      · rw [hb] at ha
        cases ha
        exact Nat.le_refl _
      · rcases hnext c with ⟨b, hb⟩ | ⟨s', hs', hb⟩
        · rw [hb] at ha
          cases ha
          exact Nat.le_succ _
        · rw [hb] at ha
          exact Nat.le_trans (ih hs' ha) (Nat.le_succ _)
  ends {ks} hn := by
    induction ks generalizing s with
    | nil =>
      rcases h s hs with ⟨b, hb⟩ | ⟨_, ⟨c, a, hquit⟩, _⟩
      · rw [hb] at hn
        cases hn
      · exact ⟨[c], a, hquit []⟩
    | cons c ks ih =>
      rcases h s hs with ⟨b, hb⟩ | ⟨_, _, hnext⟩
      · rw [hb] at hn
        cases hn
      · rcases hnext c with ⟨b, hb⟩ | ⟨s', hs', hb⟩
        · rw [hb] at hn
          cases hn
        · rw [hb] at hn
          obtain ⟨more, a, ha⟩ := ih hs' hn
          exact ⟨more, a, by rw [List.cons_append, hb]; exact ha⟩

/-- At most `n` rounds of `body`, which goes on with a new state or leaves with an answer. -/
def rounds (body : σ → List κ → Option ((σ ⊕ α) × List κ)) :
    Nat → σ → List κ → Option (α × List κ)
  | 0, _, _ => none
  | n + 1, s, ks =>
    match body s ks with
    | none => none
    | some (.inr a, rest) => some (a, rest)
    | some (.inl s', rest) => rounds body n s' rest

variable {body : σ → List κ → Option ((σ ⊕ α) × List κ)}
  (htakes : ∀ {s s' ks rest}, body s ks = some (.inl s', rest) → rest.length < ks.length)
include htakes

/-- There are not more rounds than letters. -/
theorem rounds_fuel {n m : Nat} {s : σ} {ks : List κ} (hn : ks.length < n) (hm : ks.length < m) :
    rounds body n s ks = rounds body m s ks := by
  induction n generalizing m s ks with
  | zero => omega
  | succ n ih =>
    obtain ⟨m, rfl⟩ : ∃ k, m = k + 1 := ⟨m - 1, by omega⟩
    unfold rounds
    cases hb : body s ks with
    | none => rfl
    | some r =>
      obtain ⟨s' | a, rest⟩ := r
      · have hlt := htakes hb
        exact ih (by omega) (by omega)
      · rfl

/-- A loop of rounds is its first round and the loop. -/
theorem rounds_eq (s : σ) (ks : List κ) :
    rounds body (ks.length + 1) s ks = (body s ks).bind fun r =>
      match r.1 with
      | .inl s' => rounds body (r.2.length + 1) s' r.2
      | .inr a => some (a, r.2) := by
  rw [rounds]
  cases hb : body s ks with
  | none => rfl
  | some r =>
    obtain ⟨s' | a, rest⟩ := r
    · have hlt := htakes hb
      exact rounds_fuel htakes hlt (Nat.lt_succ_self _)
    · rfl

/-- **Loops.**  A loop whose rounds are programs that read, each takes a letter, and every state of
which has letters to leave by, is one. -/
theorem rounds_reads {I : σ → Prop} (hbody : ∀ s, I s → Reads (body s))
    (hnext : ∀ s s' ks rest, I s → body s ks = some (.inl s', rest) → I s')
    (hquit : ∀ s, I s → ∃ ks a, body s ks = some (.inr a, [])) {s : σ} (hs : I s) :
    Reads fun ks => rounds body (ks.length + 1) s ks where
  extend {ks rest a} more h := by
    induction hn : ks.length using Nat.strongRecOn generalizing s ks with
    | _ n ih =>
      rw [rounds_eq htakes] at h ⊢
      obtain ⟨⟨x, mid⟩, hb, h⟩ := Option.bind_eq_some_iff.mp h
      rw [(hbody s hs).extend more hb, Option.bind_some]
      cases x with
      | inl s' =>
        have hlt := htakes hb
        exact ih mid.length (by omega) (hnext s s' ks mid hs hb) h rfl
      | inr b =>
        cases h
        rfl
  shorter {ks rest a} h := by
    induction hn : ks.length using Nat.strongRecOn generalizing s ks with
    | _ n ih =>
      rw [rounds_eq htakes] at h
      obtain ⟨⟨x, mid⟩, hb, h⟩ := Option.bind_eq_some_iff.mp h
      cases x with
      | inl s' =>
        have hlt := htakes hb
        exact Nat.le_of_lt (Nat.lt_of_le_of_lt
          (ih mid.length (by omega) (hnext s s' ks mid hs hb) h rfl) (by omega))
      | inr b =>
        cases h
        rw [← hn]
        exact (hbody s hs).shorter hb
  ends {ks} h := by
    induction hn : ks.length using Nat.strongRecOn generalizing s ks with
    | _ n ih =>
      rw [rounds_eq htakes] at h
      cases hb : body s ks with
      | none =>
        -- the round is brought to its end, and if it goes on, the next one leaves
        obtain ⟨more, x, hx⟩ := (hbody s hs).ends hb
        cases x with
        | inl s' =>
          obtain ⟨more', a, ha⟩ := hquit s' (hnext s s' _ _ hs hx)
          refine ⟨more ++ more', a, ?_⟩
          rw [← List.append_assoc, rounds_eq htakes, (hbody s hs).extend more' hx, Option.bind_some]
          show rounds body (more'.length + 1) s' more' = _
          rw [rounds_eq htakes, ha]
          rfl
        | inr a => exact ⟨more, a, by rw [rounds_eq htakes, hx]; rfl⟩
      | some r =>
        obtain ⟨x, mid⟩ := r
        rw [hb] at h
        cases x with
        | inl s' =>
          have hlt := htakes hb
          obtain ⟨more, a, ha⟩ := ih mid.length (by omega) (hnext s s' ks mid hs hb) h rfl
          refine ⟨more, a, ?_⟩
          rw [rounds_eq htakes, (hbody s hs).extend more hb]
          exact ha
        | inr a => cases h

end Reads

/-! ## Calls that may fail -/

theorem exists_ite (p : Prop) [Decidable p] (a b : β) :
    ∃ r, (if p then some a else some b) = some r :=
  ⟨if p then a else b, (apply_ite some p a b).symm⟩

/-- The call comes back exactly where it is safe. -/
structure Returns (safe : Prop) (o : Option β) : Prop where
  returns : safe → ∃ r, o = some r
  leaves : ¬ safe → o = none

namespace Returns

variable {safe : Prop}

theorem some (a : β) (h : safe) : Returns safe (Option.some a) :=
  ⟨fun _ => ⟨a, rfl⟩, fun hn => absurd h hn⟩

theorem iff {safe' : Prop} {o : Option β} (h : Returns safe o) (hiff : safe' ↔ safe) :
    Returns safe' o :=
  ⟨fun hs => h.returns (hiff.mp hs), fun hn => h.leaves fun hs => hn (hiff.mpr hs)⟩

theorem bind {γ : Type} {safe' : Prop} {o : Option γ} {f : γ → Option β} (ho : Returns safe o)
    (hf : ∀ a, o = Option.some a → Returns safe' (f a)) : Returns (safe ∧ safe') (o.bind f) where
  returns hs := by
    obtain ⟨a, ha⟩ := ho.returns hs.1
    rw [ha]
    exact (hf a ha).returns hs.2
  leaves hn := by
    cases ha : o with
    | none => rfl
    | some a =>
      have hsafe : safe := by
        by_contra hno
        rw [ho.leaves hno] at ha
        cases ha
      exact (hf a ha).leaves fun hs => hn ⟨hsafe, hs⟩

end Returns

end Lib
