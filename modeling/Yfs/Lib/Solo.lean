import Mathlib.Logic.Function.Basic
import Yfs.Lib.Program

/-! Programs run one after the other on a store, with the locks that each of them leaves to the
next. -/

namespace Yfs.Lib.Program

variable {L C : Type} {R : C → Type} {α β σ : Type} [DecidableEq L]
  {answers : (c : C) → σ → R c → σ → Prop}

/-- A program comes to its end from a store and the locks `h` that are taken; it cannot take a lock
a second time. -/
inductive Solo (answers : (c : C) → σ → R c → σ → Prop) :
    Program L C R α → (L → Bool) → σ → α → (L → Bool) → σ → Prop where
  | done : Solo answers (.done a) h s a h s
  | acquire (free : h l = false) (tail : Solo answers rest (Function.update h l true) s a h' t) :
      Solo answers (.acquire l rest) h s a h' t
  | release (tail : Solo answers rest (Function.update h l false) s a h' t) :
      Solo answers (.release l rest) h s a h' t
  | call {next : R c → Program L C R α} {r : R c} (answered : answers c s r s')
      (tail : Solo answers (next r) h s' a h' t) : Solo answers (.call c next) h s a h' t

/-- Whatever the replies are, a program comes to its end, and with `Q`: it is not blocked, it does
not abort, and every call of it is answered. -/
@[simp] def Completes (answers : (c : C) → σ → R c → σ → Prop) (Q : α → (L → Bool) → σ → Prop) :
    Program L C R α → (L → Bool) → σ → Prop
  | .done a, h, s => Q a h s
  | .abort, _, _ => False
  | .acquire l rest, h, s => h l = false ∧ rest.Completes answers Q (Function.update h l true) s
  | .release l rest, h, s => rest.Completes answers Q (Function.update h l false) s
  | .call c next, h, s =>
    (∃ r t, answers c s r t) ∧ ∀ r t, answers c s r t → (next r).Completes answers Q h t

section Completes

variable {Q : α → (L → Bool) → σ → Prop}

theorem Completes.solo {p : Program L C R α} :
    ∀ {h s}, p.Completes answers Q h s → ∃ a h' t, Solo answers p h s a h' t := by
  induction p with
  | done a => exact fun _ => ⟨a, _, _, .done⟩
  | abort => exact False.elim
  | acquire l rest ih =>
    rintro h s ⟨free, rest⟩
    obtain ⟨a, h', t, tail⟩ := ih rest
    exact ⟨a, h', t, .acquire free tail⟩
  | release l rest ih =>
    intro h s rest
    obtain ⟨a, h', t, tail⟩ := ih rest
    exact ⟨a, h', t, .release tail⟩
  | call c next ih =>
    rintro h s ⟨⟨r, t, answered⟩, all⟩
    obtain ⟨a, h', u, tail⟩ := ih r (all r t answered)
    exact ⟨a, h', u, .call answered tail⟩

theorem Solo.satisfies {p : Program L C R α} {h h' : L → Bool} {s t : σ} {a : α}
    (solo : Solo answers p h s a h' t) (completes : p.Completes answers Q h s) : Q a h' t := by
  induction solo with
  | done => exact completes
  | acquire _ _ ih => exact ih completes.2
  | release _ ih => exact ih completes
  | call answered _ ih => exact ih (completes.2 _ _ answered)

/-- A run over a store that has more answers. -/
theorem Solo.mono {wider : (c : C) → σ → R c → σ → Prop} {p : Program L C R α} {h h' : L → Bool} {s t : σ}
    {a : α} (more : ∀ c s r t, answers c s r t → wider c s r t) (solo : Solo answers p h s a h' t) :
    Solo wider p h s a h' t := by
  induction solo with
  | done => exact .done
  | acquire free _ ih => exact .acquire free ih
  | release _ ih => exact .release ih
  | call answered _ ih => exact .call (more _ _ _ _ answered) ih

/-- What holds after every run of a program that completes holds at its end. -/
theorem completes_solo {Q' : α → (L → Bool) → σ → Prop} {p : Program L C R α} :
    ∀ {h s}, (∀ a h' t, Solo answers p h s a h' t → Q' a h' t) → p.Completes answers Q h s →
      p.Completes answers Q' h s := by
  induction p with
  | done a => exact fun all _ => all _ _ _ .done
  | abort => exact fun _ => id
  | acquire l rest ih =>
    intro h s all completes
    exact ⟨completes.1, ih (fun a h' t tail => all a h' t (.acquire completes.1 tail)) completes.2⟩
  | release l rest ih =>
    intro h s all completes
    exact ih (fun a h' t tail => all a h' t (.release tail)) completes
  | call c next ih =>
    intro h s all completes
    refine ⟨completes.1, fun r t answered => ?_⟩
    exact ih r (fun a h' u tail => all a h' u (.call answered tail)) (completes.2 r t answered)

theorem Completes.mono {Q' : α → (L → Bool) → σ → Prop} {p : Program L C R α}
    (weaker : ∀ a h t, Q a h t → Q' a h t) :
    ∀ {h s}, p.Completes answers Q h s → p.Completes answers Q' h s := by
  induction p with
  | done a => exact weaker a _ _
  | abort => exact id
  | acquire l rest ih => exact fun ⟨free, rest⟩ => ⟨free, ih rest⟩
  | release l rest ih => exact ih
  | call c next ih => exact fun ⟨present, all⟩ => ⟨present, fun r t answered => ih r (all r t answered)⟩

theorem Completes.bind {f : α → Program L C R β} {Q : β → (L → Bool) → σ → Prop}
    {p : Program L C R α} : ∀ {h s},
      p.Completes answers (fun a h t => (f a).Completes answers Q h t) h s →
        (p >>= f).Completes answers Q h s := by
  induction p with
  | done a => exact id
  | abort => exact False.elim
  | acquire l rest ih => exact fun ⟨free, rest⟩ => ⟨free, ih rest⟩
  | release l rest ih => exact ih
  | call c next ih => exact fun ⟨present, all⟩ => ⟨present, fun r t answered => ih r (all r t answered)⟩

end Completes

/-- A call with one answer. -/
theorem completes_call {c : C} {next : R c → Program L C R α} {Q : α → (L → Bool) → σ → Prop}
    {h : L → Bool} {s s' : σ} {r : R c} (only : ∀ r' t, answers c s r' t ↔ r' = r ∧ t = s') :
    (Program.call c next).Completes answers Q h s ↔ (next r).Completes answers Q h s' := by
  constructor
  · exact fun ⟨_, all⟩ => all r s' ((only r s').mpr ⟨rfl, rfl⟩)
  · intro rest
    refine ⟨⟨r, s', (only r s').mpr ⟨rfl, rfl⟩⟩, fun r' t answered => ?_⟩
    obtain ⟨rfl, rfl⟩ := (only r' t).mp answered
    exact rest

/-- A program that begins without a lock and leaves none taken. -/
def Clean (answers : (c : C) → σ → R c → σ → Prop) (Q : α → σ → Prop) (p : Program L C R α) (s : σ) :
    Prop := p.Completes answers (fun a h t => h = (fun _ => false) ∧ Q a t) (fun _ => false) s

section Clean

variable {Q : α → σ → Prop} {s : σ}

@[simp] theorem clean_done {a : α} : (.done a : Program L C R α).Clean answers Q s ↔ Q a s := by
  simp [Clean]

theorem Clean.mono {Q' : α → σ → Prop} {p : Program L C R α} (weaker : ∀ a t, Q a t → Q' a t)
    (clean : p.Clean answers Q s) : p.Clean answers Q' s :=
  Completes.mono (fun a _ t ⟨free, holds⟩ => ⟨free, weaker a t holds⟩) clean

theorem Clean.bind {f : α → Program L C R β} {Q : β → σ → Prop} {p : Program L C R α}
    (clean : p.Clean answers (fun a t => (f a).Clean answers Q t) s) : (p >>= f).Clean answers Q s := by
  refine Completes.bind (Completes.mono ?_ clean)
  rintro a h t ⟨rfl, rest⟩
  exact rest

/-- A section under one lock. -/
theorem Clean.under {l : L} {p : Program L C R α}
    (inside : p.Completes answers (fun a h t => h = (fun _ => false) ∧ Q a t)
      (Function.update (fun _ => false) l true) s) : (Program.acquire l p).Clean answers Q s :=
  ⟨rfl, inside⟩

end Clean

/-- A store that answers as another one would, where that one has an answer. -/
def Simulates {τ : Type} (lower : (c : C) → τ → R c → τ → Prop)
    (answers : (c : C) → σ → R c → σ → Prop) (Rel : τ → σ → Prop) : Prop :=
  ∀ c u s, Rel u s → (∃ r t, answers c s r t) →
    (∃ r v, lower c u r v) ∧ ∀ r v, lower c u r v → ∃ t, answers c s r t ∧ Rel v t

/-- What a program comes to over the one store it comes to over the other. -/
theorem Simulates.completes {τ : Type} {lower : (c : C) → τ → R c → τ → Prop}
    {Rel : τ → σ → Prop} {Q : α → (L → Bool) → σ → Prop} {p : Program L C R α}
    (simulates : Simulates lower answers Rel) : ∀ {h u s}, Rel u s →
      p.Completes answers Q h s → p.Completes lower (fun a h v => ∃ t, Rel v t ∧ Q a h t) h u := by
  induction p with
  | done a => exact fun rel holds => ⟨_, rel, holds⟩
  | abort => exact fun _ => id
  | acquire l rest ih => exact fun rel completes => ⟨completes.1, ih rel completes.2⟩
  | release l rest ih => exact fun rel completes => ih rel completes
  | call c next ih =>
    intro h u s rel completes
    obtain ⟨present, answered⟩ := simulates c u s rel completes.1
    refine ⟨present, fun r v below => ?_⟩
    obtain ⟨t, above, after⟩ := answered r v below
    exact ih r after (completes.2 r t above)

/-- The locks after a section are those before it. -/
theorem free_again (l : L) : Function.update (Function.update (fun _ => false) l true) l false =
    (fun _ => false : L → Bool) := by
  rw [Function.update_idem, Function.update_eq_self_iff]

end Yfs.Lib.Program
