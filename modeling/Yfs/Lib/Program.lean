/-! Programs that take and return locks and make calls whose replies come from
outside, the traces they leave, and what they do on a store that answers the calls. -/

namespace Yfs.Lib

/-- A program over locks `L` and calls `C` with replies `R`. -/
inductive Program (L C : Type) (R : C → Type) (α : Type) where
  | done (a : α)
  | abort
  | acquire (l : L) (rest : Program L C R α)
  | release (l : L) (rest : Program L C R α)
  | call (c : C) (next : R c → Program L C R α)

namespace Program

variable {L C : Type} {R : C → Type} {α β : Type}

def bind (p : Program L C R α) (f : α → Program L C R β) : Program L C R β :=
  match p with
  | .done a => f a
  | .abort => .abort
  | .acquire l rest => .acquire l (rest.bind f)
  | .release l rest => .release l (rest.bind f)
  | .call c next => .call c fun r => (next r).bind f

instance : Monad (Program L C R) := { pure := .done, bind }

instance : LawfulMonad (Program L C R) :=
  LawfulMonad.mk' _
    (fun p => by
      change p.bind (.done ∘ id) = p
      induction p with
      | done a => rfl
      | abort => rfl
      | acquire l rest ih => rw [bind, ih]
      | release l rest ih => rw [bind, ih]
      | call c next ih => rw [bind, funext ih])
    (fun _ _ => rfl)
    (fun p f g => by
      change (p.bind f).bind g = p.bind fun a => (f a).bind g
      induction p with
      | done a => rfl
      | abort => rfl
      | acquire l rest ih => rw [bind, bind, bind, ih]
      | release l rest ih => rw [bind, bind, bind, ih]
      | call c next ih => rw [bind, bind, bind, funext ih])

section Steps

variable (f : α → Program L C R β)

@[simp] theorem pure_eq (a : α) : (pure a : Program L C R α) = .done a := rfl

@[simp] theorem bind_eq (p : Program L C R α) : p.bind f = p >>= f := rfl

@[simp] theorem done_bind (a : α) : (Program.done a : Program L C R α) >>= f = f a := rfl

@[simp] theorem abort_bind : (Program.abort : Program L C R α) >>= f = .abort := rfl

@[simp] theorem acquire_bind (l : L) (p : Program L C R α) :
    Program.acquire l p >>= f = .acquire l (p >>= f) := rfl

@[simp] theorem release_bind (l : L) (p : Program L C R α) :
    Program.release l p >>= f = .release l (p >>= f) := rfl

@[simp] theorem call_bind (c : C) (next : R c → Program L C R α) :
    Program.call c next >>= f = .call c fun r => next r >>= f := rfl

end Steps

/-- The same program, with `t` as the caller of all its calls. -/
def via {T : Type} (t : T) : Program L C R α → Program L (T × C) (fun c => R c.2) α
  | .done a => .done a
  | .abort => .abort
  | .acquire l rest => .acquire l (rest.via t)
  | .release l rest => .release l (rest.via t)
  | .call c next => .call (t, c) fun r => (next r).via t

/-- What an observer sees of a program. -/
inductive Event (L C : Type) (R : C → Type) where
  | acquire (l : L)
  | release (l : L)
  | call (c : C) (r : R c)

/-- A program runs to its end, with these events and this result. -/
inductive Traced : Program L C R α → List (Event L C R) → α → Prop where
  | done : Traced (.done a) [] a
  | acquire (tail : Traced rest t a) : Traced (.acquire l rest) (.acquire l :: t) a
  | release (tail : Traced rest t a) : Traced (.release l rest) (.release l :: t) a
  | call {next : R c → Program L C R α} {r : R c} (tail : Traced (next r) t a) :
      Traced (.call c next) (.call c r :: t) a

/-- `P` holds of every trace that ends, and its result. -/
@[simp] def Every (P : List (Event L C R) → α → Prop) : Program L C R α → Prop
  | .done a => P [] a
  | .abort => True
  | .acquire l rest => rest.Every fun t a => P (.acquire l :: t) a
  | .release l rest => rest.Every fun t a => P (.release l :: t) a
  | .call c next => ∀ r, (next r).Every fun t a => P (.call c r :: t) a

theorem Traced.every {p : Program L C R α} {t : List (Event L C R)} {a : α} (traced : Traced p t a) :
    ∀ {P : List (Event L C R) → α → Prop}, p.Every P → P t a := by
  induction traced with
  | done => exact id
  | acquire _ ih => exact fun every => ih every
  | release _ ih => exact fun every => ih every
  | call _ ih => exact fun every => ih (every _)

theorem Every.mono {p : Program L C R α} :
    ∀ {P Q : List (Event L C R) → α → Prop}, p.Every P → (∀ t a, P t a → Q t a) → p.Every Q := by
  induction p with
  | done a => exact fun every weaker => weaker _ _ every
  | abort => exact fun _ _ => trivial
  | acquire l rest ih => exact fun every weaker => ih every fun t a => weaker _ _
  | release l rest ih => exact fun every weaker => ih every fun t a => weaker _ _
  | call c next ih => exact fun every weaker r => ih r (every r) fun t a => weaker _ _

theorem Every.bind {p : Program L C R α} {f : α → Program L C R β} :
    ∀ {P : List (Event L C R) → β → Prop},
      p.Every (fun t a => (f a).Every fun u b => P (t ++ u) b) → (p >>= f).Every P := by
  induction p with
  | done a => exact id
  | abort => exact fun _ => trivial
  | acquire l rest ih => exact fun every => ih every
  | release l rest ih => exact fun every => ih every
  | call c next ih => exact fun every r => ih r (every r)

/-- What holds of the traces of a program whatever it returns. -/
theorem Every.discard {p : Program L C R α} {P : List (Event L C R) → Prop}
    (every : p.Every fun t _ => P t) : (discard p).Every fun t _ => P t := by
  refine Every.bind (every.mono fun t a holds => ?_)
  simpa using holds

section Locks

variable [DecidableEq L]

/-- How often `l` is held after a trace that starts with `n` holds; nothing if it is
released without being held. -/
@[simp] def held (l : L) : List (Event L C R) → Nat → Option Nat
  | [], n => some n
  | .acquire k :: t, n => if k = l then held l t (n + 1) else held l t n
  | .release k :: t, n =>
    if k = l then
      match n with
      | 0 => none
      | n + 1 => held l t n
    else held l t n
  | .call _ _ :: t, n => held l t n

/-- Every lock is released as often as it is acquired, and each time after that. -/
def Balanced (t : List (Event L C R)) : Prop := ∀ l, held l t 0 = some 0

/-- A trace that leaves every lock as it was. -/
def Neutral (t : List (Event L C R)) : Prop := ∀ l n, held l t n = some n

theorem held_append (l : L) (t u : List (Event L C R)) :
    ∀ n, held l (t ++ u) n = (held l t n).bind (held l u) := by
  induction t with
  | nil => exact fun _ => rfl
  | cons e t ih =>
    intro n
    cases e with
    | acquire k =>
      by_cases same : k = l <;> simp [held, same, ih]
    | release k =>
      by_cases same : k = l
      · cases n <;> simp [held, same, ih]
      · simp [held, same, ih]
    | call c r => simp [held, ih]

theorem Neutral.held_append {t : List (Event L C R)} (neutral : Neutral t) (u : List (Event L C R))
    (l : L) (n : Nat) : held l (t ++ u) n = held l u n := by
  rw [Program.held_append, neutral]
  rfl

theorem Neutral.nil : Neutral ([] : List (Event L C R)) := fun _ _ => rfl

theorem Neutral.call {t : List (Event L C R)} (neutral : Neutral t) (c : C) (r : R c) :
    Neutral (.call c r :: t) := neutral

theorem Neutral.append {t u : List (Event L C R)} (first : Neutral t) (second : Neutral u) :
    Neutral (t ++ u) := fun l n => (first.held_append u l n).trans (second l n)

theorem Neutral.balanced {t : List (Event L C R)} (neutral : Neutral t) : Balanced t :=
  fun l => neutral l 0

/-- A trace that returns `l` and leaves every other lock as it was. -/
def Closes (l : L) (t : List (Event L C R)) : Prop :=
  ∀ k n, held k t (if k = l then n + 1 else n) = some n

theorem Closes.release (l : L) : Closes l [(.release l : Event L C R)] := by
  intro k n
  by_cases same : l = k
  · simp [same]
  · simp [same, Ne.symm same]

theorem Closes.call {l : L} {t : List (Event L C R)} (closes : Closes l t) (c : C) (r : R c) :
    Closes l (.call c r :: t) := closes

theorem Closes.append {l : L} {t u : List (Event L C R)} (first : Neutral t) (second : Closes l u) :
    Closes l (t ++ u) := fun k n => (first.held_append u k _).trans (second k n)

/-- A section that takes a lock and returns it. -/
theorem Closes.neutral {l : L} {t : List (Event L C R)} (closes : Closes l t) :
    Neutral (.acquire l :: t) := by
  intro k n
  have closed := closes k n
  by_cases same : l = k
  · simpa [same] using closed
  · simpa [same, Ne.symm same] using closed

/-- A section that is never left. -/
theorem Neutral.leak {t : List (Event L C R)} (neutral : Neutral t) (l k : L) (n : Nat) :
    held k (.acquire l :: t) n = some (if k = l then n + 1 else n) := by
  by_cases same : l = k
  · simp [same, neutral k]
  · simp [same, Ne.symm same, neutral k]

end Locks

/-- Run alone on a store that answers the calls by `answers`, a program keeps the store
`good`, and returns with `Q` of its result and the final store. -/
@[simp] def Runs {σ : Type} (answers : (c : C) → σ → R c → σ → Prop) (good : σ → Prop)
    (Q : α → σ → Prop) : Program L C R α → σ → Prop
  | .done a, s => Q a s
  | .abort, _ => False
  | .acquire _ rest, s => rest.Runs answers good Q s
  | .release _ rest, s => rest.Runs answers good Q s
  | .call c next, s => ∀ r s', answers c s r s' → good s' ∧ (next r).Runs answers good Q s'

theorem Runs.bind {σ : Type} {answers : (c : C) → σ → R c → σ → Prop} {good : σ → Prop}
    {p : Program L C R α} {f : α → Program L C R β} {Q : β → σ → Prop} :
    ∀ {s}, p.Runs answers good (fun a t => (f a).Runs answers good Q t) s →
      (p >>= f).Runs answers good Q s := by
  induction p with
  | done a => exact id
  | abort => exact False.elim
  | acquire l rest ih => exact fun runs => ih runs
  | release l rest ih => exact fun runs => ih runs
  | call c next ih =>
    intro s runs r s' answered
    exact ⟨(runs r s' answered).1, ih r (runs r s' answered).2⟩

theorem Runs.mono {σ : Type} {answers : (c : C) → σ → R c → σ → Prop} {good : σ → Prop}
    {p : Program L C R α} {Q Q' : α → σ → Prop} (weaker : ∀ a t, Q a t → Q' a t) :
    ∀ {s}, p.Runs answers good Q s → p.Runs answers good Q' s := by
  induction p with
  | done a => exact weaker a _
  | abort => exact id
  | acquire l rest ih => exact ih
  | release l rest ih => exact ih
  | call c next ih => exact fun runs r s' answered => ⟨(runs r s' answered).1, ih r (runs r s' answered).2⟩

section Alone

variable {σ : Type} {answers : (c : C) → σ → R c → σ → Prop}

/-- A program run alone on a store comes to its end, with a result and a final store. -/
inductive Returns (answers : (c : C) → σ → R c → σ → Prop) : Program L C R α → σ → α → σ → Prop where
  | done : Returns answers (.done a) s a s
  | acquire (tail : Returns answers rest s a t) : Returns answers (.acquire l rest) s a t
  | release (tail : Returns answers rest s a t) : Returns answers (.release l rest) s a t
  | call {next : R c → Program L C R α} {r : R c} (answered : answers c s r s')
      (tail : Returns answers (next r) s' a t) : Returns answers (.call c next) s a t

theorem Returns.satisfies {good : σ → Prop} {p : Program L C R α} {s t : σ} {a : α}
    (returned : Returns answers p s a t) {Q : α → σ → Prop} (runs : p.Runs answers good Q s) :
    Q a t := by
  induction returned with
  | done => exact runs
  | acquire _ ih => exact ih runs
  | release _ ih => exact ih runs
  | call answered _ ih => exact ih (runs _ _ answered).2

theorem Returns.bind {p : Program L C R α} {f : α → Program L C R β} {s t u : σ} {a : α} {b : β}
    (first : Returns answers p s a t) (second : Returns answers (f a) t b u) :
    Returns answers (p >>= f) s b u := by
  induction first with
  | done => exact second
  | acquire _ ih => exact .acquire (ih second)
  | release _ ih => exact .release (ih second)
  | call answered _ ih => exact .call answered (ih second)

section Invert

variable {s t : σ} {a b : α}

@[simp] theorem returns_done : Returns answers (.done a : Program L C R α) s b t ↔ b = a ∧ t = s := by
  constructor
  · rintro ⟨⟩
    exact ⟨rfl, rfl⟩
  · rintro ⟨rfl, rfl⟩
    exact .done

@[simp] theorem returns_abort : ¬ Returns answers (.abort : Program L C R α) s a t := nofun

@[simp] theorem returns_acquire {l : L} {p : Program L C R α} :
    Returns answers (.acquire l p) s a t ↔ Returns answers p s a t := by
  constructor
  · rintro (_ | tail)
    exact tail
  · exact .acquire

@[simp] theorem returns_release {l : L} {p : Program L C R α} :
    Returns answers (.release l p) s a t ↔ Returns answers p s a t := by
  constructor
  · rintro (_ | _ | tail)
    exact tail
  · exact .release

theorem Returns.of_call {c : C} {next : R c → Program L C R α}
    (returned : Returns answers (.call c next) s a t) :
    ∃ r s', answers c s r s' ∧ Returns answers (next r) s' a t := by
  cases returned with
  | call answered tail => exact ⟨_, _, answered, tail⟩

theorem Returns.of_bind {p : Program L C R α} {f : α → Program L C R β} {b : β} :
    ∀ {s}, Returns answers (p >>= f) s b t →
      ∃ a s', Returns answers p s a s' ∧ Returns answers (f a) s' b t := by
  induction p with
  | done a => exact fun returned => ⟨a, _, .done, returned⟩
  | abort => nofun
  | acquire l rest ih =>
    intro s returned
    obtain ⟨a, s', first, second⟩ := ih (returns_acquire.mp returned)
    exact ⟨a, s', .acquire first, second⟩
  | release l rest ih =>
    intro s returned
    obtain ⟨a, s', first, second⟩ := ih (returns_release.mp returned)
    exact ⟨a, s', .release first, second⟩
  | call c next ih =>
    intro s returned
    obtain ⟨r, s₁, answered, tail⟩ := Returns.of_call returned
    obtain ⟨a, s', first, second⟩ := ih r tail
    exact ⟨a, s', .call answered first, second⟩

end Invert

/-- Run alone on a store, a program returns whatever the replies are, and with `Q`. -/
def Achieves (answers : (c : C) → σ → R c → σ → Prop) (Q : α → σ → Prop) (p : Program L C R α)
    (s : σ) : Prop :=
  p.Runs answers (fun _ => True) Q s ∧ ∃ a t, Returns answers p s a t

section Achieves

variable {Q : α → σ → Prop} {s : σ}

@[simp] theorem achieves_done {a : α} : (.done a : Program L C R α).Achieves answers Q s ↔ Q a s := by
  constructor
  · exact And.left
  · exact fun holds => ⟨holds, a, s, .done⟩

@[simp] theorem achieves_abort : ¬ (.abort : Program L C R α).Achieves answers Q s := And.left

@[simp] theorem achieves_acquire {l : L} {p : Program L C R α} :
    (Program.acquire l p).Achieves answers Q s ↔ p.Achieves answers Q s := by
  constructor
  · rintro ⟨runs, a, t, _ | tail⟩
    exact ⟨runs, a, t, tail⟩
  · rintro ⟨runs, a, t, tail⟩
    exact ⟨runs, a, t, .acquire tail⟩

@[simp] theorem achieves_release {l : L} {p : Program L C R α} :
    (Program.release l p).Achieves answers Q s ↔ p.Achieves answers Q s := by
  constructor
  · rintro ⟨runs, a, t, _ | _ | tail⟩
    exact ⟨runs, a, t, tail⟩
  · rintro ⟨runs, a, t, tail⟩
    exact ⟨runs, a, t, .release tail⟩

theorem Achieves.call {c : C} {next : R c → Program L C R α} (answered : ∃ r t, answers c s r t)
    (all : ∀ r t, answers c s r t → (next r).Achieves answers Q t) :
    (Program.call c next).Achieves answers Q s := by
  obtain ⟨r, t, reply⟩ := answered
  obtain ⟨-, a, u, returned⟩ := all r t reply
  exact ⟨fun r t reply => ⟨trivial, (all r t reply).1⟩, a, u, .call reply returned⟩

theorem Achieves.bind {f : α → Program L C R β} {Q : β → σ → Prop} {p : Program L C R α} :
    ∀ {s}, p.Achieves answers (fun a t => (f a).Achieves answers Q t) s →
      (p >>= f).Achieves answers Q s := by
  rintro s ⟨runs, a, t, returned⟩
  obtain ⟨-, b, u, tail⟩ := returned.satisfies runs
  exact ⟨Runs.bind (Runs.mono (fun a t done => done.1) runs), b, u, returned.bind tail⟩

/-- A call with one answer. -/
theorem achieves_call {c : C} {next : R c → Program L C R α} {r : R c} {s' : σ}
    (only : ∀ r' t, answers c s r' t ↔ r' = r ∧ t = s') :
    (Program.call c next).Achieves answers Q s ↔ (next r).Achieves answers Q s' := by
  constructor
  · rintro ⟨runs, a, t, returned⟩
    refine ⟨(runs r s' ((only r s').mpr ⟨rfl, rfl⟩)).2, a, t, ?_⟩
    cases returned with
    | call answered tail =>
      obtain ⟨rfl, rfl⟩ := (only _ _).mp answered
      exact tail
  · rintro ⟨runs, a, t, returned⟩
    refine ⟨?_, a, t, .call ((only r s').mpr ⟨rfl, rfl⟩) returned⟩
    intro r' t' answered
    obtain ⟨rfl, rfl⟩ := (only _ _).mp answered
    exact ⟨trivial, runs⟩

end Achieves

end Alone

end Program

end Yfs.Lib
