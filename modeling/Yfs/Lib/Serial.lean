import Yfs.Lib.Program
import Mathlib.Logic.Function.Basic

/-! Threads that run programs on one store, step by step in any order. If every
program makes its calls while it holds one and the same lock, the results are those of
running the programs one after the other, in the order in which they got the lock. -/

namespace Yfs.Lib

open Program

variable {L C : Type} {R : C → Type} {α Tid Job σ : Type}

/-- A thread at work: its job, what is left of its program, and the number of
acquisitions before its own. -/
structure Thread (L C : Type) (R : C → Type) (α Job : Type) where
  job : Job
  rest : Program L C R α
  ticket : Nat

/-- The threads, the locks and the store they share. `order` lists the jobs as they got
a lock, and `results` what they returned, by ticket. -/
structure Pool (L C : Type) (R : C → Type) (α Tid Job σ : Type) where
  holder : L → Option Tid
  store : σ
  threads : Tid → Option (Thread L C R α Job)
  order : List Job
  results : List (Nat × α)

namespace Pool

variable [DecidableEq L] [DecidableEq Tid]

def setThread (K : Pool L C R α Tid Job σ) (i : Tid) (th : Option (Thread L C R α Job)) :
    Pool L C R α Tid Job σ :=
  { K with threads := Function.update K.threads i th }

variable (program : Job → Program L C R α) (answers : (c : C) → σ → R c → σ → Prop)

/-- One step of one thread. A lock goes to one thread at a time. -/
inductive Step (K : Pool L C R α Tid Job σ) : Pool L C R α Tid Job σ → Prop where
  | start {i : Tid} {job : Job} (idle : K.threads i = none) :
      Step K (K.setThread i (some ⟨job, program job, 0⟩))
  | acquire {i : Tid} {job : Job} {l : L} {rest : Program L C R α} {n : Nat}
      (running : K.threads i = some ⟨job, .acquire l rest, n⟩) (free : K.holder l = none) :
      Step K { K.setThread i (some ⟨job, rest, K.order.length⟩) with
        holder := Function.update K.holder l (some i), order := K.order ++ [job] }
  | release {i : Tid} {job : Job} {l : L} {rest : Program L C R α} {n : Nat}
      (running : K.threads i = some ⟨job, .release l rest, n⟩) :
      Step K { K.setThread i (some ⟨job, rest, n⟩) with
        holder := Function.update K.holder l none }
  | call {i : Tid} {job : Job} {c : C} {next : R c → Program L C R α} {n : Nat} {r : R c} {s : σ}
      (running : K.threads i = some ⟨job, .call c next, n⟩) (answered : answers c K.store r s) :
      Step K { K.setThread i (some ⟨job, next r, n⟩) with store := s }
  | finish {i : Tid} {job : Job} {a : α} {n : Nat}
      (running : K.threads i = some ⟨job, .done a, n⟩) :
      Step K { K.setThread i none with results := (n, a) :: K.results }

/-- All threads idle and all locks free. -/
def init (s : σ) : Pool L C R α Tid Job σ := ⟨fun _ => none, s, fun _ => none, [], []⟩

/-- The lock is free, or the thread that holds it has nothing to do. -/
def Idle (K : Pool L C R α Tid Job σ) (l : L) : Prop := ∀ i, K.holder l = some i → K.threads i = none

inductive Reachable (start : σ) : Pool L C R α Tid Job σ → Prop where
  | init : Reachable start (init start)
  | step (reach : Reachable start K) (step : Step program answers K K') : Reachable start K'

end Pool

namespace Program

/-- Calls, then a release of `l` and the result; the release may be missing. -/
def Inside (l : L) : Program L C R α → Prop
  | .done _ => True
  | .abort => True
  | .acquire _ _ => False
  | .release k rest => k = l ∧ ∃ a, rest = .done a
  | .call _ next => ∀ r, (next r).Inside l

/-- A program that makes its calls under the lock `l`. -/
def Guarded (l : L) (p : Program L C R α) : Prop := ∃ body, p = .acquire l body ∧ body.Inside l

/-- Calls only, then a result with `Q`. -/
def Calls (Q : α → Prop) : Program L C R α → Prop
  | .done a => Q a
  | .abort => True
  | .acquire _ _ => False
  | .release _ _ => False
  | .call _ next => ∀ r, (next r).Calls Q

theorem Calls.mono {p : Program L C R α} {Q Q' : α → Prop} (calls : p.Calls Q)
    (weaker : ∀ a, Q a → Q' a) : p.Calls Q' := by
  induction p with
  | done a => exact weaker a calls
  | abort => exact trivial
  | acquire k rest ih => exact calls.elim
  | release k rest ih => exact calls.elim
  | call c next ih => exact fun r => ih r (calls r)

theorem Calls.bind {β : Type} {p : Program L C R α} {f : α → Program L C R β} {Q : β → Prop}
    (calls : p.Calls fun a => (f a).Calls Q) : (p >>= f).Calls Q := by
  induction p with
  | done a => exact calls
  | abort => exact trivial
  | acquire k rest ih => exact calls.elim
  | release k rest ih => exact calls.elim
  | call c next ih => exact fun r => ih r (calls r)

theorem Calls.inside {β : Type} {l : L} {p : Program L C R α} {f : α → Program L C R β}
    (calls : p.Calls fun a => (f a).Inside l) : (p >>= f).Inside l := by
  induction p with
  | done a => exact calls
  | abort => exact trivial
  | acquire k rest ih => exact calls.elim
  | release k rest ih => exact calls.elim
  | call c next ih => exact fun r => ih r (calls r)

end Program

/-- A history of jobs, run one after the other from `start`. -/
inductive Serial (spec : Job → σ → α → σ → Prop) (start : σ) : List (Job × α) → σ → Prop where
  | nil : Serial spec start [] start
  | snoc (serial : Serial spec start h s) (done : spec job s a t) :
      Serial spec start (h ++ [(job, a)]) t

namespace Pool

variable (program : Job → Program L C R α) (answers : (c : C) → σ → R c → σ → Prop)
  (spec : Job → σ → α → σ → Prop) (good : σ → Prop) (start : σ) (l : L)

/-- A thread that has not got the lock yet, or has returned it. -/
def Rests (h : List (Job × α)) (th : Thread L C R α Job) : Prop :=
  th.rest = program th.job ∨ ∃ a, th.rest = .done a ∧ h[th.ticket]? = some (th.job, a)

/-- What all states have in common: the jobs of the history took `start` to `s`. -/
structure Recorded (K : Pool L C R α Tid Job σ) (h : List (Job × α)) (s : σ) : Prop where
  serial : Serial spec start h s
  good : good s
  results : ∀ n a, (n, a) ∈ K.results → ∃ job, h[n]? = some (job, a)

/-- Either no thread is inside, and the store is the one after the history, or one
thread is, and will end as if it had run alone from there. -/
inductive Inv (K : Pool L C R α Tid Job σ) (h : List (Job × α)) (s : σ) : Prop where
  | free (recorded : Recorded spec good start K h s)
      (rest : ∀ i th, K.threads i = some th → Rests program h th)
      (order : K.order = h.map Prod.fst) (store : K.store = s)
  | busy (recorded : Recorded spec good start K h s) (running : K.threads i = some th)
      (rest : ∀ j th', j ≠ i → K.threads j = some th' → Rests program h th')
      (order : K.order = h.map Prod.fst ++ [th.job]) (ticket : th.ticket = h.length)
      (holds : K.holder l = some i) (inside : th.rest.Inside l) (steady : good K.store)
      (runs : th.rest.Runs answers good (spec th.job s) K.store)

variable {program answers spec good start l}

theorem Rests.append {h : List (Job × α)} {th : Thread L C R α Job} (rests : Rests program h th)
    (entry : Job × α) : Rests program (h ++ [entry]) th := by
  refine rests.imp id ?_
  rintro ⟨a, done, found⟩
  have small := (List.getElem?_eq_some_iff.mp found).1
  exact ⟨a, done, by rw [List.getElem?_append_left small, found]⟩

theorem Recorded.append {K K' : Pool L C R α Tid Job σ} {h : List (Job × α)} {s t : σ} {job : Job}
    {a : α} (recorded : Recorded spec good start K h s) (done : spec job s a t) (ok : good t)
    (same : K'.results = K.results) : Recorded spec good start K' (h ++ [(job, a)]) t where
  serial := recorded.serial.snoc done
  good := ok
  results n b found := by
    obtain ⟨job', entry⟩ := recorded.results n b (same ▸ found)
    have small := (List.getElem?_eq_some_iff.mp entry).1
    exact ⟨job', by rw [List.getElem?_append_left small, entry]⟩

section Steps

variable {K : Pool L C R α Tid Job σ} {h : List (Job × α)} {s : σ} {i : Tid} {job : Job}
  {rest : Program L C R α} {n : Nat}

/-- A resting thread waits for the lock, or has its result already. -/
theorem Rests.cases (guarded : (program job).Guarded l) (rests : Rests program h ⟨job, rest, n⟩) :
    (∃ body, rest = .acquire l body ∧ program job = rest ∧ body.Inside l) ∨
      ∃ a, rest = .done a ∧ h[n]? = some (job, a) := by
  refine rests.imp ?_ id
  intro same
  obtain ⟨body, starts, inside⟩ := guarded
  exact ⟨body, same.trans starts, same.symm, inside⟩

variable [DecidableEq Tid]

/-- Threads rest where another thread starts, goes on or ends, if that one rests too. -/
theorem rests_update {threads : Tid → Option (Thread L C R α Job)} {x : Option (Thread L C R α Job)}
    (rests : ∀ j th, j ≠ i → threads j = some th → Rests program h th)
    (new : ∀ th, x = some th → Rests program h th) (j : Tid) (th : Thread L C R α Job)
    (found : Function.update threads i x j = some th) : Rests program h th := by
  by_cases same : j = i
  · subst same
    exact new th (by simpa using found)
  · exact rests j th same (by simpa [same] using found)

theorem Recorded.finish {a : α} (recorded : Recorded spec good start K h s)
    (entry : h[n]? = some (job, a)) (x : Option (Thread L C R α Job)) :
    Recorded spec good start { K.setThread i x with results := (n, a) :: K.results } h s where
  serial := recorded.serial
  good := recorded.good
  results m b found := by
    rcases List.mem_cons.mp found with same | old
    · cases same
      exact ⟨job, entry⟩
    · exact recorded.results m b old

variable [DecidableEq L] (guarded : ∀ job, (program job).Guarded l)
  (runs : ∀ job s, good s → (program job).Runs answers good (spec job s) s)
include guarded runs

theorem Inv.step_free {K' : Pool L C R α Tid Job σ} (recorded : Recorded spec good start K h s)
    (rest : ∀ i th, K.threads i = some th → Rests program h th)
    (order : K.order = h.map Prod.fst) (store : K.store = s) (step : Step program answers K K') :
    ∃ h' s', Inv program answers spec good start l K' h' s' := by
  have others : ∀ (i : Tid) j th, j ≠ i → K.threads j = some th → Rests program h th :=
    fun _ j th _ found => rest j th found
  cases step with
  | @start i job idle =>
    refine ⟨h, s, .free ⟨recorded.serial, recorded.good, recorded.results⟩ ?_ order store⟩
    refine rests_update (others i) fun th same => ?_
    cases same
    exact .inl rfl
  | @acquire i job k tail n running free =>
    rcases (rest i _ running).cases (guarded job) with ⟨body, same, whole, inside⟩ | ⟨a, same, _⟩
    · cases same
      refine ⟨h, s, .busy ⟨recorded.serial, recorded.good, recorded.results⟩
        (Function.update_self ..) ?_ ?_ ?_ (Function.update_self ..) inside ?_ ?_⟩
      · intro j th apart found
        exact rest j th (by simpa [setThread, apart] using found)
      · simp [order]
      · simp [order]
      · simpa [setThread, store] using recorded.good
      · have alone := runs job s recorded.good
        rw [whole] at alone
        simpa [setThread, store] using alone
    · cases same
  | @release i job k tail n running =>
    rcases (rest i _ running).cases (guarded job) with ⟨body, same, _⟩ | ⟨a, same, _⟩ <;> cases same
  | call running _ =>
    rcases (rest _ _ running).cases (guarded _) with ⟨body, same, _⟩ | ⟨a, same, _⟩ <;> cases same
  | @finish i job a n running =>
    rcases (rest i _ running).cases (guarded job) with ⟨body, same, _⟩ | ⟨b, same, entry⟩
    · cases same
    · cases same
      refine ⟨h, s, .free (recorded.finish entry none) ?_ order store⟩
      exact rests_update (others i) (by simp)

omit runs in
/-- A step of the thread inside, or of another one. -/
theorem Inv.step_busy {K' : Pool L C R α Tid Job σ} {th : Thread L C R α Job}
    (recorded : Recorded spec good start K h s) (running : K.threads i = some th)
    (rest : ∀ j th', j ≠ i → K.threads j = some th' → Rests program h th')
    (order : K.order = h.map Prod.fst ++ [th.job]) (ticket : th.ticket = h.length)
    (holds : K.holder l = some i) (inside : th.rest.Inside l) (steady : good K.store)
    (alone : th.rest.Runs answers good (spec th.job s) K.store)
    (step : Step program answers K K') :
    ∃ h' s', Inv program answers spec good start l K' h' s' := by
  have stays : ∀ {j : Tid} (x : Option (Thread L C R α Job)), j ≠ i →
      Function.update K.threads j x i = some th :=
    fun x apart => by rw [Function.update_of_ne (Ne.symm apart), running]
  -- The other threads go on resting when one of them, `j`, becomes `x`.
  have others : ∀ {j : Tid} (x : Option (Thread L C R α Job)),
      (∀ th', x = some th' → Rests program h th') →
      ∀ k th', k ≠ i → Function.update K.threads j x k = some th' → Rests program h th' := by
    intro j x new k th' apart found
    by_cases same : k = j
    · subst same
      exact new th' (by simpa using found)
    · exact rest k th' apart (by simpa [same] using found)
  -- When the thread inside returns `a`, the history grows by its job.
  have closed : ∀ {a}, (h ++ [(th.job, a)])[th.ticket]? = some (th.job, a) := by
    intro a
    simp [ticket]
  have map_closed : ∀ a, K.order = (h ++ [(th.job, a)]).map Prod.fst := by
    intro a
    simp [order]
  cases step with
  | @start j job idle =>
    have apart : j ≠ i := by
      rintro rfl
      rw [running] at idle
      cases idle
    refine ⟨h, s, .busy ⟨recorded.serial, recorded.good, recorded.results⟩ (stays _ apart) ?_ order
      ticket holds inside steady alone⟩
    refine others _ fun th' same => ?_
    cases same
    exact .inl rfl
  | @acquire j job k tail n waiting free =>
    by_cases same : j = i
    · subst same
      cases running.symm.trans waiting
      exact inside.elim
    · rcases (rest j _ same waiting).cases (guarded job) with ⟨body, taken, _⟩ | ⟨a, taken, _⟩
      · cases taken
        rw [holds] at free
        cases free
      · cases taken
  | @release j job k tail n leaving =>
    by_cases same : j = i
    · subst same
      cases running.symm.trans leaving
      obtain ⟨rfl, a, rfl⟩ := inside
      refine ⟨h ++ [(job, a)], K.store,
        .free (recorded.append alone steady rfl) ?_ (map_closed a) rfl⟩
      refine rests_update (fun k th' apart found => (rest k th' apart found).append _) ?_
      intro th' same
      cases same
      exact .inr ⟨a, rfl, closed⟩
    · rcases (rest j _ same leaving).cases (guarded job) with ⟨body, taken, _⟩ | ⟨a, taken, _⟩ <;>
        cases taken
  | @call j job c next n r t calling answered =>
    by_cases same : j = i
    · subst same
      cases running.symm.trans calling
      refine ⟨h, s, .busy ⟨recorded.serial, recorded.good, recorded.results⟩
        (Function.update_self ..) ?_ order ticket holds (inside r)
        (alone r t answered).1 (alone r t answered).2⟩
      intro k th' apart found
      exact rest k th' apart (by simpa [setThread, apart] using found)
    · rcases (rest j _ same calling).cases (guarded job) with ⟨body, taken, _⟩ | ⟨a, taken, _⟩ <;>
        cases taken
  | @finish j job a n ending =>
    by_cases same : j = i
    · subst same
      cases running.symm.trans ending
      have grown : Recorded spec good start K (h ++ [(job, a)]) K.store :=
        recorded.append alone steady rfl
      refine ⟨h ++ [(job, a)], K.store, .free (grown.finish closed none) ?_ (map_closed a) rfl⟩
      exact rests_update (fun k th' apart found => (rest k th' apart found).append _) (by simp)
    · rcases (rest j _ same ending).cases (guarded job) with ⟨body, taken, _⟩ | ⟨b, taken, entry⟩
      · cases taken
      · cases taken
        exact ⟨h, s, .busy (recorded.finish entry none) (stays _ same) (others _ (by simp)) order
          ticket holds inside steady alone⟩

theorem Reachable.inv (initial : good start) {K : Pool L C R α Tid Job σ}
    (reach : Reachable program answers start K) :
    ∃ h s, Inv program answers spec good start l K h s := by
  induction reach with
  | init =>
    refine ⟨[], start, .free ⟨.nil, initial, ?_⟩ ?_ rfl rfl⟩
    · simp [Pool.init]
    · simp [Pool.init]
  | step _ step ih =>
    obtain ⟨h, s, inv⟩ := ih
    cases inv with
    | free recorded rest order store =>
      exact Inv.step_free guarded runs recorded rest order store step
    | busy recorded running rest order ticket holds inside steady alone =>
      exact Inv.step_busy guarded recorded running rest order ticket holds inside steady alone step

/-- In every reachable state the store is good, and the results are those of a serial
history whose jobs are the first that got the lock. They are all of them, and the store is
the one after them, when no thread is inside; and no thread aborts. -/
theorem Reachable.serialised (initial : good start) {K : Pool L C R α Tid Job σ}
    (reach : Reachable program answers start K) :
    good K.store ∧ ∃ h s, Serial spec start h s ∧
      (∀ n a, (n, a) ∈ K.results → ∃ job, h[n]? = some (job, a)) ∧
      h.map Prod.fst <+: K.order ∧ (K.Idle l → K.order = h.map Prod.fst ∧ K.store = s) ∧
      ∀ i th, K.threads i = some th → th.rest ≠ .abort := by
  have resting : ∀ {h : List (Job × α)} {th}, Rests program h th → th.rest ≠ .abort := by
    intro h th rests aborted
    obtain ⟨body, starts, _⟩ := guarded th.job
    rcases rests with same | ⟨a, same, _⟩
    · rw [aborted, starts] at same
      cases same
    · rw [aborted] at same
      cases same
  obtain ⟨h, s, inv⟩ := reach.inv guarded runs initial
  cases inv with
  | free recorded rest order store =>
    refine ⟨store ▸ recorded.good, h, s, recorded.serial, recorded.results, ?_,
      fun _ => ⟨order, store⟩, ?_⟩
    · exact ⟨[], by rw [List.append_nil, order]⟩
    · exact fun i th found => resting (rest i th found)
  | @busy i th recorded running rest order ticket holds inside steady alone =>
    refine ⟨steady, h, s, recorded.serial, recorded.results, ?_, ?_, ?_⟩
    · rw [order]
      exact List.prefix_append _ _
    · intro idle
      rw [idle i holds] at running
      cases running
    · intro j th' found
      by_cases same : j = i
      · subst same
        cases running.symm.trans found
        intro aborted
        rw [aborted] at alone
        exact alone
      · exact resting (rest j th' same found)

end Steps

end Pool

end Yfs.Lib
