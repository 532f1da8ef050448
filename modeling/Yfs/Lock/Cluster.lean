import Yfs.Lib.Atomic
import Yfs.Lock.Stages

/-! Programs that get their locks from the caching lock clients. For the programs it is as if
every lock went from one thread to the next in one step. -/

namespace Yfs.Lock

open Yfs.Lib

/-- The call of its lock client that a thread is in. -/
inductive LockCall (L : Type) where
  | none
  | acquire (l : L)
  | release (l : L)
  deriving DecidableEq

/-- Threads of all clients at work, with the lock service between them. `order` and `results` are
those of a `Pool`. -/
structure Cluster (L Cid Tid C : Type) (R : C → Type) (α Job σ : Type) where
  locks : System L Cid Tid
  calls : Cid × Tid → LockCall L
  store : σ
  threads : Cid × Tid → Option (Thread L C R α Job)
  order : List Job
  results : List (Nat × α)

namespace Cluster

variable {L Cid Tid C : Type} {R : C → Type} {α Job σ : Type}

/-- The same threads over locks of which each has a holder or is free. -/
def pool (K : Cluster L Cid Tid C R α Job σ) (holder : L → Option (Cid × Tid)) :
    Pool L C R α (Cid × Tid) Job σ := ⟨holder, K.store, K.threads, K.order, K.results⟩

/-- `acquire` has returned to the thread, and it has not called `release` since. -/
def Holds (K : Cluster L Cid Tid C R α Job σ) (i : Cid × Tid) (l : L) : Prop :=
  K.locks.threads i l = .holding ∧ K.calls i ≠ .acquire l

def init (s : σ) : Cluster L Cid Tid C R α Job σ :=
  ⟨.initial, fun _ => .none, s, fun _ => none, [], []⟩

/-- The same threads on another store. -/
def onto {τ : Type} (K : Cluster L Cid Tid C R α Job σ) (f : σ → τ) : Cluster L Cid Tid C R α Job τ :=
  ⟨K.locks, K.calls, f K.store, K.threads, K.order, K.results⟩

variable [DecidableEq L] [LinearOrder Cid] [DecidableEq Tid]

def setCall (K : Cluster L Cid Tid C R α Job σ) (i : Cid × Tid) (call : LockCall L) :
    Cluster L Cid Tid C R α Job σ :=
  { K with calls := Function.update K.calls i call }

def setThread (K : Cluster L Cid Tid C R α Job σ) (i : Cid × Tid) (th : Option (Thread L C R α Job)) :
    Cluster L Cid Tid C R α Job σ :=
  { K with threads := Function.update K.threads i th }

variable (program : Job → Program L C R α) (answers : (c : C) → σ → R c → σ → Prop)

/-- One step of a thread outside the lock client, one of its calls of `acquire` and `release` or
their return, or a section of the lock service. -/
inductive Step (K : Cluster L Cid Tid C R α Job σ) : Cluster L Cid Tid C R α Job σ → Prop where
  | start {i : Cid × Tid} {job : Job} (idle : K.threads i = none) :
      Step K (K.setThread i (some ⟨job, program job, 0⟩))
  | acquire {i : Cid × Tid} {job : Job} {l : L} {rest : Program L C R α} {n : Nat}
      {lock : LockSys Cid Tid} (running : K.threads i = some ⟨job, .acquire l rest, n⟩)
      (outside : K.calls i = .none) (taken : (K.locks.view l).step (.acquire i) = some (.ok lock)) :
      Step K { K.setCall i (.acquire l) with locks := K.locks.set l lock }
  | granted {i : Cid × Tid} {job : Job} {l : L} {rest : Program L C R α} {n : Nat}
      (running : K.threads i = some ⟨job, .acquire l rest, n⟩) (called : K.calls i = .acquire l)
      (holds : K.locks.threads i l = .holding) :
      Step K { (K.setCall i .none).setThread i (some ⟨job, rest, K.order.length⟩) with
        order := K.order ++ [job] }
  | release {i : Cid × Tid} {job : Job} {l : L} {rest : Program L C R α} {n : Nat}
      {lock : LockSys Cid Tid} (running : K.threads i = some ⟨job, .release l rest, n⟩)
      (outside : K.calls i = .none) (taken : (K.locks.view l).step (.release i) = some (.ok lock)) :
      Step K { (K.setCall i (.release l)).setThread i (some ⟨job, rest, n⟩) with
        locks := K.locks.set l lock }
  | returned {i : Cid × Tid} {l : L} (called : K.calls i = .release l)
      (idle : K.locks.threads i l = .idle) : Step K (K.setCall i .none)
  | run {x : Cid × Tid} {l : L} {lock : LockSys Cid Tid}
      (taken : (K.locks.view l).step (.run x) = some (.ok lock)) :
      Step K { K with locks := K.locks.set l lock }
  | call {i : Cid × Tid} {job : Job} {c : C} {next : R c → Program L C R α} {n : Nat} {r : R c} {s : σ}
      (running : K.threads i = some ⟨job, .call c next, n⟩) (outside : K.calls i = .none)
      (answered : answers c K.store r s) :
      Step K { K.setThread i (some ⟨job, next r, n⟩) with store := s }
  | finish {i : Cid × Tid} {job : Job} {a : α} {n : Nat}
      (running : K.threads i = some ⟨job, .done a, n⟩) (outside : K.calls i = .none) :
      Step K { K.setThread i none with results := (n, a) :: K.results }

inductive Reachable (start : σ) : Cluster L Cid Tid C R α Job σ → Prop where
  | init : Reachable start (init start)
  | step (reach : Reachable start K) (step : Step program answers K K') : Reachable start K'

/-- The call a thread is in, and the stage it is at with lock `l`. -/
inductive Fits (l : L) : LockCall L → Stage → Prop where
  | acquire (under : stage = .acquiring ∨ stage = .inside) : Fits l (.acquire l) stage
  | release (under : stage = .releasing ∨ stage = .outside) : Fits l (.release l) stage
  | away (acquires : call ≠ .acquire l) (releases : call ≠ .release l)
      (ends : stage = .inside ∨ stage = .outside) : Fits l call stage

/-- What the lock service and the calls of the threads have to do with each other. -/
structure Inv (K : Cluster L Cid Tid C R α Job σ) : Prop where
  locks : K.locks.Reachable
  fits : ∀ i l, Fits l (K.calls i) (K.locks.threads i l).stage
  called : ∀ i l, K.calls i = .acquire l → ∃ job rest n, K.threads i = some ⟨job, .acquire l rest, n⟩

section Steps

variable {K K' : Cluster L Cid Tid C R α Job σ} {i : Cid × Tid} {l : L} {program answers}

omit [DecidableEq L] [LinearOrder Cid] [DecidableEq Tid] in
theorem holds_iff : K.Holds i l ↔ (K.locks.threads i l).stage = .inside ∧ K.calls i ≠ .acquire l := by
  rw [Holds, Pc.stage_inside]

/-- At most one thread holds a lock. -/
theorem Inv.unique (inv : K.Inv) {j : Cid × Tid} (first : K.locks.threads i l = .holding)
    (second : K.locks.threads j l = .holding) : i = j :=
  (inv.locks.view l).inv.holder_unique (c := i.1) (a := i.2) first second

theorem Inv.init (s : σ) : (init s : Cluster L Cid Tid C R α Job σ).Inv where
  locks := .refl
  fits _ _ := .away nofun nofun (.inr rfl)
  called _ _ := nofun

omit [DecidableEq L] in
theorem Fits.ends {call : LockCall L} {stage : Stage} (fits : Fits l call stage)
    (acquires : call ≠ .acquire l) (releases : call ≠ .release l) : stage = .inside ∨ stage = .outside := by
  cases fits with
  | acquire => exact absurd rfl acquires
  | release => exact absurd rfl releases
  | away _ _ ends => exact ends

omit [DecidableEq L] in
theorem Fits.called {call : LockCall L} {stage : Stage} (fits : Fits l call stage)
    (under : stage = .acquiring) : call = .acquire l := by
  cases fits with
  | acquire => rfl
  | release other | away _ _ other => simp [under] at other

omit [DecidableEq L] [LinearOrder Cid] [DecidableEq Tid] in
theorem Fits.passes {call : LockCall L} {a b : Stage} {x : Cid × Tid} (fits : Fits l call a)
    (passes : (LockSys.Action.run x).Passes a b) : Fits l call b := by
  cases fits with
  | acquire under =>
    rcases passes with ⟨-, after⟩ | ⟨rfl, -⟩
    · exact .acquire after
    · simp at under
  | release under =>
    rcases passes with ⟨rfl, -⟩ | ⟨-, after⟩
    · simp at under
    · exact .release after
  | away _ _ ends => rcases passes with ⟨rfl, -⟩ | ⟨rfl, -⟩ <;> simp at ends

/-- Only thread `i` changes its call, and only its stage with `l` changes. -/
theorem fits_update {calls : Cid × Tid → LockCall L} {stage stage' : Cid × Tid → L → Stage}
    {call : LockCall L} (fits : ∀ j k, Fits k (calls j) (stage j k))
    (kept : ∀ j k, (j = i → k ≠ l) → stage' j k = stage j k)
    (before : ∀ k, k ≠ l → calls i ≠ .acquire k ∧ calls i ≠ .release k)
    (after : ∀ k, k ≠ l → call ≠ .acquire k ∧ call ≠ .release k)
    (here : Fits l call (stage' i l)) (j : Cid × Tid) (k : L) :
    Fits k (Function.update calls i call j) (stage' j k) := by
  by_cases same : j = i
  · subst same
    rw [Function.update_self]
    by_cases equal : k = l
    · rw [equal]
      exact here
    · rw [kept j k fun _ => equal]
      exact .away (after k equal).1 (after k equal).2
        ((fits j k).ends (before k equal).1 (before k equal).2)
  · rw [Function.update_of_ne same, kept j k fun equal => absurd equal same]
    exact fits j k

/-- A section of the lock service leaves all stages but one. -/
theorem Inv.section_stage (inv : K.Inv) {action : LockSys.Action Cid Tid} {lock : LockSys Cid Tid}
    (taken : (K.locks.view l).step action = some (.ok lock)) :
    (K.locks.set l lock).Reachable ∧
      action.Passes (K.locks.threads action.thread l).stage
        ((K.locks.set l lock).threads action.thread l).stage ∧
      ∀ j k, (j = action.thread → k ≠ l) →
        ((K.locks.set l lock).threads j k).stage = (K.locks.threads j k).stage := by
  obtain ⟨passes, others⟩ := LockSys.step_stage (inv.locks.view l) taken
  refine ⟨inv.locks.tail ⟨l, lock, ⟨action, taken⟩, rfl⟩, ?_, fun j k apart => ?_⟩
  · simpa [System.set, System.view] using passes
  · by_cases same : k = l
    · subst same
      simpa [System.set, System.view] using others j fun equal => apart equal rfl
    · simp [System.set, same]

/-- A thread that is in no call of its lock client is at an end of its stages. -/
theorem Inv.at_rest (inv : K.Inv) (outside : K.calls i = .none) (l : L) :
    K.locks.threads i l = .holding ∨ K.locks.threads i l = .idle := by
  have ends := (inv.fits i l).ends (by simp [outside]) (by simp [outside])
  rwa [Pc.stage_inside, Pc.stage_outside] at ends

theorem Inv.step (inv : K.Inv) (step : Step program answers K K') : K'.Inv := by
  -- A thread that is not inside `acquire` goes on with its program.
  have moved : ∀ {j : Cid × Tid} (x : Option (Thread L C R α Job)), (∀ l, K.calls j ≠ .acquire l) →
      ∀ i l, K.calls i = .acquire l →
        ∃ job rest n, Function.update K.threads j x i = some ⟨job, .acquire l rest, n⟩ := by
    intro j x outside i l called
    have other : i ≠ j := by
      rintro rfl
      exact outside l called
    rw [Function.update_of_ne other]
    exact inv.called i l called
  -- The calls of the other threads stay as they are.
  have others : ∀ {j : Cid × Tid} (call : LockCall L) {i l}, (∀ l, call ≠ .acquire l) →
      Function.update K.calls j call i = .acquire l → i ≠ j ∧ K.calls i = .acquire l := by
    intro j call i l apart called
    by_cases same : i = j
    · subst same
      exact absurd ((Function.update_self ..).symm.trans called) (apart l)
    · exact ⟨same, (Function.update_of_ne same ..).symm.trans called⟩
  cases step with
  | @start i job idle =>
    refine ⟨inv.locks, inv.fits, moved _ fun l called => ?_⟩
    obtain ⟨job', rest, n, running⟩ := inv.called i l called
    cases idle.symm.trans running
  | @acquire i job l rest n lock running outside taken =>
    obtain ⟨reached, passes, kept⟩ := inv.section_stage taken
    refine ⟨reached, fits_update inv.fits kept (by simp [outside]) ?_ (.acquire passes.2),
      fun j k called => ?_⟩
    · intro k apart
      simp [Ne.symm apart]
    · by_cases same : j = i
      · subst same
        cases (Function.update_self ..).symm.trans called
        exact ⟨job, rest, n, running⟩
      · exact inv.called j k ((Function.update_of_ne same ..).symm.trans called)
  | @granted i job l rest n running called holds =>
    refine ⟨inv.locks, fits_update (l := l) inv.fits (fun _ _ _ => rfl) ?_ (by simp) ?_, fun j k waits => ?_⟩
    · intro k apart
      simp [called, Ne.symm apart]
    · exact .away nofun nofun (.inl (Pc.stage_inside.mpr holds))
    · obtain ⟨apart, waits⟩ := others .none nofun waits
      obtain ⟨job', rest', n', running'⟩ := inv.called j k waits
      exact ⟨job', rest', n', (Function.update_of_ne apart ..).trans running'⟩
  | @release i job l rest n lock running outside taken =>
    obtain ⟨reached, passes, kept⟩ := inv.section_stage taken
    refine ⟨reached, fits_update inv.fits kept (by simp [outside]) ?_ (.release passes.2),
      fun j k waits => ?_⟩
    · intro k apart
      simp [Ne.symm apart]
    · obtain ⟨apart, waits⟩ := others (.release l) nofun waits
      obtain ⟨job', rest', n', running'⟩ := inv.called j k waits
      exact ⟨job', rest', n', (Function.update_of_ne apart ..).trans running'⟩
  | @returned i l called idle =>
    refine ⟨inv.locks, fits_update (l := l) inv.fits (fun _ _ _ => rfl) ?_ (by simp) ?_, fun j k waits => ?_⟩
    · intro k apart
      simp [called, Ne.symm apart]
    · exact .away nofun nofun (.inr (Pc.stage_outside.mpr idle))
    · exact inv.called j k (others .none nofun waits).2
  | @run x l lock taken =>
    obtain ⟨reached, passes, kept⟩ := inv.section_stage taken
    refine ⟨reached, fun j k => ?_, inv.called⟩
    by_cases same : j = x ∧ k = l
    · obtain ⟨rfl, rfl⟩ := same
      exact (inv.fits j k).passes passes
    · rw [kept j k fun here equal => same ⟨here, equal⟩]
      exact inv.fits j k
  | @call i job c next n r s running outside answered =>
    exact ⟨inv.locks, inv.fits, moved _ (by simp [outside])⟩
  | @finish i job a n running outside => exact ⟨inv.locks, inv.fits, moved _ (by simp [outside])⟩

/-- A step on one store is a step on another, where the other answers a call in the same way. -/
theorem Step.onto {τ : Type} {f : σ → τ} {P : σ → Prop} {answers' : (c : C) → τ → R c → τ → Prop}
    (step : Step program answers K K') (before : P K.store)
    (called : ∀ {i job c next n r s}, K.threads i = some ⟨job, .call c next, n⟩ →
      answers c K.store r s → answers' c (f K.store) r (f s) ∧ P s) :
    Step program answers' (K.onto f) (K'.onto f) ∧ P K'.store := by
  cases step with
  | start idle => exact ⟨.start idle, before⟩
  | acquire running outside taken => exact ⟨.acquire running outside taken, before⟩
  | granted running called holds => exact ⟨.granted running called holds, before⟩
  | release running outside taken => exact ⟨.release running outside taken, before⟩
  | returned called idle => exact ⟨.returned called idle, before⟩
  | run taken => exact ⟨.run taken, before⟩
  | call running outside answered =>
    obtain ⟨above, after⟩ := called running answered
    exact ⟨.call running outside above, after⟩
  | finish running outside => exact ⟨.finish running outside, before⟩

/-- The holders, as the programs see them. -/
def Shows (K : Cluster L Cid Tid C R α Job σ) (holder : L → Option (Cid × Tid)) : Prop :=
  ∀ l i, holder l = some i ↔ K.Holds i l

omit [DecidableEq L] [LinearOrder Cid] [DecidableEq Tid] in
/-- A call of thread `i` on `l` is nothing to the other threads and the other locks. -/
theorem holds_congr (kept : ∀ j k, (j = i → k ≠ l) →
      (K'.locks.threads j k).stage = (K.locks.threads j k).stage)
    (others : ∀ j, j ≠ i → K'.calls j = K.calls j)
    (away : ∀ k, k ≠ l → K.calls i ≠ .acquire k ∧ K'.calls i ≠ .acquire k) {j : Cid × Tid} {k : L}
    (apart : j = i → k ≠ l) : K'.Holds j k ↔ K.Holds j k := by
  rw [holds_iff, holds_iff, kept j k apart]
  by_cases same : j = i
  · subst same
    have away := away k (apart rfl)
    simp [away]
  · rw [others j same]

/-- To the programs a step is one over plain locks, or nothing happens. -/
theorem Inv.simulates (inv : K.Inv) {holder : L → Option (Cid × Tid)} (shows : K.Shows holder)
    (step : Step program answers K K') : ∃ holder', K'.Shows holder' ∧
      (K'.pool holder' = K.pool holder ∨ Pool.Step program answers (K.pool holder) (K'.pool holder')) := by
  cases step with
  | @start i job idle => exact ⟨holder, shows, .inr (.start idle)⟩
  | @acquire i job l rest n lock running outside taken =>
    obtain ⟨-, passes, kept⟩ := inv.section_stage taken
    refine ⟨holder, fun k j => ?_, .inl rfl⟩
    rw [shows k j]
    by_cases same : j = i ∧ k = l
    · obtain ⟨rfl, rfl⟩ := same
      have before : ¬ K.Holds j k := fun holds => by
        cases passes.1.symm.trans (holds_iff.mp holds).1
      exact iff_of_false before fun holds => holds.2 (Function.update_self ..)
    · refine Iff.symm (holds_congr kept (fun j apart => Function.update_of_ne apart ..) (fun k apart => ?_)
        fun here equal => same ⟨here, equal⟩)
      simp [setCall, outside, Ne.symm apart]
  | @granted i job l rest n running called holds =>
    have free : holder l = none := by
      rcases found : holder l with _ | j
      · rfl
      · have other := (shows l j).mp found
        obtain rfl := inv.unique other.1 holds
        exact absurd called other.2
    refine ⟨Function.update holder l (some i), fun k j => ?_, .inr (.acquire running free)⟩
    by_cases same : k = l
    · subst same
      rw [Function.update_self, Option.some.injEq]
      constructor
      · rintro rfl
        exact ⟨holds, by simp [setCall, setThread]⟩
      · exact fun other => inv.unique holds other.1
    · rw [Function.update_of_ne same, shows k j]
      refine Iff.symm (holds_congr (i := i) ?_ ?_ ?_ fun _ => same)
      · exact fun _ _ _ => rfl
      · exact fun j apart => Function.update_of_ne apart ..
      · intro k apart
        simp [setCall, setThread, called, Ne.symm apart]
  | @release i job l rest n lock running outside taken =>
    obtain ⟨-, passes, kept⟩ := inv.section_stage taken
    refine ⟨Function.update holder l none, fun k j => ?_, .inr (.release running)⟩
    by_cases same : k = l
    · subst same
      rw [Function.update_self]
      refine iff_of_false nofun fun holds => ?_
      -- The thread was the only one that held the lock, and it has given it back.
      by_cases self : j = i
      · subst self
        rcases passes.2 with after | after <;> cases after.symm.trans (holds_iff.mp holds).1
      · have stage := (kept j k fun equal => absurd equal self).symm.trans (holds_iff.mp holds).1
        exact self (inv.unique (Pc.stage_inside.mp stage) (Pc.stage_inside.mp passes.1))
    · rw [Function.update_of_ne same, shows k j]
      refine Iff.symm (holds_congr (i := i) kept (fun j apart => Function.update_of_ne apart ..)
        (fun k apart => ?_) fun _ => same)
      simp [setCall, setThread, outside]
  | @returned i l called idle =>
    refine ⟨holder, fun k j => ?_, .inl rfl⟩
    rw [shows k j, holds_iff, holds_iff]
    by_cases same : j = i
    · subst same
      simp [setCall, called]
    · simp [setCall, same]
  | @run x l lock taken =>
    obtain ⟨-, passes, kept⟩ := inv.section_stage taken
    refine ⟨holder, fun k j => ?_, .inl rfl⟩
    rw [shows k j, holds_iff, holds_iff]
    by_cases same : j = x ∧ k = l
    · obtain ⟨rfl, rfl⟩ := same
      rcases passes with ⟨before, -⟩ | ⟨before, after⟩
      · have called := (inv.fits j k).called before
        exact iff_of_false (fun holds => holds.2 called) fun holds => holds.2 called
      · refine iff_of_false (fun holds => ?_) fun holds => ?_
        · cases before.symm.trans holds.1
        · rcases after with after | after <;> cases after.symm.trans holds.1
    · rw [kept j k fun here equal => same ⟨here, equal⟩]
  | @call i job c next n r s running outside answered => exact ⟨holder, shows, .inr (.call running answered)⟩
  | @finish i job a n running outside => exact ⟨holder, shows, .inr (.finish running)⟩

theorem Reachable.inv {start : σ} (reach : Reachable program answers start K) : K.Inv := by
  induction reach with
  | init => exact .init start
  | step _ step ih => exact ih.step step

end Steps

section Locks

variable {program answers} {start : σ} {K : Cluster L Cid Tid C R α Job σ}

/-- The caching lock clients implement locks that go from one thread to the next in one step:
every run of programs that get their locks from them is, to the programs, one over such locks,
and a thread has a lock there if and only if `acquire` has returned to it and it has not called
`release` since. -/
theorem implements_locks (reach : Reachable program answers start K) :
    ∃ holder, K.Shows holder ∧ Pool.Reachable program answers start (K.pool holder) := by
  induction reach with
  | init =>
    refine ⟨fun _ => none, fun l i => ?_, .init⟩
    exact iff_of_false nofun fun holds => nomatch holds.1
  | step before step ih =>
    obtain ⟨holder, shows, reach⟩ := ih
    obtain ⟨holder', shows', same | step⟩ := before.inv.simulates shows step
    · exact ⟨holder', shows', same ▸ reach⟩
    · exact ⟨holder', shows', reach.step step⟩

private def passing (_ : Unit) : Program Nat Empty (fun _ => Unit) Unit := .acquire 0 (.release 0 (.done ()))

theorem implements_locks_passing : ∃ K : Cluster Nat Nat Nat Empty (fun _ => Unit) Unit Unit Unit,
    K.Holds (0, 0) 0 ∧ K.calls (1, 0) = .acquire 0 ∧ ∃ holder, holder 0 = some (0, 0) ∧
      Pool.Reachable passing (fun c => nomatch c) () (K.pool holder) := by
  have starts {K : Cluster Nat Nat Nat Empty (fun _ => Unit) Unit Unit Unit} (i : Nat × Nat)
      (reach : Reachable passing (fun c => nomatch c) () K) (idle : K.threads i = none) :
      Reachable passing (fun c => nomatch c) () (K.setThread i (some ⟨(), passing (), 0⟩)) :=
    reach.step (.start idle)
  have first := starts (0, 0) .init rfl
  have second := starts (1, 0) first rfl
  have asked := second.step (.acquire (i := (0, 0)) (l := 0) rfl rfl rfl)
  have handled := asked.step (.run (x := (0, 0)) (l := 0) rfl)
  have replied := handled.step (.run (x := (0, 0)) (l := 0) rfl)
  have granted := replied.step (.granted (i := (0, 0)) (l := 0) rfl rfl rfl)
  have waits := granted.step (.acquire (i := (1, 0)) (l := 0) rfl rfl rfl)
  obtain ⟨holder, shows, reach⟩ := implements_locks waits
  exact ⟨_, ⟨rfl, by decide⟩, rfl, holder, (shows 0 (0, 0)).mpr ⟨rfl, by decide⟩, reach⟩

variable {allowed : List α → Job → Prop}

/-- A step that starts nothing that is not allowed after the results so far. -/
def Proceeds (program : Job → Program L C R α) (answers : (c : C) → σ → R c → σ → Prop)
    (allowed : List α → Job → Prop) (K K' : Cluster L Cid Tid C R α Job σ) : Prop :=
  Step program answers K K' ∧ Pool.Admits allowed (K.pool fun _ => none) (K'.pool fun _ => none)

theorem Inv.run (inv : K.Inv) {holder : L → Option (Cid × Tid)} (shows : K.Shows holder)
    {K' : Cluster L Cid Tid C R α Job σ}
    (run : Relation.ReflTransGen (Proceeds program answers allowed) K K') :
    K'.Inv ∧ ∃ holder', K'.Shows holder' ∧
      Relation.ReflTransGen (Pool.Proceeds program answers allowed) (K.pool holder) (K'.pool holder') := by
  induction run with
  | refl => exact ⟨inv, holder, shows, .refl⟩
  | tail _ step ih =>
    obtain ⟨inv₁, holder₁, shows₁, run₁⟩ := ih
    obtain ⟨holder₂, shows₂, same | next⟩ := inv₁.simulates shows₁ step.1
    · exact ⟨inv₁.step step.1, holder₂, shows₂, same ▸ run₁⟩
    · exact ⟨inv₁.step step.1, holder₂, shows₂, run₁.tail ⟨next, step.2⟩⟩

end Locks

section Stalled

variable {program answers} {K : Cluster L Cid Tid C R α Job σ} {i : Cid × Tid} {l : L}

/-- Nothing can happen but that a thread starts a job. -/
def Stalled (program : Job → Program L C R α) (answers : (c : C) → σ → R c → σ → Prop)
    (K : Cluster L Cid Tid C R α Job σ) : Prop :=
  ∀ K', Step program answers K K' → ∃ i, K.threads i = none ∧ K'.threads i ≠ none

/-- A thread inside a call that no section continues is blocked on a condition. -/
theorem blocked_of_run {s : LockSys Cid Tid} {x : Cid × Tid} (none : s.run x = none) :
    s.pc x = .idle ∨ s.pc x = .holding ∨ (s.pc x).blocked = true := by
  rcases position : s.pc x with _ | (_ | _) | (_ | _) | (_ | _ | ⟨_, _, _ | (_ | _ | _)⟩ | _) |
    (_ | _) | _ | (_ | _ | _) <;>
    simp [LockSys.run, position, Pc.blocked] at none ⊢

/-- No thread at work goes on. -/
theorem Stalled.still (stalled : Stalled program answers K) {K' : Cluster L Cid Tid C R α Job σ}
    {th : Thread L C R α Job} (running : K.threads i = some th) (step : Step program answers K K') :
    ¬ ∀ j, j ≠ i → K'.threads j = K.threads j := by
  intro others
  obtain ⟨j, idle, busy⟩ := stalled K' step
  by_cases same : j = i
  · rw [same, running] at idle
    cases idle
  · exact busy ((others j same).trans idle)

theorem Stalled.run_none (stalled : Stalled program answers K) (inv : K.Inv) (x : Cid × Tid) (l : L) :
    (K.locks.view l).run x = none := by
  rcases (inv.locks.view l).inv.run x with none | ⟨lock, taken, -⟩
  · exact none
  · obtain ⟨j, idle, busy⟩ := stalled _ (.run taken)
    exact absurd idle busy

/-- Where nothing can happen, a lock that somebody waits for has a holder. -/
theorem Stalled.holder (stalled : Stalled program answers K) (inv : K.Inv) (called : K.calls i = .acquire l) :
    ∃ j, K.Holds j l := by
  by_contra unheld
  have position : ∀ x, K.locks.threads x l = .idle ∨ (K.locks.threads x l).blocked = true := by
    intro x
    rcases blocked_of_run (stalled.run_none inv x l) with idle | holding | blocked
    · exact .inl idle
    · by_cases waits : K.calls x = .acquire l
      · obtain ⟨job, rest, n, running⟩ := inv.called x l waits
        refine absurd ?_ (stalled.still running (.granted running waits holding))
        exact fun j other => Function.update_of_ne other ..
      · exact absurd ⟨x, holding, waits⟩ unheld
    · exact .inr blocked
  have idle : K.locks.threads i l = .idle := by
    refine (position i).resolve_right fun blocked => ?_
    exact (inv.locks.view l).inv.not_stranded position (.inl ⟨i, blocked⟩)
  have fits := inv.fits i l
  rw [called, idle] at fits
  cases fits with
  | acquire under => simp [Pc.stage] at under
  | away acquires => exact acquires rfl

/-- Where nothing can happen, a thread at work has come to a call without an answer, or waits for a
lock that somebody holds; or its program has failed. -/
theorem Stalled.thread (stalled : Stalled program answers K) (inv : K.Inv) {job : Job}
    {p : Program L C R α} {n : Nat} (running : K.threads i = some ⟨job, p, n⟩) :
    p = .abort ∨ (∃ c next, p = .call c next ∧ ∀ r s, ¬ answers c K.store r s) ∨
      (∃ l rest, p = .release l rest ∧ K.locks.threads i l ≠ .holding) ∨
      ∃ l rest j, p = .acquire l rest ∧ K.Holds j l := by
  cases call : K.calls i with
  | acquire l =>
    obtain ⟨job', rest, n', running'⟩ := inv.called i l call
    cases running.symm.trans running'
    obtain ⟨j, holds⟩ := stalled.holder inv call
    exact .inr (.inr (.inr ⟨l, rest, j, rfl, holds⟩))
  | release l =>
    -- Nothing keeps a thread inside `release`.
    exfalso
    have fits := inv.fits i l
    rw [call] at fits
    cases fits with
    | away _ releases => exact releases rfl
    | release under =>
      rcases under with releasing | outside
      · rcases blocked_of_run (stalled.run_none inv i l) with idle | holding | blocked
        · cases releasing.symm.trans (congrArg Pc.stage idle)
        · cases releasing.symm.trans (congrArg Pc.stage holding)
        · cases releasing.symm.trans (Pc.stage_blocked blocked)
      · obtain ⟨j, idle, busy⟩ := stalled _ (.returned call (Pc.stage_outside.mp outside))
        exact absurd idle busy
  | none =>
    cases p with
    | abort => exact .inl rfl
    | done a =>
      refine absurd ?_ (stalled.still running (.finish running call))
      exact fun j other => Function.update_of_ne other ..
    | call c next =>
      refine .inr (.inl ⟨c, next, rfl, fun r s answered => ?_⟩)
      refine stalled.still running (.call running call answered) ?_
      exact fun j other => Function.update_of_ne other ..
    | release l rest =>
      refine .inr (.inr (.inl ⟨l, rest, rfl, fun holding => ?_⟩))
      obtain ⟨lock, taken, -⟩ := (inv.locks.view l).inv.release holding
      refine stalled.still running (.release running call taken) ?_
      exact fun j other => Function.update_of_ne other ..
    | acquire l rest =>
      rcases inv.at_rest call l with holding | idle
      · exact .inr (.inr (.inr ⟨l, rest, i, rfl, holding, by simp [call]⟩))
      · obtain ⟨lock, taken, -⟩ := (inv.locks.view l).inv.acquire idle
        exact (stalled.still running (.acquire running call taken) fun _ _ => rfl).elim

end Stalled

end Cluster

end Yfs.Lock
