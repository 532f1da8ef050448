import Mathlib.Data.Fintype.Prod
import Mathlib.Order.Fin.Basic
import Yfs.Lock.CallbackSteps

/-! The invariant holds along every run, so no section of the protocol leaves
its defined behaviour, a lock has at most one holder, and no wake-up is lost. -/

namespace Yfs.Lock

/-- Blocked in `pthread_cond_wait` on a condition that has not been signalled. -/
def Pc.blocked : Pc Cid → Bool
  | .parked false | .queued false | .waiting false => true
  | _ => false

/-- Only an owner's standing goes with `FREE` or `LOCKED`. -/
theorem Phase.owns (phase : Phase σ state message front ρ)
    (keeps : state = .free ∨ state = .locked) : σ = .granted ∨ σ = .asked ∨ σ = .told := by
  cases phase with
  | held owns _ => cases owns <;> simp
  | free owned => rcases owned with rfl | rfl <;> simp
  | _ => simp at keeps

theorem Phase.held_state (phase : Phase σ state message .holding ρ) : state = .locked := by
  cases phase <;> simp_all

/-- Without a revoke, a retry or a release under way, a client whose head does
not run is cached or unknown to the server, or it waits to be called. -/
theorem Phase.settled (phase : Phase σ state message front .none)
    (head : front = .none ∨ front = .stray ∨ front = .parked ∨ front = .sleeping)
    (unasked : σ ≠ .asked) (uncalled : σ ≠ .called) :
    front = .none ∧ (σ = .out ∨ σ = .granted) ∨ front = .sleeping ∧ σ = .waiting := by
  rcases head with rfl | rfl | rfl | rfl
  · cases phase with
    | quiet => simp
    | free standing => simp_all
    | _ => simp_all
  · exact absurd rfl phase.not_stray
  · cases phase <;> simp_all
  · cases phase <;> simp_all

namespace LockSys

section Run

variable {Cid Tid : Type} [LinearOrder Cid] [DecidableEq Tid] {s : LockSys Cid Tid} {c : Cid} {a : Tid}

theorem Inv.run (inv : s.Inv) (x : Cid × Tid) :
    s.run x = none ∨ ∃ t, s.run x = some (.ok t) ∧ t.Inv := by
  obtain ⟨c, a⟩ := x
  cases position : s.pc (c, a) with
  | idle | holding => exact .inl (by simp [LockSys.run, position])
  | parked signalled =>
    cases signalled with
    | false => exact .inl (by simp [LockSys.run, position])
    | true => exact .inr (inv.unpark position)
  | queued signalled =>
    cases signalled with
    | false => exact .inl (by simp [LockSys.run, position])
    | true => exact .inr (inv.wake position)
  | waiting signalled =>
    cases signalled with
    | false => exact .inl (by simp [LockSys.run, position])
    | true => exact .inr (inv.ring position)
  | calling call =>
    right
    rcases call with _ | _ | ⟨target, answer, _ | (_ | _ | _)⟩ | (_ | _)
    · exact inv.serverAcquire position
    · exact inv.readOwner position
    · exact inv.revokeHandler position
    · exact inv.serverReleaseBackground position
    · exact inv.retryBackground position
    · exact inv.revokeReturn position
    · exact inv.answerOk position
    · exact inv.answerRetry position
  | releasing call =>
    right
    cases call with
    | request => exact inv.serverReleaseHead position
    | retry target => exact inv.retryHead position
    | reply => exact inv.releaseReturn position

/-- No section that a thread can take faults, and each keeps the invariant. -/
theorem Inv.step (inv : s.Inv) (action : Action Cid Tid) :
    s.step action = none ∨ ∃ t, s.step action = some (.ok t) ∧ t.Inv := by
  cases action with
  | acquire x =>
    cases position : s.pc x with
    | idle => exact .inr (inv.acquire position)
    | _ => exact .inl (by simp [LockSys.step, position])
  | release x =>
    cases position : s.pc x with
    | holding => exact .inr (inv.release position)
    | _ => exact .inl (by simp [LockSys.step, position])
  | run x => exact inv.run x

theorem Reachable.inv (reached : s.Reachable) : s.Inv := by
  induction reached with
  | refl => exact initial_inv
  | tail _ step ih =>
    obtain ⟨action, taken⟩ := step
    rcases ih.step action with blocked | ⟨t, advanced, after⟩
    · rw [blocked] at taken
      cases taken
    · rw [advanced] at taken
      cases taken
      exact after

end Run

section Exclusion

variable {Cid Tid : Type} [LinearOrder Cid] {s : LockSys Cid Tid} {c d : Cid} {a b : Tid}

theorem Inv.owner (inv : s.Inv) (keeps : (s.lock c).state = .free ∨ (s.lock c).state = .locked) :
    s.serverLock.owner = some c := by
  by_contra unowned
  have owns := (inv.phase c).owns keeps
  simp only [standing, ServerLock.standing, unowned, if_false] at owns
  split at owns <;> split at owns <;> simp at owns

theorem Inv.ownerState (inv : s.Inv) (owned : s.serverLock.owner = some c) :
    s.serverLock.state = .locked ∨ s.serverLock.state = .revoking := by
  have shape := inv.shape
  generalize s.serverLock = sv at shape owned
  cases shape <;> simp at owned ⊢

theorem Inv.holder (inv : s.Inv) (holding : s.pc (c, a) = .holding) :
    (s.lock c).state = .locked ∧ (s.lock c).threads.head? = some a := by
  obtain ⟨rest, head⟩ := inv.head (a := a) (c := c) (by simp [holding]) (by simp [holding])
  have phase := inv.phase c
  rw [front_cons head, holding] at phase
  refine ⟨?_, by rw [head]; rfl⟩
  exact phase.held_state

theorem Inv.holder_unique (inv : s.Inv) (first : s.pc (c, a) = .holding)
    (second : s.pc (d, b) = .holding) : (c, a) = (d, b) := by
  obtain ⟨locked, head⟩ := inv.holder first
  obtain ⟨locked', head'⟩ := inv.holder second
  have same : c = d :=
    Option.some.inj ((inv.owner (.inr locked)).symm.trans (inv.owner (.inr locked')))
  subst same
  rw [Option.some.inj (head.symm.trans head')]

end Exclusion

section Quiescence

variable {Cid Tid : Type} {s : LockSys Cid Tid} {c : Cid}

/-- Nothing is under way for this lock: every thread is outside all calls or
blocked on a condition that has not been signalled, and none holds the lock. -/
def Quiescent (s : LockSys Cid Tid) : Prop := ∀ x, s.pc x = .idle ∨ (s.pc x).blocked = true

/-- Some thread is blocked, or the server still has a client to serve. -/
def Stranded (s : LockSys Cid Tid) : Prop :=
  (∃ x, (s.pc x).blocked = true) ∨
    ∃ ls, s.server = some ls ∧ (ls.waiting.Nonempty ∨ ls.retrying.isSome)

theorem Quiescent.front (quiet : s.Quiescent) :
    s.front c = .none ∨ s.front c = .stray ∨ s.front c = .parked ∨ s.front c = .sleeping := by
  unfold LockSys.front
  split
  · exact .inl rfl
  · rename_i t rest threads
    have position := quiet (c, t)
    generalize s.pc (c, t) = pc at position
    rcases pc with _ | (_ | _) | (_ | _) | _ | (_ | _) | _ | _ <;>
      simp [Pc.blocked] at position ⊢

variable [LinearOrder Cid]

omit [LinearOrder Cid] in
theorem Quiescent.silent (quiet : s.Quiescent) :
    ¬ s.Asks ∧ ¬ s.Calls ∧ ∀ c, s.background c = .none := by
  have plain (x) : (s.pc x).asks = false ∧ (s.pc x).calls = none ∧ (s.pc x).background = none := by
    have position := quiet x
    generalize s.pc x = pc at position
    rcases pc with _ | (_ | _) | (_ | _) | _ | (_ | _) | _ | _ <;>
      simp [Pc.blocked, Pc.asks, Pc.calls, Pc.background] at position ⊢
  simp [Asks, Calls, background, Releases, plain]

theorem Quiescent.settled (quiet : s.Quiescent) (inv : s.Inv) (c : Cid) :
    s.front c = .none ∧ (s.standing c = .out ∨ s.standing c = .granted) ∨
      s.front c = .sleeping ∧ s.standing c = .waiting := by
  obtain ⟨unasked, uncalled, unreleased⟩ := quiet.silent
  have phase := inv.phase c
  rw [unreleased] at phase
  apply phase.settled quiet.front
  · simp only [standing, ServerLock.standing, unasked, if_false]
    split <;> split <;> (try split) <;> simp
  · simp only [standing, ServerLock.standing, uncalled, if_false]
    split <;> split <;> (try split) <;> simp

theorem Quiescent.unwaited (quiet : s.Quiescent) (inv : s.Inv) :
    s.serverLock.waiting = ∅ ∧ s.serverLock.retrying = none := by
  obtain ⟨unasked, uncalled, -⟩ := quiet.silent
  have shape := inv.shape
  generalize entry : s.serverLock = sv at shape
  cases shape with
  | fresh | locked => simp
  | revoking owner waiting present apart =>
    -- The owner has been told to give the lock up, so one of its threads runs.
    have told : s.standing owner = .told := by
      simp [standing, ServerLock.standing, entry, unasked]
    rcases quiet.settled inv owner with ⟨-, out | granted⟩ | ⟨-, waits⟩ <;> simp_all
  | retrying next waiting apart =>
    -- The chosen client has heard the retry, so its head is about to ask again.
    have heard : s.standing next = .heard := by
      simp [standing, ServerLock.standing, entry, uncalled]
    rcases quiet.settled inv next with ⟨-, out | granted⟩ | ⟨-, waits⟩ <;> simp_all

theorem mem_waiting (waits : s.standing c = .waiting) : c ∈ s.serverLock.waiting := by
  simp only [standing, ServerLock.standing] at waits
  split at waits
  · split at waits <;> (try split at waits) <;> cases waits
  · split at waits
    · split at waits <;> cases waits
    · split at waits
      · assumption
      · cases waits

omit [LinearOrder Cid] in
theorem front_ne_none (pc : Pc Cid) : pc.front ≠ .none := by
  rcases pc with _ | (_ | _) | (_ | _) | (_ | _ | ⟨_, _ | _, _⟩ | (_ | _)) | (_ | _) | _ |
    (_ | _ | _) <;> simp

/-- A quiescent lock has nobody waiting for it. -/
theorem Inv.not_stranded (inv : s.Inv) (quiet : s.Quiescent) : ¬ s.Stranded := by
  obtain ⟨unwaited, unchosen⟩ := quiet.unwaited inv
  rintro (⟨⟨c, a⟩, blocked⟩ | ⟨ls, entry, served⟩)
  · have queued : a ∈ (s.lock c).threads := by
      by_contra outside
      rw [(inv.queue c).idle a outside] at blocked
      cases blocked
    obtain ⟨head, rest, threads⟩ := List.exists_cons_of_ne_nil (List.ne_nil_of_mem queued)
    have front : s.front c = (s.pc (c, head)).front := by simp only [LockSys.front, threads]
    rcases quiet.settled inv c with ⟨empty, -⟩ | ⟨-, waits⟩
    · exact front_ne_none _ (front.symm.trans empty)
    · have member := mem_waiting waits
      simp [unwaited] at member
  · have same : s.serverLock = ls := by simp [serverLock, entry]
    rw [same] at unwaited unchosen
    simp [unwaited, unchosen] at served

end Quiescence

end LockSys

namespace System

variable {Lid Cid Tid : Type} [DecidableEq Lid] [LinearOrder Cid] [DecidableEq Tid]
  {s : System Lid Cid Tid}

/-- Client `c` has the lock in state `FREE` or `LOCKED`. -/
def Keeps (s : System Lid Cid Tid) (lid : Lid) (c : Cid) : Prop :=
  ∃ ls, s.clients c lid = some ls ∧ (ls.state = .free ∨ ls.state = .locked)

theorem Keeps.owner {lid : Lid} {c : Cid} (keeps : s.Keeps lid c) (reached : s.Reachable) :
    (s.view lid).serverLock.owner = some c := by
  obtain ⟨ls, entry, state⟩ := keeps
  apply (reached.view lid).inv.owner
  simpa [LockSys.lock, view, entry] using state

/-- Mutual exclusion and agreement: in every reachable state and for every lock
id, one thread at most holds the lock, one client at most keeps it, and that
client is the owner the server has recorded. -/
theorem mutual_exclusion (reached : s.Reachable) (lid : Lid) :
    (∀ x y, s.threads x lid = .holding → s.threads y lid = .holding → x = y) ∧
    (∀ c d, s.Keeps lid c → s.Keeps lid d → c = d) ∧
    (∀ c, s.Keeps lid c → ∃ ls, s.server lid = some ls ∧ ls.owner = some c ∧
      (ls.state = .locked ∨ ls.state = .revoking)) := by
  have inv := (reached.view lid).inv
  refine ⟨?_, ?_, ?_⟩
  · rintro ⟨c, a⟩ ⟨d, b⟩ first second
    exact inv.holder_unique first second
  · intro c d first second
    exact Option.some.inj ((first.owner reached).symm.trans (second.owner reached))
  · intro c keeps
    have owned := keeps.owner reached
    have state := inv.ownerState owned
    cases entry : s.server lid with
    | none => simp [LockSys.serverLock, view, entry, ServerLock.fresh] at owned
    | some ls =>
      have same : (s.view lid).serverLock = ls := by simp [LockSys.serverLock, view, entry]
      rw [same] at owned state
      exact ⟨ls, rfl, owned, state⟩

/-- The sections of a thread that takes an uncontended lock. -/
private def grab (x : Cid × Tid) : List (LockSys.Action Cid Tid) := [.acquire x, .run x, .run x]

/-- The sections of a thread that asks for a lock which another client holds, is told to retry and
blocks; the other client is told to give the lock up. -/
private def ask (x : Cid × Tid) : List (LockSys.Action Cid Tid) :=
  [.acquire x, .run x, .run x, .run x, .run x]

theorem mutual_exclusion_asked : ∃ s : System Nat Nat Nat,
    initial.exec 1 (grab (0, 7) ++ ask (1, 7)) = some s ∧ s.threads (1, 7) 1 = .waiting false ∧
      (∀ y, s.threads y 1 = .holding → (0, 7) = y) ∧ ∀ c, s.Keeps 1 c → 0 = c := by
  obtain ⟨s, taken, holding, waits, keeps⟩ : ∃ s : System Nat Nat Nat,
      initial.exec 1 (grab (0, 7) ++ ask (1, 7)) = some s ∧ s.threads (0, 7) 1 = .holding ∧
        s.threads (1, 7) 1 = .waiting false ∧ s.Keeps 1 0 := ⟨_, rfl, rfl, rfl, _, rfl, .inr rfl⟩
  obtain ⟨holder, keeper, -⟩ := mutual_exclusion (Reachable.exec .refl taken) 1
  exact ⟨s, taken, waits, fun y => holder _ y holding, fun c => keeper 0 c keeps⟩

/-- No lost wake-up: a reachable system in which nothing is under way for a lock
id has no thread blocked on it and no client left to serve. -/
theorem no_lost_wakeup (reached : s.Reachable) (lid : Lid) (quiet : (s.view lid).Quiescent) :
    ¬ (s.view lid).Stranded := (reached.view lid).inv.not_stranded quiet

/-- The second client asks for the lock while the first one holds it, is told to
retry, is called back by the first one's release, and gives the lock back. -/
private def contend : List (LockSys.Action (Fin 2) (Fin 1)) :=
  grab (0, 0) ++ ask (1, 0) ++ [.release (0, 0), .run (0, 0), .run (0, 0), .run (0, 0),
    .run (1, 0), .run (1, 0), .run (1, 0), .release (1, 0)]

theorem no_lost_wakeup_contended : ∃ s : System Unit (Fin 2) (Fin 1),
    initial.exec () contend = some s ∧ s.Keeps () 1 ∧ ¬ (s.view ()).Stranded := by
  obtain ⟨s, taken, keeps, quiet⟩ : ∃ s : System Unit (Fin 2) (Fin 1),
      initial.exec () contend = some s ∧
      ((s.clients 1 ()).map ClientLock.state = some .free) ∧ (s.view ()).Quiescent := by
    refine ⟨_, rfl, rfl, ?_⟩
    unfold LockSys.Quiescent
    decide +kernel
  refine ⟨s, taken, ?_, no_lost_wakeup (Reachable.exec .refl taken) () quiet⟩
  obtain ⟨ls, entry, state⟩ := Option.map_eq_some_iff.mp keeps
  exact ⟨ls, entry, .inl state⟩

end System

end Yfs.Lock
