import Yfs.Lib.Rank
import Yfs.Lock.Assertions

/-! What becomes of the requests that are under way when no new one is made and every holder
gives the lock back. -/

namespace Yfs.Lock

open Yfs.Lib

variable {Cid Tid : Type}

/-- How far a thread is from having given the lock back: it waits for a grant, the grant is on its
way, it holds the lock. -/
def Pc.want : Pc Cid → Nat
  | .idle | .releasing _ => 0
  | .holding => 1
  | .calling (.reply .ok) | .calling (.revoke _ .ok _) => 2
  | _ => 3

/-- The steps of the lock on the server until it grants it again. -/
def ServerLock.distance (entry : Option (ServerLock Cid)) : Nat :=
  match (entry.getD .fresh).state with
  | .none => 3
  | .locked => 2
  | .revoking => 1
  | .retrying => 0

def ReleaseCall.rest : ReleaseCall Cid → Nat
  | .request => 3
  | .retry _ => 2
  | .reply => 1

/-- What is left of the callbacks and of the release call of a thread. -/
def Pc.nested : Pc Cid → Nat
  | .calling .readOwner => 5
  | .calling (.revoke _ _ .request) => 4
  | .calling (.revoke _ _ (.release call)) | .releasing call => call.rest
  | _ => 0

/-- The way of a thread to its next wait. -/
def Pc.path : Pc Cid → Nat
  | .parked _ | .queued _ => 3
  | .calling .request => 2
  | .calling _ => 1
  | _ => 0

/-- The thread will ask again. -/
def Pc.rung : Pc Cid → Nat
  | .waiting true => 1
  | _ => 0

/-- The client has a message that its thread has not looked at. -/
def ClientLock.told (entry : Option (ClientLock Tid)) : Nat :=
  if (entry.getD .fresh).message = .empty then 0 else 1

@[simp] theorem Pc.want_signal (pc : Pc Cid) : pc.signal.want = pc.want := by cases pc <;> rfl
@[simp] theorem Pc.nested_signal (pc : Pc Cid) : pc.signal.nested = pc.nested := by cases pc <;> rfl
@[simp] theorem Pc.path_signal (pc : Pc Cid) : pc.signal.path = pc.path := by cases pc <;> rfl

namespace LockSys

variable [LinearOrder Cid] [DecidableEq Tid] {s t : LockSys Cid Tid} {x : Cid × Tid}

/-- Reasons for another request, of the clients in `C` and the threads in `F`. -/
def notices (C : Finset Cid) (F : Finset (Cid × Tid)) (s : LockSys Cid Tid) : Nat :=
  weight C ClientLock.told s.clients + weight F Pc.rung s.pc

/-- A thread asks again only after a callback; a callback comes from a step of the server; and
the server steps only towards the next grant. -/
def measures (C : Finset Cid) (F : Finset (Cid × Tid)) : List (LockSys Cid Tid → Nat) :=
  [fun s => weight F Pc.want s.pc, fun s => ServerLock.distance s.server,
    fun s => weight F Pc.nested s.pc, notices C F, fun s => weight F Pc.path s.pc]

/-- All threads inside a call are in `F`, and all clients with an entry are in `C`. -/
structure Covers (C : Finset Cid) (F : Finset (Cid × Tid)) (s : LockSys Cid Tid) : Prop where
  threads : ∀ x, s.pc x ≠ .idle → x ∈ F
  clients : ∀ c, s.clients c ≠ none → c ∈ C

/-- Thread `x` goes on to `next`, up to a signal; other threads are at most signalled, and no
client gets its first entry. -/
structure Moves (s t : LockSys Cid Tid) (x : Cid × Tid) (next : Pc Cid) : Prop where
  self : t.pc x = next ∨ t.pc x = next.signal
  others : ∀ y, y ≠ x → t.pc y = s.pc y ∨ t.pc y = (s.pc y).signal
  clients : ∀ c, t.clients c ≠ none → s.clients c ≠ none

theorem Moves.weighs {next : Pc Cid} (moves : Moves s t x next) {F : Finset (Cid × Tid)}
    (member : x ∈ F) {w : Pc Cid → Nat} (signal : ∀ pc, w pc.signal = w pc) :
    weight F w t.pc + w (s.pc x) = weight F w s.pc + w next := by
  have others : ∀ y, y ≠ x → w (t.pc y) = w (s.pc y) := fun y other => by
    rcases moves.others y other with same | same <;> rw [same]
    exact signal _
  have self : w (t.pc x) = w next := by
    rcases moves.self with same | same <;> rw [same]
    exact signal _
  rw [← self]
  exact weight_of_ne member others

theorem Covers.keep {C : Finset Cid} {F : Finset (Cid × Tid)} {next : Pc Cid} (covers : Covers C F s)
    (moves : Moves s t x next) (active : s.pc x ≠ .idle) : Covers C F t := by
  refine ⟨fun y inside => ?_, fun c entry => covers.clients c (moves.clients c entry)⟩
  by_cases same : y = x
  · rw [same]
    exact covers.threads x active
  · refine covers.threads y fun idle => inside ?_
    rcases moves.others y same with kept | signalled
    · rw [kept, idle]
    · rw [signalled, idle]
      rfl

/-- What a step of thread `x` to `next` lowers. -/
inductive Lowers (C : Finset Cid) (F : Finset (Cid × Tid)) (s t : LockSys Cid Tid) (x : Cid × Tid)
    (next : Pc Cid) : Prop where
  | want (lower : next.want < (s.pc x).want)
  | distance (want : next.want = (s.pc x).want)
      (lower : ServerLock.distance t.server < ServerLock.distance s.server)
  | nested (want : next.want = (s.pc x).want)
      (server : ServerLock.distance t.server ≤ ServerLock.distance s.server)
      (lower : next.nested < (s.pc x).nested)
  | notice (want : next.want = (s.pc x).want) (server : t.server = s.server)
      (nested : next.nested = (s.pc x).nested) (lower : notices C F t < notices C F s)
  | path (want : next.want = (s.pc x).want)
      (server : ServerLock.distance t.server = ServerLock.distance s.server)
      (nested : next.nested = (s.pc x).nested) (notice : notices C F t = notices C F s)
      (lower : next.path < (s.pc x).path)

theorem Moves.falls {C : Finset Cid} {F : Finset (Cid × Tid)} {next : Pc Cid} (moves : Moves s t x next)
    (member : x ∈ F) (lowers : Lowers C F s t x next) : Falls (measures C F) s t := by
  have want := moves.weighs member Pc.want_signal
  have nested := moves.weighs member Pc.nested_signal
  have path := moves.weighs member Pc.path_signal
  rw [measures]
  cases lowers with
  | want lower => exact .here (by omega)
  | distance same lower => exact .later (by omega) (.here lower)
  | nested same server lower => exact .later (by omega) (.later server (.here (by omega)))
  | notice same server deep lower =>
    exact .later (by omega) (.later (by rw [server]) (.later (by omega) (.here lower)))
  | path same server deep notice lower =>
    exact .later (by omega) (.later server.le (.later (by omega) (.later notice.le (.here (by omega)))))

omit [LinearOrder Cid] [DecidableEq Tid] in
theorem deref_ok {c : Cid} {ls : ClientLock Tid} (found : s.deref c = .ok ls) : s.clients c = some ls := by
  rw [deref] at found
  split at found
  · cases found
  · cases found
    assumption

theorem signal_pc (c : Cid) (front : Option Tid) (y : Cid × Tid) :
    (s.signal c front).pc y = s.pc y ∨ (s.signal c front).pc y = (s.pc y).signal := by
  cases front with
  | none => exact .inl rfl
  | some a =>
    by_cases same : y = (c, a)
    · subst same
      exact .inr (Function.update_self ..)
    · exact .inl (Function.update_of_ne same ..)

theorem signal_clients (c : Cid) (front : Option Tid) : (s.signal c front).clients = s.clients := by
  cases front <;> rfl

omit [DecidableEq Tid] in
theorem setClient_entry {c d : Cid} {ls : ClientLock Tid} (entry : s.clients c ≠ none)
    (present : (s.setClient c ls).clients d ≠ none) : s.clients d ≠ none := by
  by_cases same : d = c
  · rw [same]
    exact entry
  · simpa [setClient, same] using present

theorem moves_setPc (s : LockSys Cid Tid) (x : Cid × Tid) (next : Pc Cid) : Moves s (s.setPc x next) x next :=
  ⟨.inl (Function.update_self ..), fun _ other => .inl (Function.update_of_ne other ..), fun _ => id⟩

theorem moves_serve (s : LockSys Cid Tid) (x : Cid × Tid) (ls : ServerLock Cid) (next : Pc Cid) :
    Moves s ((s.setServer ls).setPc x next) x next :=
  ⟨.inl (Function.update_self ..), fun _ other => .inl (Function.update_of_ne other ..), fun _ => id⟩

theorem moves_settle (entry : s.clients x.1 ≠ none) (ls : ClientLock Tid) (next : Pc Cid)
    (front : Option Tid) : Moves s (s.settle x ls next front) x next := by
  have set : ∀ y, ((s.setClient x.1 ls).setPc x next).pc y = if y = x then next else s.pc y :=
    fun y => Function.update_apply ..
  refine ⟨?_, fun y other => ?_, fun c present => ?_⟩
  · have after := signal_pc (s := (s.setClient x.1 ls).setPc x next) x.1 front x
    rwa [set, if_pos rfl] at after
  · have after := signal_pc (s := (s.setClient x.1 ls).setPc x next) x.1 front y
    rwa [set, if_neg other] at after
  · rw [settle, signal_clients] at present
    exact setClient_entry entry present

theorem moves_visit {target : Cid} (entry : s.clients target ≠ none) (x : Cid × Tid)
    (ls : ClientLock Tid) (front : Option Tid) (next : Pc Cid) :
    Moves s ((s.visit target ls front).setPc x next) x next := by
  refine ⟨.inl (Function.update_self ..), fun y other => ?_, fun c present => ?_⟩
  · have after := signal_pc (s := s.setClient target ls) target front y
    rwa [← visit, ← Function.update_of_ne other next (s.visit target ls front).pc] at after
  · change (s.visit target ls front).clients c ≠ none at present
    rw [visit, signal_clients] at present
    exact setClient_entry entry present

section Sections

variable {C : Finset Cid} {F : Finset (Cid × Tid)}

theorem notices_settle (covers : Covers C F s) (inside : s.pc x ≠ .idle) {old : ClientLock Tid}
    (entry : s.clients x.1 = some old) (ls : ClientLock Tid) (next : Pc Cid) :
    notices C F (s.settle x ls next none) + (ClientLock.told (some old) + (s.pc x).rung) =
      notices C F s + (ClientLock.told (some ls) + next.rung) := by
  have locks : ∀ c, c ≠ x.1 →
      ClientLock.told ((s.settle x ls next none).clients c) = ClientLock.told (s.clients c) :=
    fun c other => congrArg ClientLock.told (Function.update_of_ne other ..)
  have places : ∀ y, y ≠ x → ((s.settle x ls next none).pc y).rung = (s.pc y).rung :=
    fun y other => congrArg Pc.rung (Function.update_of_ne other ..)
  have clients := weight_of_ne (covers.clients x.1 (by simp [entry])) locks
  have threads := weight_of_ne (covers.threads x inside) places
  have own : (s.settle x ls next none).clients x.1 = some ls := Function.update_self ..
  have self : (s.settle x ls next none).pc x = next := Function.update_self ..
  rw [entry, own] at clients
  rw [self] at threads
  rw [notices, notices]
  omega

/-- A section of a thread on the lock state of its client, without a signal. -/
theorem settle_lowers (covers : Covers C F s) (inside : s.pc x ≠ .idle) {old ls : ClientLock Tid}
    {next : Pc Cid} (entry : s.clients x.1 = some old) (want : next.want = (s.pc x).want)
    (nested : next.nested = (s.pc x).nested)
    (lower : ClientLock.told (some ls) + next.rung < ClientLock.told (some old) + (s.pc x).rung ∨
      ClientLock.told (some ls) + next.rung = ClientLock.told (some old) + (s.pc x).rung ∧
        next.path < (s.pc x).path) : Lowers C F s (s.settle x ls next none) x next := by
  have notices := notices_settle covers inside entry ls next
  rcases lower with lower | ⟨same, lower⟩
  · exact .notice want rfl nested (by omega)
  · exact .path want rfl nested (by omega) lower

/-- The sections of `acquire` and of `wait` that a thread runs on its own client. -/
theorem local_advance (covers : Covers C F s) {f : ClientLock Tid → Except Fault (ClientLock Tid × Pc Cid)}
    (inside : s.pc x ≠ .idle)
    (taken : (s.deref x.1 >>= fun ls => f ls >>= fun r => pure (s.settle x r.1 r.2 none)) = .ok t)
    (lowers : ∀ {old ls next}, f old = .ok (ls, next) → next.want < (s.pc x).want ∨
      next.want = (s.pc x).want ∧ next.nested = (s.pc x).nested ∧
        (ClientLock.told (some ls) + next.rung < ClientLock.told (some old) + (s.pc x).rung ∨
          ClientLock.told (some ls) + next.rung = ClientLock.told (some old) + (s.pc x).rung ∧
            next.path < (s.pc x).path)) :
    ∃ next, Moves s t x next ∧ Lowers C F s t x next := by
  obtain ⟨old, found, ran⟩ := of_bind_ok taken
  obtain ⟨⟨ls, next⟩, done, same⟩ := of_bind_ok ran
  cases same
  have entry := deref_ok found
  refine ⟨next, moves_settle (by simp [entry]) ls next none, ?_⟩
  rcases lowers done with lower | ⟨want, nested, lower⟩
  · exact .want lower
  · exact settle_lowers covers inside entry want nested lower

/-- The server's section of a release call steps towards the next grant, or it leaves the lock
where it is. -/
theorem release_distance {entry : Option (ServerLock Cid)} {ls : ServerLock Cid} {call : ReleaseCall Cid}
    (handled : LockServerCache.release entry = .ok (ls, call)) :
    (∃ next, call = .retry next) ∧ ServerLock.distance (some ls) = 0 := by
  cases entry with
  | none => cases handled
  | some old =>
    simp only [LockServerCache.release] at handled
    split at handled
    · cases handled
      exact ⟨⟨_, rfl⟩, rfl⟩
    · cases handled

/-- A release call that is under way goes on. -/
theorem release_advance {resume : ReleaseCall Cid → Pc Cid} {call : ReleaseCall Cid}
    (taken : s.stepRelease x resume call = .ok t) (position : s.pc x = resume call)
    (unanswered : call ≠ .reply) (want : ∀ next, (resume next).want = (resume call).want)
    (nested : ∀ next, (resume next).nested = next.rest) :
    ∃ next, Moves s t x next ∧ Lowers C F s t x next := by
  cases call with
  | request =>
    obtain ⟨⟨ls, call⟩, handled, same⟩ := of_bind_ok taken
    obtain ⟨⟨target, rfl⟩, zero⟩ := release_distance handled
    cases same
    refine ⟨_, moves_serve s x ls _, .nested ?_ (zero.le.trans (Nat.zero_le _)) ?_⟩
    · rw [position, want]
    · rw [position, nested, nested]
      exact Nat.lt_succ_self _
  | retry target =>
    obtain ⟨⟨ls, front⟩, handled, same⟩ := of_bind_ok taken
    cases same
    have entry : s.clients target ≠ none := by
      intro missing
      simp [missing, LockClientCache.retryHandler] at handled
    refine ⟨_, moves_visit entry x ls (some front) _, .nested ?_ ?_ ?_⟩
    · rw [position, want]
    · exact Nat.le_refl _
    · rw [position, nested, nested]
      exact Nat.lt_succ_self _
  | reply => exact absurd rfl unanswered

/-- The server's section of an acquire call grants the lock, steps towards the next grant, or puts
the client off. -/
theorem acquire_distance {entry : Option (ServerLock Cid)} {c : Cid} {ls : ServerLock Cid}
    {call : AcquireCall Cid} (handled : LockServerCache.acquire entry c = .ok (ls, call)) :
    (Pc.calling call).want < 3 ∨ (Pc.calling call).want = 3 ∧
      (ServerLock.distance (some ls) < ServerLock.distance entry ∨
        ServerLock.distance (some ls) = ServerLock.distance entry ∧ call = .reply .retry) := by
  simp only [LockServerCache.acquire] at handled
  rcases state : (entry.getD .fresh).state with _ | _ | _ | _ <;> simp only [state] at handled
  · cases handled
    exact .inl (by simp [Pc.want])
  · cases handled
    refine .inr ⟨rfl, .inl ?_⟩
    simp [ServerLock.distance, state]
  · cases handled
    refine .inr ⟨rfl, .inr ⟨?_, rfl⟩⟩
    simp [ServerLock.distance, state]
  · split at handled
    · split at handled
      · cases handled
      · split at handled <;> cases handled <;> exact .inl (by simp [Pc.want])
    · cases handled
      refine .inr ⟨rfl, .inr ⟨?_, rfl⟩⟩
      simp [ServerLock.distance, state]

/-- An acquire call that is under way goes on. -/
theorem acquire_advance {call : AcquireCall Cid} (position : s.pc x = .calling call)
    (unanswered : ∀ answer, call ≠ .reply answer) (taken : s.stepAcquire x call = .ok t) :
    ∃ next, Moves s t x next ∧ Lowers C F s t x next := by
  rcases call with _ | _ | ⟨target, answer, _ | (_ | next | _)⟩ | answer
  · obtain ⟨⟨ls, call⟩, handled, same⟩ := of_bind_ok taken
    cases same
    refine ⟨_, moves_serve s x ls _, ?_⟩
    have asks : (s.pc x).want = 3 := by rw [position]; rfl
    obtain lower | ⟨want, lower | ⟨same, rfl⟩⟩ := acquire_distance handled
    · exact .want (by omega)
    · exact .distance (by omega) lower
    · refine .path (by omega) same (by rw [position]; rfl) ?_ (by rw [position]; simp [Pc.path])
      have quiet : ∀ y, (((s.setServer ls).setPc x (.calling (.reply .retry))).pc y).rung =
          (s.pc y).rung := by
        intro y
        by_cases same : y = x
        · have self : ((s.setServer ls).setPc x (.calling (.reply .retry))).pc x = .calling (.reply .retry) :=
            Function.update_self ..
          rw [same, self, position]
          rfl
        · exact congrArg Pc.rung (Function.update_of_ne same ..)
      rw [notices, notices, weight, weight, weight, Finset.sum_congr rfl fun y _ => quiet y]
      rfl
  · obtain ⟨call, handled, same⟩ := of_bind_ok taken
    cases same
    have revokes : ∃ owner, call = .revoke owner .retry .request := by
      unfold LockServerCache.readOwner at handled
      split at handled
      · cases handled
      · split at handled
        · cases handled
        · cases handled
          exact ⟨_, rfl⟩
    obtain ⟨owner, rfl⟩ := revokes
    refine ⟨_, moves_setPc s x _, .nested ?_ (Nat.le_refl _) ?_⟩ <;> rw [position]
    · rfl
    · simp [Pc.nested]
  · obtain ⟨⟨ls, next⟩, handled, same⟩ := of_bind_ok taken
    cases same
    have entry : s.clients target ≠ none := by
      intro missing
      simp [missing, LockClientCache.revokeHandler] at handled
    have begins : next = none ∨ next = some (.release .request) := by
      rcases found : s.clients target with _ | old
      · exact absurd found entry
      · simp only [LockClientCache.revokeHandler, found] at handled
        split at handled <;> cases handled
        · exact .inr rfl
        · exact .inl rfl
    refine ⟨_, moves_visit entry x ls none _, .nested ?_ (Nat.le_refl _) ?_⟩ <;> rw [position]
    · rcases begins with rfl | rfl <;> cases answer <;> rfl
    · rcases begins with rfl | rfl <;> simp [Pc.nested, ReleaseCall.rest]
  · simp only [stepAcquire] at taken
    refine release_advance taken position (by simp) (fun _ => ?_) (fun _ => rfl)
    cases answer <;> rfl
  · simp only [stepAcquire] at taken
    refine release_advance taken position (by simp) (fun _ => ?_) (fun _ => rfl)
    cases answer <;> rfl
  · obtain ⟨ls, found, same⟩ := of_bind_ok taken
    cases same
    have entry : s.clients target ≠ none := by simp [deref_ok found]
    refine ⟨_, moves_visit entry x _ _ _, .nested ?_ ?_ ?_⟩
    · rw [position]
      cases answer <;> rfl
    · exact (congrArg ServerLock.distance (server_signal _)).le
    · rw [position]
      simp [Pc.nested, ReleaseCall.rest]
  · exact absurd rfl (unanswered answer)

/-- Every section that continues a call lowers the measures. -/
theorem run_advance (covers : Covers C F s) (taken : s.run x = some (.ok t)) :
    s.pc x ≠ .idle ∧ ∃ next, Moves s t x next ∧ Lowers C F s t x next := by
  have inside : s.pc x ≠ .idle := by
    intro idle
    simp [LockSys.run, idle] at taken
  refine ⟨inside, ?_⟩
  cases position : s.pc x with
  | idle => exact absurd position inside
  | holding => simp [LockSys.run, position] at taken
  | parked signalled =>
    cases signalled with
    | false => simp [LockSys.run, position] at taken
    | true =>
      simp only [LockSys.run, position, Option.some.injEq] at taken
      refine local_advance covers (f := fun ls => .ok (LockClientCache.wait ls)) inside taken ?_
      intro old ls next done
      cases done
      rw [position]
      exact .inr ⟨rfl, rfl, .inr ⟨rfl, by simp [Pc.path]⟩⟩
  | queued signalled =>
    cases signalled with
    | false => simp [LockSys.run, position] at taken
    | true =>
      simp only [LockSys.run, position, Option.some.injEq] at taken
      refine local_advance covers inside taken ?_
      intro old ls next done
      rw [position]
      unfold LockClientCache.acquireQueued at done
      split at done
      · cases done
        exact .inl (by simp [Pc.want])
      · cases done
        exact .inl (by simp [Pc.want])
      · cases done
        exact .inr ⟨rfl, rfl, .inr ⟨rfl, by simp [Pc.path]⟩⟩
      · cases done
  | waiting signalled =>
    cases signalled with
    | false => simp [LockSys.run, position] at taken
    | true =>
      simp only [LockSys.run, position, Option.some.injEq] at taken
      refine local_advance covers inside taken ?_
      intro old ls next done
      rw [position]
      rw [LockClientCache.waitLoop] at done
      split at done
      · cases done
        refine .inr ⟨rfl, rfl, .inl ?_⟩
        simp [ClientLock.told, Pc.rung]
      · cases done
  | calling call =>
    cases call with
    | reply answer =>
      simp only [LockSys.run, position, Option.some.injEq] at taken
      refine local_advance covers inside taken ?_
      intro old ls next done
      rw [position]
      cases answer with
      | ok =>
        cases done
        exact .inl (by simp [Pc.want])
      | retry =>
        simp only [LockClientCache.waitReply] at done
        split at done
        · cases done
          exact .inr ⟨rfl, rfl, .inr ⟨rfl, by simp [Pc.path]⟩⟩
        · rename_i unread
          rw [LockClientCache.waitLoop] at done
          split at done
          · cases done
            refine .inr ⟨rfl, rfl, .inl ?_⟩
            simp [ClientLock.told, Pc.rung, unread]
          · cases done
    | request | readOwner | revoke =>
      simp only [LockSys.run, position, Option.some.injEq] at taken
      exact acquire_advance position (by simp) taken
  | releasing call =>
    cases call with
    | reply =>
      simp only [LockSys.run, position, Option.some.injEq] at taken
      obtain ⟨ls, found, ran⟩ := of_bind_ok taken
      obtain ⟨⟨ls', next, front⟩, done, same⟩ := of_bind_ok ran
      cases same
      have idle : next = .idle := by
        simp only [LockClientCache.releaseReturn, LockClientCache.releaseEnd] at done
        split at done <;> cases done <;> rfl
      subst idle
      refine ⟨_, moves_settle (by simp [deref_ok found]) ls' .idle front, .nested ?_ ?_ ?_⟩
      · rw [position]
        rfl
      · rw [server_settle]
      · rw [position]
        simp [Pc.nested, ReleaseCall.rest]
    | request | retry =>
      simp only [LockSys.run, position, Option.some.injEq] at taken
      exact release_advance taken position (by simp) (fun _ => rfl) (fun _ => rfl)

/-- A holder that begins to give the lock back lowers the measures. -/
theorem release_lowers (taken : s.step (.release x) = some (.ok t)) :
    s.pc x ≠ .idle ∧ ∃ next, Moves s t x next ∧ Lowers C F s t x next := by
  cases position : s.pc x with
  | holding =>
    simp only [LockSys.step, position, Option.some.injEq] at taken
    obtain ⟨⟨ls, next, front⟩, done, same⟩ := of_bind_ok taken
    cases same
    refine ⟨by simp, next, ?_⟩
    rcases entry : s.clients x.1 with _ | old
    · simp [entry, LockClientCache.release] at done
    · refine ⟨moves_settle (by simp [entry]) ls next front, .want ?_⟩
      have gives : next.want = 0 := by
        simp only [LockClientCache.release, LockClientCache.releaseEnd, entry] at done
        split at done
        · cases done
          rfl
        · split at done <;> cases done <;> rfl
      rw [gives, position]
      exact Nat.one_pos
  | _ => simp [LockSys.step, position] at taken

end Sections

/-- A section that is not a new request. -/
def Settles (s t : LockSys Cid Tid) : Prop :=
  ∃ x, s.step (.release x) = some (.ok t) ∨ s.step (.run x) = some (.ok t)

theorem Settles.falls {C : Finset Cid} {F : Finset (Cid × Tid)} (covers : Covers C F s)
    (settles : s.Settles t) : Falls (measures C F) s t ∧ Covers C F t := by
  obtain ⟨x, taken | taken⟩ := settles
  · obtain ⟨inside, next, moves, lowers⟩ := release_lowers (C := C) (F := F) taken
    exact ⟨moves.falls (covers.threads x inside) lowers, covers.keep moves inside⟩
  · obtain ⟨inside, next, moves, lowers⟩ := run_advance covers taken
    exact ⟨moves.falls (covers.threads x inside) lowers, covers.keep moves inside⟩

theorem Settles.step (settles : s.Settles t) : s.Step t := by
  obtain ⟨x, taken | taken⟩ := settles
  · exact ⟨.release x, taken⟩
  · exact ⟨.run x, taken⟩

/-- Finitely many threads and clients take part in a run. -/
theorem Reachable.covered (reached : s.Reachable) : ∃ C F, Covers C F s := by
  induction reached with
  | refl => exact ⟨∅, ∅, fun x inside => absurd rfl inside, fun c present => absurd rfl present⟩
  | tail _ step ih =>
    obtain ⟨C, F, covers⟩ := ih
    obtain ⟨action, taken⟩ := step
    cases action with
    | release x => exact ⟨C, F, (Settles.falls covers ⟨x, .inl taken⟩).2⟩
    | run x => exact ⟨C, F, (Settles.falls covers ⟨x, .inr taken⟩).2⟩
    | acquire x =>
      rename_i s t before
      cases position : s.pc x with
      | idle =>
        simp only [LockSys.step, position, Option.some.injEq] at taken
        cases taken
        refine ⟨insert x.1 C, insert x F, fun y inside => ?_, fun c present => ?_⟩
        · by_cases same : y = x
          · simp [same]
          · refine Finset.mem_insert_of_mem (covers.threads y fun idle => inside ?_)
            exact (Function.update_of_ne same ..).trans idle
        · by_cases same : c = x.1
          · simp [same]
          · refine Finset.mem_insert_of_mem (covers.clients c fun missing => present ?_)
            exact (Function.update_of_ne same ..).trans missing
      | _ => simp [LockSys.step, position] at taken

/-- Where nothing is left to do but new requests, no thread is inside a call. -/
theorem Inv.idle_of_stuck (inv : s.Inv) (stuck : ∀ t, ¬ s.Settles t) (x : Cid × Tid) :
    s.pc x = .idle := by
  have quiet : s.Quiescent := by
    intro y
    have blocked : s.step (.run y) = none := by
      rcases inv.step (.run y) with none | ⟨t, taken, _⟩
      · exact none
      · exact absurd ⟨y, .inr taken⟩ (stuck t)
    have unheld : s.step (.release y) = none := by
      rcases inv.step (.release y) with none | ⟨t, taken, _⟩
      · exact none
      · exact absurd ⟨y, .inl taken⟩ (stuck t)
    rcases position : s.pc y with _ | (_ | _) | (_ | _) | (_ | _ | ⟨_, _, _ | (_ | _ | _)⟩ | _) |
      (_ | _) | _ | (_ | _ | _) <;>
      simp [LockSys.step, LockSys.run, position, Pc.blocked] at blocked unheld ⊢
  have unstranded := inv.not_stranded quiet
  exact (quiet x).resolve_right fun blocked => unstranded (.inl ⟨x, blocked⟩)

end LockSys

namespace System

variable {Lid : Type} [DecidableEq Lid] [LinearOrder Cid] [DecidableEq Tid] {s : System Lid Cid Tid}

/-- Every request is served. From a reachable state, and at every lock id, the sections that are
not new requests come to an end in whatever order they run; and where they end, every thread
that had asked for the lock has obtained it and has given it back. -/
theorem every_request_served (reached : s.Reachable) (lid : Lid) :
    Acc (fun t u => LockSys.Settles u t) (s.view lid) ∧
      ∀ t, Relation.ReflTransGen LockSys.Settles (s.view lid) t → (∀ u, ¬ t.Settles u) →
        ∀ x, t.pc x = .idle := by
  have lock := reached.view lid
  obtain ⟨C, F, covers⟩ := lock.covered
  refine ⟨Lib.Falls.acc (fun covers settles => LockSys.Settles.falls covers settles) covers, ?_⟩
  intro t chain stuck
  have after : t.Reachable := lock.trans (chain.lift id fun _ _ settles => settles.step)
  exact after.inv.idle_of_stuck stuck

theorem every_request_served_crowded : ∃ s : System Unit Nat Nat, s.threads (0, 0) () = .holding ∧
    s.threads (1, 0) () = .calling .request ∧ s.threads (0, 1) () = .queued false ∧
    Acc (fun t u => LockSys.Settles u t) (s.view ()) := by
  obtain ⟨s, taken, places⟩ : ∃ s : System Unit Nat Nat, initial.exec ()
      [.acquire (0, 0), .run (0, 0), .run (0, 0), .acquire (1, 0), .acquire (0, 1)] = some s ∧
      s.threads (0, 0) () = .holding ∧ s.threads (1, 0) () = .calling .request ∧
      s.threads (0, 1) () = .queued false := ⟨_, rfl, rfl, rfl, rfl⟩
  exact ⟨s, places.1, places.2.1, places.2.2, (every_request_served (Reachable.exec .refl taken) ()).1⟩

end System

end Yfs.Lock
