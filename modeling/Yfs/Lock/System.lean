import Mathlib.Logic.Relation
import Yfs.Lock.Client

/-! The lock server together with all its clients. A step is one section under
a mutex, or the unprotected read of `ls->owner`. A call that is under way, with
the callbacks nested in it, is kept in the position of the thread that made it,
so requests, replies and callbacks are delayed and reordered without bound. -/

namespace Yfs.Lock

/-- Everything the system keeps for one lock id: the entries of the server's and
the clients' `lock_map`, and the position of every thread. -/
structure LockSys (Cid : Type) (Tid : Type) where
  server : Option (ServerLock Cid)
  clients : Cid → Option (ClientLock Tid)
  pc : Cid × Tid → Pc Cid

namespace LockSys

variable {Cid : Type} {Tid : Type}

/-- No entry in any `lock_map`, and no thread inside a call. -/
def initial : LockSys Cid Tid :=
  { server := none, clients := fun _ => none, pc := fun _ => .idle }

/-- The next section of a thread: a call of `acquire` or `release`, or the
continuation of the call it is in. -/
inductive Action (Cid : Type) (Tid : Type) where
  | acquire (thread : Cid × Tid)
  | release (thread : Cid × Tid)
  | run (thread : Cid × Tid)

variable [LinearOrder Cid] [DecidableEq Tid]

def setPc (s : LockSys Cid Tid) (x : Cid × Tid) (pc : Pc Cid) : LockSys Cid Tid :=
  { s with pc := Function.update s.pc x pc }

def setClient (s : LockSys Cid Tid) (c : Cid) (ls : ClientLock Tid) : LockSys Cid Tid :=
  { s with clients := Function.update s.clients c (some ls) }

def setServer (s : LockSys Cid Tid) (ls : ServerLock Cid) : LockSys Cid Tid :=
  { s with server := some ls }

/-- Signal the condition of one thread of client `c`, if there is one to signal. -/
def signal (s : LockSys Cid Tid) (c : Cid) : Option Tid → LockSys Cid Tid
  | none => s
  | some t => s.setPc (c, t) (s.pc (c, t)).signal

/-- A callback section at client `c`: its lock state and the condition it signals. -/
def visit (s : LockSys Cid Tid) (c : Cid) (ls : ClientLock Tid) (front : Option Tid) :
    LockSys Cid Tid :=
  (s.setClient c ls).signal c front

/-- The client's lock state behind the pointer a thread inside a call holds. -/
def deref (s : LockSys Cid Tid) (c : Cid) : Except Fault (ClientLock Tid) :=
  match s.clients c with
  | none => .error .nullLockState
  | some ls => .ok ls

/-- Advance a release call that is not yet answered: the server's section, then
the retry callback at the client it names. -/
def stepRelease (s : LockSys Cid Tid) (x : Cid × Tid) (resume : ReleaseCall Cid → Pc Cid) :
    ReleaseCall Cid → Except Fault (LockSys Cid Tid)
  | .request => do
    let (ls, call) ← LockServerCache.release s.server
    return (s.setServer ls).setPc x (resume call)
  | .retry target => do
    let (ls, front) ← LockClientCache.retryHandler (s.clients target)
    return (s.visit target ls (some front)).setPc x (resume .reply)
  | .reply => .ok s

/-- Advance an acquire call that is not yet answered. -/
def stepAcquire (s : LockSys Cid Tid) (x : Cid × Tid) :
    AcquireCall Cid → Except Fault (LockSys Cid Tid)
  | .request => do
    let (ls, call) ← LockServerCache.acquire s.server x.1
    return (s.setServer ls).setPc x (.calling call)
  | .readOwner => do
    let call ← LockServerCache.readOwner s.server
    return s.setPc x (.calling call)
  | .revoke target answer .request => do
    let (ls, next) ← LockClientCache.revokeHandler (s.clients target)
    let call := match next with
      | none => .reply answer
      | some call => .revoke target answer call
    return (s.visit target ls none).setPc x (.calling call)
  | .revoke target answer (.release .reply) => do
    let ls ← s.deref target
    let (ls, front) := LockClientCache.revokeReturn ls
    return (s.visit target ls front).setPc x (.calling (.reply answer))
  | .revoke target answer (.release call) =>
    s.stepRelease x (fun call => .calling (.revoke target answer (.release call))) call
  | .reply _ => .ok s

/-- The system after a section of client `x.1` that leaves its lock state `ls`,
the thread at `pc` and a condition to signal. -/
def settle (s : LockSys Cid Tid) (x : Cid × Tid) (ls : ClientLock Tid) (pc : Pc Cid)
    (front : Option Tid) : LockSys Cid Tid :=
  ((s.setClient x.1 ls).setPc x pc).signal x.1 front

/-- The continuation of a thread inside a call; `none` if it is blocked, holds
the lock or is in no call. -/
def run (s : LockSys Cid Tid) (x : Cid × Tid) : Option (Except Fault (LockSys Cid Tid)) :=
  match s.pc x with
  | .parked true => some do
    let (ls, pc) := LockClientCache.wait (← s.deref x.1)
    return s.settle x ls pc none
  | .queued true => some do
    let (ls, pc) ← LockClientCache.acquireQueued (← s.deref x.1)
    return s.settle x ls pc none
  | .calling (.reply answer) => some do
    let (ls, pc) ← LockClientCache.waitReply (← s.deref x.1) answer
    return s.settle x ls pc none
  | .calling call => some (s.stepAcquire x call)
  | .waiting true => some do
    let (ls, pc) ← LockClientCache.waitLoop (← s.deref x.1)
    return s.settle x ls pc none
  | .releasing .reply => some do
    let (ls, pc, front) ← LockClientCache.releaseReturn (← s.deref x.1)
    return s.settle x ls pc front
  | .releasing call => some (s.stepRelease x .releasing call)
  | _ => none

/-- One section; `none` where the thread cannot take the action. A thread calls
`release` only while it holds the lock. -/
def step (s : LockSys Cid Tid) : Action Cid Tid → Option (Except Fault (LockSys Cid Tid))
  | .acquire x =>
    match s.pc x with
    | .idle =>
      let (ls, pc) := LockClientCache.acquire (s.clients x.1) x.2
      some (.ok (s.settle x ls pc none))
    | _ => none
  | .release x =>
    match s.pc x with
    | .holding => some do
      let (ls, pc, front) ← LockClientCache.release (s.clients x.1)
      return s.settle x ls pc front
    | _ => none
  | .run x => s.run x

def Step (s t : LockSys Cid Tid) : Prop := ∃ action, s.step action = some (.ok t)

def Reachable (s : LockSys Cid Tid) : Prop := Relation.ReflTransGen Step initial s

end LockSys

/-- The whole system: the server's `lock_map`, every client's `lock_map` and, for
every thread and lock id, the position of that thread. -/
structure System (Lid : Type) (Cid : Type) (Tid : Type) where
  server : Lid → Option (ServerLock Cid)
  clients : Cid → Lid → Option (ClientLock Tid)
  threads : Cid × Tid → Lid → Pc Cid

namespace System

variable {Lid : Type} {Cid : Type} {Tid : Type}

def initial : System Lid Cid Tid :=
  { server := fun _ => none, clients := fun _ _ => none, threads := fun _ _ => .idle }

/-- The part of the system that concerns one lock id. -/
def view (s : System Lid Cid Tid) (lid : Lid) : LockSys Cid Tid :=
  { server := s.server lid, clients := fun c => s.clients c lid, pc := fun x => s.threads x lid }

variable [DecidableEq Lid]

def set (s : System Lid Cid Tid) (lid : Lid) (lock : LockSys Cid Tid) : System Lid Cid Tid :=
  { server := Function.update s.server lid lock.server
    clients := fun c => Function.update (s.clients c) lid (lock.clients c)
    threads := fun x => Function.update (s.threads x) lid (lock.pc x) }

theorem view_set (s : System Lid Cid Tid) (lid other : Lid) (lock : LockSys Cid Tid) :
    (s.set lid lock).view other = if other = lid then lock else s.view other := by
  by_cases same : other = lid
  · subst other
    simp [set, view]
  · simp [set, view, same]

variable [LinearOrder Cid] [DecidableEq Tid]

/-- Every section works on the lock state of one lock id. -/
def Step (s t : System Lid Cid Tid) : Prop :=
  ∃ lid lock, (s.view lid).Step lock ∧ t = s.set lid lock

def Reachable (s : System Lid Cid Tid) : Prop := Relation.ReflTransGen Step initial s

/-- The system after a list of sections on one lock id, if each can be taken. -/
def exec (s : System Lid Cid Tid) (lid : Lid) :
    List (LockSys.Action Cid Tid) → Option (System Lid Cid Tid)
  | [] => some s
  | action :: rest =>
    match (s.view lid).step action with
    | some (.ok lock) => (s.set lid lock).exec lid rest
    | _ => none

theorem Reachable.exec {s t : System Lid Cid Tid} (reached : Reachable s)
    (taken : s.exec lid actions = some t) : Reachable t := by
  induction actions generalizing s with
  | nil =>
    cases taken
    exact reached
  | cons action rest ih =>
    rw [System.exec] at taken
    split at taken
    · rename_i lock advance
      exact ih (reached.tail ⟨lid, lock, ⟨action, advance⟩, rfl⟩) taken
    · cases taken

/-- Every lock id of a reachable system has a reachable lock of its own. -/
theorem Reachable.view {s : System Lid Cid Tid} (reached : Reachable s) (lid : Lid) :
    (s.view lid).Reachable := by
  induction reached with
  | refl => exact .refl
  | tail _ step ih =>
    obtain ⟨moved, lock, advance, same⟩ := step
    subst same
    rw [view_set]
    split
    · rename_i this
      subst this
      exact ih.tail advance
    · exact ih

end System

end Yfs.Lock
