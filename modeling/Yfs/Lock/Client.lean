import Yfs.Lock.Server

/-! The caching lock client of `lock_client_cache.cc`, one lock id at a time.
Each definition is one section between two points at which a thread takes and
drops the client's mutex. -/

namespace Yfs.Lock

/-- `lock_client_cache::message`. -/
inductive Message where
  | empty | retry | revoke
  deriving DecidableEq, Repr

/-- `lock_client_cache::status`. -/
inductive Status where
  | none | acquiring | free | releasing | locked
  deriving DecidableEq, Repr

/-- `lock_client_cache::lock_state`. A queued `pthread_cond_t` is named by the
thread that allocated it in `acquire`. -/
structure ClientLock (Tid : Type) where
  state : Status
  message : Message
  threads : List Tid
  deriving DecidableEq, Repr

def ClientLock.fresh : ClientLock Tid := { state := .none, message := .empty, threads := [] }

/-- Where a thread stands with respect to one lock id. `parked` and `queued` are
the two `pthread_cond_wait` calls of `acquire`, `waiting` the one of `wait`; the
flag says that the condition has been signalled. -/
inductive Pc (Cid : Type) where
  | idle
  | parked (signalled : Bool)
  | queued (signalled : Bool)
  | calling (call : AcquireCall Cid)
  | waiting (signalled : Bool)
  | holding
  | releasing (call : ReleaseCall Cid)
  deriving DecidableEq, Repr

/-- `pthread_cond_signal`: lost on a thread that is not blocked. -/
def Pc.signal : Pc Cid → Pc Cid
  | .parked _ => .parked true
  | .queued _ => .queued true
  | .waiting _ => .waiting true
  | pc => pc

namespace LockClientCache

variable {Cid : Type} {Tid : Type}

/-- The entry of `wait`, up to the first acquire call. -/
def wait (ls : ClientLock Tid) : ClientLock Tid × Pc Cid :=
  ({ ls with state := .acquiring }, .calling .request)

/-- `lock_client_cache::acquire` up to its return, its block or its first call. -/
def acquire (entry : Option (ClientLock Tid)) (thread : Tid) : ClientLock Tid × Pc Cid :=
  let ls := entry.getD .fresh
  let pushed := { ls with threads := ls.threads ++ [thread] }
  if ls.threads = [] then
    match ls.state with
    | .free => ({ pushed with state := .locked }, .holding)
    | .none => wait pushed
    | _ => (pushed, .parked false)
  else (pushed, .queued false)

/-- `acquire` after the `pthread_cond_wait` behind other threads. -/
def acquireQueued (ls : ClientLock Tid) : Except Fault (ClientLock Tid × Pc Cid) :=
  match ls.state with
  | .free | .locked => .ok ({ ls with state := .locked }, .holding)
  | .none => .ok (wait ls)
  | _ => .error .exitAcquire

/-- The end of an iteration of `wait`: the message is consumed and the loop
condition decides between another call and the `exit(0)` behind the loop. -/
def waitLoop (ls : ClientLock Tid) : Except Fault (ClientLock Tid × Pc Cid) :=
  if ls.state = .acquiring then .ok ({ ls with message := .empty }, .calling .request)
  else .error .exitWait

/-- `wait` after its acquire call has been answered. -/
def waitReply (ls : ClientLock Tid) : Reply → Except Fault (ClientLock Tid × Pc Cid)
  | .ok => .ok ({ ls with state := .locked }, .holding)
  | .retry => if ls.message = .empty then .ok (ls, .waiting false) else waitLoop ls

/-- The common end of `release`: pop the caller's condition and pass the lock on
to the next thread, whose condition is to be signalled. -/
def releaseEnd (ls : ClientLock Tid) (revoking : Bool) :
    Except Fault (ClientLock Tid × Pc Cid × Option Tid) :=
  match ls.threads with
  | [] => .error .emptyThreads
  | _ :: [] => .ok ({ ls with threads := [] }, .idle, none)
  | _ :: next :: rest =>
    .ok ({ ls with threads := next :: rest, state := if revoking then ls.state else .locked },
      .idle, some next)

/-- `lock_client_cache::release` up to its return or its release call. -/
def release (entry : Option (ClientLock Tid)) :
    Except Fault (ClientLock Tid × Pc Cid × Option Tid) :=
  match entry with
  | none => .error .nullLockState
  | some ls =>
    if ls.message = .revoke then
      .ok ({ ls with state := .releasing }, .releasing .request, none)
    else releaseEnd { ls with state := .free } false

/-- `release` after its release call has returned. -/
def releaseReturn (ls : ClientLock Tid) : Except Fault (ClientLock Tid × Pc Cid × Option Tid) :=
  releaseEnd { ls with message := .empty, state := .none } true

/-- `revoke_handler` up to its return (`none`) or its release call. -/
def revokeHandler (entry : Option (ClientLock Tid)) :
    Except Fault (ClientLock Tid × Option (RevokeCall Cid)) :=
  match entry with
  | none => .error .nullLockState
  | some ls =>
    if ls.state = .free then
      .ok ({ ls with state := .releasing }, some (.release .request))
    else .ok ({ ls with message := .revoke }, none)

/-- `revoke_handler` after its release call, with the thread it signals. -/
def revokeReturn (ls : ClientLock Tid) : ClientLock Tid × Option Tid :=
  ({ ls with state := .none }, ls.threads.head?)

/-- `retry_handler`, with the thread it signals. -/
def retryHandler (entry : Option (ClientLock Tid)) : Except Fault (ClientLock Tid × Tid) :=
  match entry with
  | none => .error .nullLockState
  | some ls =>
    match ls.threads with
    | [] => .error .emptyThreads
    | front :: _ => .ok ({ ls with message := .retry }, front)

end LockClientCache

end Yfs.Lock
