import Mathlib.Data.Finset.Max
import Mathlib.Logic.Function.Basic

/-! The lock server of `lock_server_cache.cc`, one lock id at a time: the
sections of `acquire` and `release` that run under its mutex. -/

namespace Yfs.Lock

/-- Points at which the C++ code leaves its defined behaviour or the process. -/
inductive Fault where
  | nullLockState | assertWaiting | emptyWaiting | emptyOwner
  | emptyThreads | exitAcquire | exitWait
  deriving DecidableEq, Repr

/-- The two answers `lock_server_cache::acquire` gives. -/
inductive Reply where
  | ok | retry
  deriving DecidableEq, Repr

/-- `lock_server_cache::status`. -/
inductive ServerStatus where
  | none | locked | revoking | retrying
  deriving DecidableEq, Repr

/-- `lock_server_cache::lock_state`. A cleared `owner` or `retrying` string is
`none`; client ids are `host:port` strings and never empty. -/
structure ServerLock (Cid : Type) where
  owner : Option Cid
  retrying : Option Cid
  waiting : Finset Cid
  state : ServerStatus

/-- A new `lock_state_t` whose state has been set to `NONE`. -/
def ServerLock.fresh : ServerLock Cid :=
  { owner := none, retrying := none, waiting := ∅, state := .none }

/-- Progress of `cl->call(lock_protocol::release, lid, id, r)`: sent but not
handled, handled with the retry callback under way, answered. -/
inductive ReleaseCall (Cid : Type) where
  | request
  | retry (target : Cid)
  | reply
  deriving DecidableEq, Repr

/-- Progress of a revoke callback: sent but not handled, or inside the release
call that `revoke_handler` makes with its mutex dropped. -/
inductive RevokeCall (Cid : Type) where
  | request
  | release (call : ReleaseCall Cid)
  deriving DecidableEq, Repr

/-- Progress of `cl->call(lock_protocol::acquire, lid, id, r)`. `readOwner` is
the `LOCKED` case between its unlock and the read of `ls->owner`. -/
inductive AcquireCall (Cid : Type) where
  | request
  | readOwner
  | revoke (target : Cid) (answer : Reply) (call : RevokeCall Cid)
  | reply (answer : Reply)
  deriving DecidableEq, Repr

namespace LockServerCache

variable {Cid : Type} [LinearOrder Cid]

/-- `lock_server_cache::acquire` up to its unlock, with what is left to do. -/
def acquire (entry : Option (ServerLock Cid)) (clientID : Cid) :
    Except Fault (ServerLock Cid × AcquireCall Cid) :=
  let ls := entry.getD .fresh
  match ls.state with
  | .none => .ok ({ ls with state := .locked, owner := some clientID }, .reply .ok)
  | .locked =>
    .ok ({ ls with waiting := insert clientID ls.waiting, state := .revoking }, .readOwner)
  | .revoking => .ok ({ ls with waiting := insert clientID ls.waiting }, .reply .retry)
  | .retrying =>
    if ls.retrying = some clientID then
      if clientID ∈ ls.waiting then .error .assertWaiting
      else
        let ls := { ls with retrying := none, state := .locked, owner := some clientID }
        if ls.waiting.Nonempty then
          .ok ({ ls with state := .revoking }, .revoke clientID .ok .request)
        else .ok (ls, .reply .ok)
    else .ok ({ ls with waiting := insert clientID ls.waiting }, .reply .retry)

/-- The read of `ls->owner` after the mutex has been dropped. -/
def readOwner (entry : Option (ServerLock Cid)) : Except Fault (AcquireCall Cid) :=
  match entry with
  | none => .error .nullLockState
  | some ls =>
    match ls.owner with
    | none => .error .emptyOwner
    | some owner => .ok (.revoke owner .retry .request)

/-- `lock_server_cache::release` up to its unlock. The waiting client with the
smallest id, `*ls->waiting.begin()`, is called back next. -/
def release (entry : Option (ServerLock Cid)) :
    Except Fault (ServerLock Cid × ReleaseCall Cid) :=
  match entry with
  | none => .error .nullLockState
  | some ls =>
    if present : ls.waiting.Nonempty then
      let next := ls.waiting.min' present
      .ok ({ owner := none, retrying := some next, waiting := ls.waiting.erase next,
             state := .retrying }, .retry next)
    else .error .emptyWaiting

end LockServerCache

end Yfs.Lock
