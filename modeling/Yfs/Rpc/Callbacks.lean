import Yfs.Rpc.Handles
import Yfs.Lock.System
import Yfs.Extent.System
import Yfs.Store.Bounds

/-! The handlers of the two servers that call a client back. `handle::safebind` returns
a null `rpcc` when the client cannot be reached, and every handler calls through it. -/

namespace Yfs.Rpc

/-- How a handler ends that does not return. -/
inductive Crash (ε : Type) where
  | fault (f : ε)
  | nullRpcc
  deriving DecidableEq, Repr

/-- The `handle_mgr` of a server when a callback is due: which binds would succeed, and
where a new `hinfo` would be. -/
structure Connections (Cid Obj : Type) [DecidableEq Cid] [DecidableEq Obj] where
  mgr : HandleMgr Cid Obj
  reached : ∃ actions, HandleMgr.Run .empty actions mgr
  bind : Cid → Option Nat
  bound : ∀ cid c, bind cid = some c → c ∉ mgr.rpccs
  address : Nat
  free : mgr.hinfos address = none

namespace Connections

variable {Cid Obj : Type} [DecidableEq Cid] [DecidableEq Obj] (n : Connections Cid Obj) (cid : Cid)

/-- `handle(cid).safebind()`, up to the end of the temporary. -/
def temporary : Option (Option Nat × HandleMgr Cid Obj) := do
  let (h, s) ← n.mgr.getHandle cid n.address
  s.safebind h (n.bind cid)

/-- The value of `handle(cid).safebind()`. -/
def safebind : Option Nat := (n.temporary cid).bind Prod.fst

/-- The destination is not marked deleted, and it is connected or can be. -/
def Reaches : Prop :=
  match n.mgr.hmap cid with
  | none => n.bind cid ≠ none
  | some p => ∃ info, n.mgr.hinfos p = some info ∧ info.del = false ∧
      (info.cl ≠ none ∨ n.bind cid ≠ none)

variable {n cid}

/-- The temporary uses no memory that has been freed. -/
theorem temporary_some : ∃ r s, n.temporary cid = some (r, s) ∧ (r ≠ none ↔ n.Reaches cid) := by
  obtain ⟨actions, run⟩ := n.reached
  have inv := run.inv HandleMgr.inv_empty
  cases mapped : n.mgr.hmap cid with
  | none =>
    cases outcome : n.bind cid <;>
      simp [temporary, HandleMgr.getHandle, HandleMgr.safebind, HandleMgr.setInfo, Reaches, mapped, outcome]
  | some p =>
    obtain ⟨info, found, -⟩ := inv.own cid p mapped
    by_cases del : info.del = true
    · simp [temporary, HandleMgr.getHandle, HandleMgr.safebind, Reaches, mapped, found, del]
    · cases bound : info.cl <;> cases outcome : n.bind cid <;>
        simp [temporary, HandleMgr.getHandle, HandleMgr.safebind, HandleMgr.setInfo, Reaches, mapped,
          found, del, bound, outcome]

theorem safebind_ne_none_iff : n.safebind cid ≠ none ↔ n.Reaches cid := by
  obtain ⟨r, s, bound, reaches⟩ := @temporary_some Cid Obj _ _ n cid
  simpa [safebind, bound] using reaches

/-- `handle(cid).safebind()->call(..)`. -/
def call {ε : Type} (n : Connections Cid Obj) (cid : Cid) : Except (Crash ε) Unit :=
  match n.safebind cid with
  | none => .error .nullRpcc
  | some _ => .ok ()

theorem call_eq_error_iff {ε : Type} :
    (n.call cid : Except (Crash ε) Unit) = .error .nullRpcc ↔ ¬ n.Reaches cid := by
  rw [← safebind_ne_none_iff, call]
  cases n.safebind cid <;> simp

end Connections

section Lock

open Yfs.Lock

variable {Cid Obj : Type} [LinearOrder Cid] [DecidableEq Obj] (n : Connections Cid Obj)

/-- `lock_protocol::xxstatus`. -/
inductive LockStatus where
  | ok | retry | rpcerr | noent | ioerr
  deriving DecidableEq, Repr

def LockStatus.ofReply : Reply → LockStatus
  | .ok => .ok
  | .retry => .retry

inductive LockRequest (Cid : Type) where
  | acquire (clientID : Cid)
  | release (clientID : Cid)

namespace LockServerCache

/-- The callback of `acquire`, behind its unlock, and its answer. -/
def revoke (ls : ServerLock Cid) : AcquireCall Cid → Except (Crash Lock.Fault) (LockStatus × ServerLock Cid)
  | .readOwner =>
    match ls.owner with
    | none => .error (.fault .emptyOwner)
    | some owner => do
      n.call owner
      return (.retry, ls)
  | .revoke target answer _ => do
    n.call target
    return (.ofReply answer, ls)
  | .reply answer => return (.ofReply answer, ls)
  | .request => return (.retry, ls)

/-- The callback of `release` and its answer. -/
def retry (ls : ServerLock Cid) : ReleaseCall Cid → Except (Crash Lock.Fault) (LockStatus × ServerLock Cid)
  | .retry target => do
    n.call target
    return (.ok, ls)
  | _ => return (.ok, ls)

/-- `lock_server_cache::acquire` and `lock_server_cache::release` with their callbacks. -/
def serve (entry : Option (ServerLock Cid)) :
    LockRequest Cid → Except (Crash Lock.Fault) (LockStatus × ServerLock Cid)
  | .acquire clientID => do
    let (ls, call) ← (Lock.LockServerCache.acquire entry clientID).mapError .fault
    revoke n ls call
  | .release _ => do
    let (ls, call) ← (Lock.LockServerCache.release entry).mapError .fault
    retry n ls call

/-- The client that a request makes the server call back. -/
def target (entry : Option (ServerLock Cid)) : LockRequest Cid → Option Cid
  | .acquire clientID =>
    match entry with
    | none => none
    | some ls =>
      match ls.state with
      | .locked => ls.owner
      | .retrying =>
        if ls.retrying = some clientID ∧ clientID ∉ ls.waiting ∧ ls.waiting.Nonempty then some clientID
        else none
      | _ => none
  | .release _ =>
    match entry with
    | none => none
    | some ls => if present : ls.waiting.Nonempty then some (ls.waiting.min' present) else none

variable {n}

theorem answer_eq_error_iff {target : Cid} {answer : LockStatus × ServerLock Cid} :
    (do n.call target; return answer : Except (Crash Lock.Fault) _) = .error .nullRpcc ↔
      ¬ n.Reaches target := by
  rw [← @Connections.call_eq_error_iff Cid Obj _ _ n target Lock.Fault]
  cases (n.call target : Except (Crash Lock.Fault) Unit) with
  | error crash => simp [Functor.map, Except.map]
  | ok _ => simp [Functor.map, Except.map]

theorem serve_acquire {entry : Option (ServerLock Cid)} {clientID : Cid} {ls : ServerLock Cid}
    {call : AcquireCall Cid} (ran : Lock.LockServerCache.acquire entry clientID = .ok (ls, call)) :
    serve n entry (.acquire clientID) = revoke n ls call := by
  rw [serve, ran]
  rfl

theorem serve_acquire_eq_error_iff {entry : Option (ServerLock Cid)} {clientID : Cid} :
    serve n entry (.acquire clientID) = .error .nullRpcc ↔
      ∃ c, target entry (.acquire clientID) = some c ∧ ¬ n.Reaches c := by
  cases entry with
  | none =>
    rw [serve_acquire rfl]
    simp [revoke, target, Pure.pure, Except.pure]
  | some ls =>
    cases state : ls.state with
    | none =>
      rw [serve_acquire (by simp only [Lock.LockServerCache.acquire, Option.getD_some, state]; rfl)]
      simp [revoke, target, state, Pure.pure, Except.pure]
    | locked =>
      rw [serve_acquire (by simp only [Lock.LockServerCache.acquire, Option.getD_some, state]; rfl)]
      cases owner : ls.owner with
      | none => simp [revoke, target, state, owner]
      | some c => simpa [revoke, target, state, owner] using answer_eq_error_iff
    | revoking =>
      rw [serve_acquire (by simp only [Lock.LockServerCache.acquire, Option.getD_some, state]; rfl)]
      simp [revoke, target, state, Pure.pure, Except.pure]
    | retrying =>
      by_cases named : ls.retrying = some clientID
      · by_cases queued : clientID ∈ ls.waiting
        · simp [serve, Lock.LockServerCache.acquire, state, named, queued, target, Except.mapError,
            Bind.bind, Except.bind]
        · by_cases present : ls.waiting.Nonempty
          · rw [serve_acquire (by
              simp only [Lock.LockServerCache.acquire, Option.getD_some, state, named, queued, present,
                if_true, if_false]
              rfl)]
            simpa [revoke, target, state, named, queued, present] using answer_eq_error_iff
          · rw [serve_acquire (by
              simp only [Lock.LockServerCache.acquire, Option.getD_some, state, named, queued, present,
                if_true, if_false]
              rfl)]
            simp [revoke, target, state, named, queued, present, Pure.pure, Except.pure]
      · rw [serve_acquire (by
          simp only [Lock.LockServerCache.acquire, Option.getD_some, state, named, if_false]
          rfl)]
        simp [revoke, target, state, named, Pure.pure, Except.pure]

theorem serve_release_eq_error_iff {entry : Option (ServerLock Cid)} {clientID : Cid} :
    serve n entry (.release clientID) = .error .nullRpcc ↔
      ∃ c, target entry (.release clientID) = some c ∧ ¬ n.Reaches c := by
  cases entry with
  | none => simp [serve, target, Lock.LockServerCache.release, Except.mapError, Bind.bind, Except.bind]
  | some ls =>
    by_cases present : ls.waiting.Nonempty
    · have ran : Lock.LockServerCache.release (some ls) = .ok
          ({ owner := none, retrying := some (ls.waiting.min' present),
             waiting := ls.waiting.erase (ls.waiting.min' present), state := .retrying },
            .retry (ls.waiting.min' present)) := by
        simp [Lock.LockServerCache.release, present]
      rw [serve, ran]
      refine answer_eq_error_iff.trans ?_
      simp [target, present]
    · simp [serve, target, Lock.LockServerCache.release, present, Except.mapError, Bind.bind, Except.bind]

end LockServerCache

end Lock

section Extent

open Yfs.Lib Yfs.Extent
open Yfs.Store (ExtentStatus)

variable {Cid Obj α : Type} [DecidableEq Cid] [DecidableEq Obj] (n : Connections Cid Obj)

/-- The requests that may call back a client. -/
inductive ExtentRequest (Cid : Type) where
  | get (cid : Cid) (id : Nat)
  | getattr (cid : Cid) (id : Nat)
  | remove (cid : Cid) (id : Nat)

def ExtentRequest.id : ExtentRequest Cid → Nat
  | .get _ id | .getattr _ id | .remove _ id => id

namespace ExtentServer

/-- `handle(owner_map[id]).safebind()->call(..)`. -/
def callBack (owner : Cid) (callback : Callback Cid) (handler : Ext Cid α) :
    Act (Callback Cid) (Crash Extent.Fault) (World Cid) α :=
  match n.safebind owner with
  | none => Act.throw .nullRpcc
  | some _ => do
    Act.emit callback
    handler.mapFault .fault

/-- `if (owner_map.find(id) != owner_map.end())` with the callback of `get` or `remove`. -/
def callOwner (id : Nat) (callback : Cid → Nat → Callback Cid) (handler : Cid → Nat → Ext Cid Unit) :
    Act (Callback Cid) (Crash Extent.Fault) (World Cid) Unit := do
  let W ← Act.get
  match W.server.ownerMap id with
  | some owner => callBack n owner (callback owner id) (handler owner id)
  | none => pure ()

/-- `extent_server::get`, `extent_server::getattr` and `extent_server::remove`. -/
def serve (env : Env) : ExtentRequest Cid →
    Act (Callback Cid) (Crash Extent.Fault) (World Cid) (ExtentStatus × Answer)
  | .get cid id => do
    let id := mask id
    callOwner n id Callback.flush (Client.flushHandler env)
    Act.modify (·.setOwner id cid)
    let W ← Act.get
    let (buf, files) ← (orFault .nullInode (W.server.files.readFile id env.fetched)).mapFault .fault
    Act.modify (·.setFiles files)
    return (.ok, .data buf)
  | .getattr _ id => do
    let id := mask id
    let W ← Act.get
    match W.server.ownerMap id with
    | some owner =>
      return (.ok, .attr (← callBack n owner (.syncMeta owner id) (Client.syncMetaHandler owner id)))
    | none => return (.ok, .attr (W.server.files.getattr id ⟨0, 0, 0, 0, 0⟩))
  | .remove _ id => do
    let id := mask id
    callOwner n id Callback.clear Client.clearHandler
    let W ← Act.get
    let files ← (orFault .nullInode (W.server.files.removeFile id)).mapFault .fault
    Act.modify (·.setFiles files)
    return (.ok, .done)

/-- The handlers when no client is out of reach. -/
def served (env : Env) : ExtentRequest Cid → Ext Cid (ExtentStatus × Answer)
  | .get cid id => return (.ok, .data (← Server.get env cid id))
  | .getattr _ id => return (.ok, .attr (← Server.getattr id))
  | .remove _ id => do
    Server.remove id
    return (.ok, .done)

variable {n} {W : World Cid} {env : Env}

theorem callBack_eq {owner : Cid} (reaches : n.Reaches owner) (callback : Callback Cid)
    (handler : Ext Cid α) :
    callBack n owner callback handler = Act.mapFault .fault (do Act.emit callback; handler) := by
  obtain ⟨c, bound⟩ := Option.ne_none_iff_exists'.mp (Connections.safebind_ne_none_iff.mpr reaches)
  simp [callBack, bound]

theorem callOwner_eq {id : Nat} (reaches : ∀ owner, W.server.ownerMap id = some owner → n.Reaches owner)
    (callback : Cid → Nat → Callback Cid) (handler : Cid → Nat → Ext Cid Unit) :
    callOwner n id callback handler W = Act.mapFault .fault (Server.callOwner id callback handler) W := by
  simp only [callOwner, Server.callOwner, Act.mapFault_bind, Act.mapFault_get]
  change Act.bind Act.get _ W = Act.bind Act.get _ W
  simp only [Act.bind, Act.get]
  cases owned : W.server.ownerMap id with
  | none => rfl
  | some owner => simp [callBack_eq (reaches owner owned)]

/-- With the owner in reach a handler is the one of the extent service. -/
theorem serve_eq_served (request : ExtentRequest Cid)
    (reaches : ∀ owner, W.server.ownerMap (mask request.id) = some owner → n.Reaches owner) :
    serve n env request W = Act.mapFault .fault (served env request) W := by
  cases request with
  | get cid id =>
    simp only [served, Server.get, Act.bind_assoc, Act.mapFault_bind]
    exact Act.bind_congr (callOwner_eq reaches _ _)
  | getattr cid id =>
    simp only [serve, served, Server.getattr, Act.bind_assoc, Act.mapFault_bind, Act.mapFault_get]
    change Act.bind Act.get _ W = Act.bind Act.get _ W
    simp only [Act.bind, Act.get]
    cases owned : W.server.ownerMap (mask id) with
    | none => rfl
    | some owner =>
      simp only [callBack_eq (reaches owner owned)]
      rfl
  | remove cid id =>
    simp only [served, Server.remove, Act.bind_assoc, Act.mapFault_bind]
    exact Act.bind_congr (callOwner_eq reaches _ _)

theorem callBack_null {owner : Cid} (unreachable : ¬ n.Reaches owner) (callback : Callback Cid)
    (handler : Ext Cid α) : callBack n owner callback handler = Act.throw .nullRpcc := by
  have null : n.safebind owner = none := by
    by_contra bound
    exact unreachable (Connections.safebind_ne_none_iff.mp bound)
  simp only [callBack, null]

theorem callOwner_null {id : Nat} {owner : Cid} (owned : W.server.ownerMap id = some owner)
    (unreachable : ¬ n.Reaches owner) (callback : Cid → Nat → Callback Cid)
    (handler : Cid → Nat → Ext Cid Unit) :
    (callOwner n id callback handler W).2 = .error .nullRpcc := by
  change (Act.bind Act.get _ W).2 = _
  simp only [Act.bind, Act.get, owned, callBack_null unreachable]
  rfl

/-- Every handler calls the owner back, whether it can be reached or not. -/
theorem serve_eq_error_iff (request : ExtentRequest Cid) :
    (serve n env request W).2 = .error .nullRpcc ↔
      ∃ owner, W.server.ownerMap (mask request.id) = some owner ∧ ¬ n.Reaches owner := by
  constructor
  · intro crashed
    by_contra reaches
    rw [serve_eq_served] at crashed
    · cases outcome : (served env request W).2 <;>
        simp [Act.mapFault, outcome, Except.mapError] at crashed
    · intro owner owned
      by_contra unreachable
      exact reaches ⟨owner, owned, unreachable⟩
  · rintro ⟨owner, owned, unreachable⟩
    cases request with
    | get cid id => exact Act.bind_stops (callOwner_null owned unreachable _ _)
    | getattr cid id =>
      change (Act.bind Act.get _ W).2 = _
      have owned : W.server.ownerMap (mask id) = some owner := owned
      simp only [Act.bind, Act.get, owned, callBack_null unreachable]
      rfl
    | remove cid id => exact Act.bind_stops (callOwner_null owned unreachable _ _)

end ExtentServer

end Extent

/-- A handler that never calls through a null `rpcc` and, where it has to call back a
client that it cannot reach, is refused. -/
structure Survives {ε α : Type} (outcome : Except (Crash ε) α) (unreachable : Prop)
    (refused : α → Prop) : Prop where
  calls : outcome ≠ .error .nullRpcc
  refuses : unreachable → ∃ a, outcome = .ok a ∧ refused a

theorem survives_iff_reachable {ε α : Type} {outcome : Except (Crash ε) α} {unreachable : Prop}
    {refused : α → Prop} (crashes : outcome = .error .nullRpcc ↔ unreachable) :
    Survives outcome unreachable refused ↔ ¬ unreachable := by
  constructor
  · intro survives missing
    exact survives.calls (crashes.mpr missing)
  · intro reaches
    exact ⟨fun crashed => reaches (crashes.mp crashed), fun missing => absurd missing reaches⟩

section Survives

open Yfs.Lock Yfs.Extent

variable {Cid Obj : Type} [LinearOrder Cid] [DecidableEq Obj] (n : Connections Cid Obj)

/-- The lock server survives a request: refused, with the lock as it was. -/
def LockSurvives (entry : Option (ServerLock Cid)) (request : LockRequest Cid) : Prop :=
  Survives (LockServerCache.serve n entry request)
    (∃ c, LockServerCache.target entry request = some c ∧ n.safebind c = none)
    fun (status, ls) => status ≠ .ok ∧ some ls = entry

/-- The extent server survives a request: refused, with the owner and the content as they were. -/
def ExtentSurvives (W : World Cid) (env : Env) (request : ExtentRequest Cid) : Prop :=
  Survives (ExtentServer.serve n env request W).2
    (∃ owner, W.server.ownerMap (mask request.id) = some owner ∧ n.safebind owner = none)
    fun ((status, _), W') => status ≠ .ok ∧
      W'.server.ownerMap (mask request.id) = W.server.ownerMap (mask request.id) ∧
      (W'.server.files (mask request.id)).map (·.bytes) = (W.server.files (mask request.id)).map (·.bytes)

/-- A callback is survived exactly when the client can be reached. -/
theorem survives_iff_reaches :
    (∀ entry request, LockSurvives n entry request ↔
      ∀ c, LockServerCache.target entry request = some c → n.Reaches c) ∧
    ∀ W env request, ExtentSurvives n W env request ↔
      ∀ owner, W.server.ownerMap (mask request.id) = some owner → n.Reaches owner := by
  have unreachable (c : Cid) : n.safebind c = none ↔ ¬ n.Reaches c := by
    rw [← Connections.safebind_ne_none_iff, not_not]
  constructor
  · intro entry request
    rw [LockSurvives, survives_iff_reachable]
    · simp [unreachable]
    · simp only [unreachable]
      cases request with
      | acquire clientID => exact LockServerCache.serve_acquire_eq_error_iff
      | release clientID => exact LockServerCache.serve_release_eq_error_iff
  · intro W env request
    rw [ExtentSurvives, survives_iff_reachable]
    · simp [unreachable]
    · simp only [unreachable]
      exact ExtentServer.serve_eq_error_iff request

/-- No client has been called yet, and no bind succeeds. -/
private def severed : Connections (Fin 2) (Fin 1) where
  mgr := .empty
  reached := ⟨[], .nil⟩
  bind _ := none
  bound _ _ := nofun
  address := 0
  free := rfl

/-- Client 1 asks for a lock whose owner, client 0, cannot be reached. -/
theorem acquire_not_survived :
    ∃ s : System Unit (Fin 2) (Fin 1), s.Reachable ∧ severed.safebind 0 = none ∧
      LockServerCache.serve severed (s.server ()) (.acquire 1) = .error .nullRpcc ∧
      ¬ LockSurvives severed (s.server ()) (.acquire 1) := by
  obtain ⟨s, taken, locked⟩ : ∃ s : System Unit (Fin 2) (Fin 1),
      System.initial.exec () [.acquire (0, 0), .run (0, 0), .run (0, 0)] = some s ∧
        s.server () = some ⟨some 0, none, ∅, .locked⟩ := ⟨_, rfl, rfl⟩
  have crashed : LockServerCache.serve severed (s.server ()) (.acquire 1) = .error .nullRpcc := by
    rw [locked]
    rfl
  exact ⟨s, System.Reachable.exec .refl taken, rfl, crashed, fun survives => survives.calls crashed⟩

end Survives

end Yfs.Rpc
