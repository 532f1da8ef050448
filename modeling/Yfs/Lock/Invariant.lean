import Mathlib.Data.Set.Subsingleton
import Yfs.Lock.System

/-! What a reachable lock looks like. The server's fields and the messages under
way give each client a standing; the invariant lists which standings go with
which client states, messages and queue heads. -/

namespace Yfs.Lock

/-- What the server and the messages under way say about one client: nothing,
granted without contention, granted with a revoke under way, granted with the
revoke delivered, waiting, chosen with the retry under way, chosen with the
retry delivered. -/
inductive Standing where
  | out | granted | asked | told | waiting | called | heard
  deriving DecidableEq, Repr

/-- The position of the thread at the head of a client's queue. `stray` is never
one of them in a reachable state. -/
inductive Front where
  | none | woken | parked | unparked | asking | denied | won
  | sleeping | rung | holding | yielding | yielded | stray
  deriving DecidableEq, Repr

/-- A release call made by `revoke_handler` for a client: none, not yet handled
by the server, handled. -/
inductive Background where
  | none | request | done
  deriving DecidableEq, Repr

namespace Pc

@[simp] def front : Pc Cid → Front
  | .idle => .stray
  | .parked false => .parked
  | .parked true => .unparked
  | .queued false => .stray
  | .queued true => .woken
  | .calling .request => .asking
  | .calling .readOwner => .denied
  | .calling (.revoke _ .retry _) => .denied
  | .calling (.revoke _ .ok _) => .won
  | .calling (.reply .retry) => .denied
  | .calling (.reply .ok) => .won
  | .waiting false => .sleeping
  | .waiting true => .rung
  | .holding => .holding
  | .releasing .request => .yielding
  | .releasing _ => .yielded

/-- A revoke is under way on behalf of this thread. -/
def asks : Pc Cid → Bool
  | .calling .readOwner => true
  | .calling (.revoke _ _ .request) => true
  | _ => false

/-- The client to which a revoke is under way on behalf of this thread. -/
def target : Pc Cid → Option Cid
  | .calling (.revoke target _ .request) => some target
  | _ => none

/-- The client to which a retry is under way on behalf of this thread. -/
def calls : Pc Cid → Option Cid
  | .calling (.revoke _ _ (.release (.retry target))) => some target
  | .releasing (.retry target) => some target
  | _ => none

/-- The client whose `revoke_handler` makes a release call on behalf of this
thread, and whether the server has handled that call. -/
def background : Pc Cid → Option (Cid × Bool)
  | .calling (.revoke target _ (.release .request)) => some (target, false)
  | .calling (.revoke target _ (.release _)) => some (target, true)
  | _ => none

end Pc

/-- The four forms of a server entry. -/
inductive Shape : ServerLock Cid → Prop where
  | fresh : Shape { owner := none, retrying := none, waiting := ∅, state := .none }
  | locked (owner : Cid) :
      Shape { owner := some owner, retrying := none, waiting := ∅, state := .locked }
  | revoking (owner : Cid) (waiting : Finset Cid) (present : waiting.Nonempty)
      (apart : owner ∉ waiting) :
      Shape { owner := some owner, retrying := none, waiting, state := .revoking }
  | retrying (next : Cid) (waiting : Finset Cid) (apart : next ∉ waiting) :
      Shape { owner := none, retrying := some next, waiting, state := .retrying }

/-- Standings of an owner that go with the message slot: the slot holds `REVOKE`
exactly when the revoke has been delivered. -/
inductive Owns : Standing → Message → Prop where
  | granted : Owns .granted .empty
  | asked : Owns .asked .empty
  | told : Owns .told .revoke

/-- The combinations of standing, client state, message slot, queue head and
background release that occur. -/
inductive Phase : Standing → Status → Message → Front → Background → Prop where
  | quiet (head : front = .none ∨ front = .woken ∨ front = .unparked) :
      Phase .out .none .empty front .none
  | asking (standing : σ = .out ∨ σ = .heard) : Phase σ .acquiring .empty .asking .none
  | denied (standing : σ = .waiting ∨ σ = .called) (head : front = .denied ∨ front = .sleeping) :
      Phase σ .acquiring .empty front .none
  | rung (head : front = .denied ∨ front = .rung) : Phase .heard .acquiring .retry front .none
  | won (owns : Owns σ message) : Phase σ .acquiring message .won .none
  | held (owns : Owns σ message) (head : front = .holding ∨ front = .woken) :
      Phase σ .locked message front .none
  | free (standing : σ = .granted ∨ σ = .asked) : Phase σ .free .empty .none .none
  | yielding : Phase .told .releasing .revoke .yielding .none
  | yielded : Phase .out .releasing .revoke .yielded .none
  | background (head : front = .none ∨ front = .parked) :
      Phase .told .releasing .empty front .request
  | backgroundDone (head : front = .none ∨ front = .parked) :
      Phase .out .releasing .empty front .done

/-! What a phase with a known head, standing or background release allows, and
the phases its next section leads to. -/

namespace Phase

theorem not_stray (phase : Phase σ state message front ρ) : front ≠ .stray := by
  intro stray
  subst stray
  cases phase <;> simp_all

theorem empty (phase : Phase σ state message .none ρ) :
    state = .free ∧ Phase σ .locked message .holding ρ ∨
      state = .none ∧ Phase σ .acquiring message .asking ρ ∨
      state = .releasing ∧ Phase σ state message .parked ρ := by
  cases phase with
  | quiet head => exact .inr (.inl ⟨rfl, .asking (.inl rfl)⟩)
  | free standing =>
    rcases standing with rfl | rfl
    · exact .inl ⟨rfl, .held .granted (.inl rfl)⟩
    · exact .inl ⟨rfl, .held .asked (.inl rfl)⟩
  | background head => exact .inr (.inr ⟨rfl, .background (.inr rfl)⟩)
  | backgroundDone head => exact .inr (.inr ⟨rfl, .backgroundDone (.inr rfl)⟩)
  | _ => simp_all

theorem unparked (phase : Phase σ state message .unparked ρ) :
    Phase σ .acquiring message .asking ρ := by
  cases phase with
  | quiet head => exact .asking (.inl rfl)
  | _ => simp_all

theorem woken (phase : Phase σ state message .woken ρ) :
    state = .none ∧ Phase σ .acquiring message .asking ρ ∨
      state = .locked ∧ Phase σ .locked message .holding ρ := by
  cases phase with
  | quiet head => exact .inl ⟨rfl, .asking (.inl rfl)⟩
  | held owns head => exact .inr ⟨rfl, .held owns (.inl rfl)⟩
  | _ => simp_all

theorem answeredOk (phase : Phase σ state message .won ρ) : Phase σ .locked message .holding ρ := by
  cases phase with
  | won owns => exact .held owns (.inl rfl)
  | _ => simp_all

theorem answeredRetry (phase : Phase σ state message .denied ρ) :
    state = .acquiring ∧ (message = .empty ∧ Phase σ state message .sleeping ρ ∨
      message ≠ .empty ∧ Phase σ state .empty .asking ρ) := by
  cases phase with
  | denied standing head => exact ⟨rfl, .inl ⟨rfl, .denied standing (.inr rfl)⟩⟩
  | rung head => exact ⟨rfl, .inr ⟨by simp, .asking (.inr rfl)⟩⟩
  | _ => simp_all

theorem awake (phase : Phase σ state message .rung ρ) :
    state = .acquiring ∧ Phase σ state .empty .asking ρ := by
  cases phase with
  | rung head => exact ⟨rfl, .asking (.inr rfl)⟩
  | _ => simp_all

theorem holding (phase : Phase σ state message .holding ρ) :
    message = .revoke ∧ Phase σ .releasing message .yielding ρ ∨
      message ≠ .revoke ∧ Phase σ .free message .none ρ ∧ Phase σ .locked message .woken ρ := by
  cases phase with
  | held owns head =>
    cases owns with
    | granted => exact .inr ⟨by simp, .free (.inl rfl), .held .granted (.inr rfl)⟩
    | asked => exact .inr ⟨by simp, .free (.inr rfl), .held .asked (.inr rfl)⟩
    | told => exact .inl ⟨rfl, .yielding⟩
  | _ => simp_all

theorem released (phase : Phase σ state message .yielded ρ) :
    Phase σ .none .empty .none ρ ∧ Phase σ .none .empty .woken ρ := by
  cases phase with
  | yielded => exact ⟨.quiet (.inl rfl), .quiet (.inr (.inl rfl))⟩
  | _ => simp_all

theorem request (phase : Phase σ state message .asking ρ) :
    (σ = .out ∨ σ = .heard) ∧ state = .acquiring ∧ message = .empty ∧ ρ = .none := by
  cases phase with
  | asking standing => exact ⟨standing, rfl, rfl, rfl⟩
  | _ => simp_all

theorem contended (phase : Phase .granted state message front ρ) :
    Phase .asked state message front ρ := by
  cases phase with
  | won owns =>
    cases owns
    exact .won .asked
  | held owns head =>
    cases owns
    exact .held .asked head
  | free standing => exact .free (.inr rfl)
  | _ => simp_all

theorem revoke (phase : Phase .asked state message front ρ) :
    state ≠ .none ∧ ρ = .none ∧
      (state = .free ∧ Phase .told .releasing message front .request ∨
        state ≠ .free ∧ Phase .told state .revoke front ρ) := by
  cases phase with
  | won owns => exact ⟨by simp, rfl, .inr ⟨by simp, .won .told⟩⟩
  | held owns head => exact ⟨by simp, rfl, .inr ⟨by simp, .held .told head⟩⟩
  | free standing => exact ⟨by simp, rfl, .inl ⟨rfl, .background (.inl rfl)⟩⟩
  | _ => simp_all

theorem chosen (phase : Phase .waiting state message front ρ) :
    Phase .called state message front ρ := by
  cases phase with
  | denied standing head => exact .denied (.inr rfl) head
  | won owns => cases owns
  | held owns _ => cases owns
  | _ => simp_all

theorem retry (phase : Phase .called state message front ρ) :
    front = .denied ∧ Phase .heard state .retry .denied ρ ∨
      front = .sleeping ∧ Phase .heard state .retry .rung ρ := by
  cases phase with
  | denied standing head =>
    rcases head with rfl | rfl
    · exact .inl ⟨rfl, .rung (.inl rfl)⟩
    · exact .inr ⟨rfl, .rung (.inr rfl)⟩
  | won owns => cases owns
  | held owns _ => cases owns
  | _ => simp_all

theorem yield (phase : Phase σ state message .yielding ρ) :
    σ = .told ∧ Phase .out state message .yielded ρ := by
  cases phase with
  | yielding => exact ⟨rfl, .yielded⟩
  | _ => simp_all

theorem backgroundRequest (phase : Phase σ state message front .request) :
    σ = .told ∧ Phase .out state message front .done := by
  cases phase with
  | background head => exact ⟨rfl, .backgroundDone head⟩

theorem backgroundReply (phase : Phase σ state message front .done) :
    σ = .out ∧ state ≠ .none ∧ (front = .none ∧ Phase .out .none message .none .none ∨
      front = .parked ∧ Phase .out .none message .unparked .none) := by
  cases phase with
  | backgroundDone head =>
    rcases head with rfl | rfl
    · exact ⟨rfl, by simp, .inl ⟨rfl, .quiet (.inl rfl)⟩⟩
    · exact ⟨rfl, by simp, .inr ⟨rfl, .quiet (.inr (.inr rfl))⟩⟩

end Phase

/-- The standing of a client, given whether a revoke and a retry are under way. -/
def ServerLock.standing [DecidableEq Cid] (ls : ServerLock Cid) (asks calls : Prop)
    [Decidable asks] [Decidable calls] (c : Cid) : Standing :=
  if ls.owner = some c then
    if ls.state = .locked then .granted else if asks then .asked else .told
  else if ls.retrying = some c then if calls then .called else .heard
  else if c ∈ ls.waiting then .waiting else .out

theorem ServerLock.standing_congr [DecidableEq Cid] (ls : ServerLock Cid) {asks calls asks' calls' : Prop}
    [Decidable asks] [Decidable calls] [Decidable asks'] [Decidable calls'] (revoke : asks ↔ asks')
    (retry : calls ↔ calls') (c : Cid) : ls.standing asks calls c = ls.standing asks' calls' c := by
  simp only [standing, revoke, retry]

/-- A client's queue: every thread inside a call is queued once, and those behind
the head sleep in `acquire`. -/
structure Queue (threads : List Tid) (pc : Tid → Pc Cid) : Prop where
  nodup : threads.Nodup
  idle : ∀ t, t ∉ threads → pc t = .idle
  behind : ∀ t ∈ threads.tail, pc t = .queued false

namespace LockSys

variable {Cid Tid : Type}

def serverLock (s : LockSys Cid Tid) : ServerLock Cid := s.server.getD .fresh

def lock (s : LockSys Cid Tid) (c : Cid) : ClientLock Tid := (s.clients c).getD .fresh

def front (s : LockSys Cid Tid) (c : Cid) : Front :=
  match (s.lock c).threads with
  | [] => .none
  | t :: _ => (s.pc (c, t)).front

/-- Some revoke is under way. -/
def Asks (s : LockSys Cid Tid) : Prop := ∃ x, (s.pc x).asks = true

/-- Some retry is under way. -/
def Calls (s : LockSys Cid Tid) : Prop := ∃ x c, (s.pc x).calls = some c

/-- A release call of `c`'s `revoke_handler` is under way. -/
def Releases (s : LockSys Cid Tid) (c : Cid) (handled : Bool) : Prop :=
  ∃ x, (s.pc x).background = some (c, handled)

variable [LinearOrder Cid]

open Classical in
noncomputable def standing (s : LockSys Cid Tid) (c : Cid) : Standing :=
  s.serverLock.standing s.Asks s.Calls c

open Classical in
theorem standing_eq {s : LockSys Cid Tid} {ls : ServerLock Cid} {asks calls : Prop}
    [Decidable asks] [Decidable calls] (server : s.serverLock = ls) (revoke : s.Asks ↔ asks)
    (retry : s.Calls ↔ calls) (c : Cid) : s.standing c = ls.standing asks calls c := by
  rw [standing, server]
  exact ls.standing_congr revoke retry c

open Classical in
/-- The revokes under way matter to the owner only, the retries to the chosen client. -/
theorem standing_congr {s t : LockSys Cid Tid} (server : t.serverLock = s.serverLock) {c : Cid}
    (revoke : s.serverLock.owner = some c → (t.Asks ↔ s.Asks))
    (retry : s.serverLock.retrying = some c → (t.Calls ↔ s.Calls)) :
    t.standing c = s.standing c := by
  unfold standing ServerLock.standing
  rw [server]
  by_cases owned : s.serverLock.owner = some c
  · simp only [owned, if_true, revoke owned]
  · by_cases chosen : s.serverLock.retrying = some c
    · simp only [owned, if_false, chosen, if_true, retry chosen]
    · simp only [owned, if_false, chosen]

open Classical in
noncomputable def background (s : LockSys Cid Tid) (c : Cid) : Background :=
  if s.Releases c false then .request else if s.Releases c true then .done else .none

omit [LinearOrder Cid] in
theorem background_congr {s t : LockSys Cid Tid}
    (same : ∀ y, (t.pc y).background = (s.pc y).background) (c : Cid) :
    t.background c = s.background c := by
  have releases : t.Releases c = s.Releases c := by
    funext handled
    simp only [Releases, same]
  rw [background, background, releases]

/-- The invariant of the lock protocol for one lock id. -/
structure Inv (s : LockSys Cid Tid) : Prop where
  shape : Shape s.serverLock
  queue : ∀ c, Queue (s.lock c).threads fun t => s.pc (c, t)
  phase : ∀ c, Phase (s.standing c) (s.lock c).state (s.lock c).message (s.front c) (s.background c)
  asksOnce : { x | (s.pc x).asks = true }.Subsingleton
  asksOwner : ∀ x, (s.pc x).asks = true → s.serverLock.state = .revoking
  targetOwner : ∀ x c, (s.pc x).target = some c → s.serverLock.owner = some c
  callsOnce : { x | ∃ c, (s.pc x).calls = some c }.Subsingleton
  callsChosen : ∀ x c, (s.pc x).calls = some c → s.serverLock.retrying = some c
  backgroundOnce : ∀ c, { x | ∃ handled, (s.pc x).background = some (c, handled) }.Subsingleton

theorem initial_inv : (initial : LockSys Cid Tid).Inv := by
  constructor
  · exact .fresh
  · intro c
    exact ⟨List.nodup_nil, fun _ _ => rfl, by simp [lock, initial, ClientLock.fresh]⟩
  · intro c
    have standing : (initial : LockSys Cid Tid).standing c = .out := by
      simp [standing, ServerLock.standing, serverLock, initial, ServerLock.fresh]
    have background : (initial : LockSys Cid Tid).background c = .none := by
      simp [background, Releases, initial, Pc.background]
    rw [standing, background]
    exact .quiet (.inl rfl)
  all_goals simp [initial, Pc.asks, Pc.target, Pc.calls, Pc.background, Set.Subsingleton]

end LockSys

end Yfs.Lock
