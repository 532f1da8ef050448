import Yfs.Lock.Safety

/-! What the sections of the protocol rely on without a check of their own: the
form of the server's entry when a request is handled, the owner it reads with its
mutex dropped, and the queue a callback finds at a client. -/

namespace Yfs.Lock

theorem of_bind_ok {m : Except ε α} {f : α → Except ε β} {b : β} (done : (m >>= f) = .ok b) :
    ∃ a, m = .ok a ∧ f a = .ok b := by
  cases m with
  | error => cases done
  | ok a => exact ⟨a, rfl, done⟩

/-- The form `lock_server_cache` gives an entry in each of its states. -/
structure ServerLock.Consistent (ls : ServerLock Cid) : Prop where
  locked : ls.state = .locked → ls.owner ≠ none ∧ ls.waiting = ∅
  revoking : ls.state = .revoking →
    ∃ owner, ls.owner = some owner ∧ ls.waiting.Nonempty ∧ owner ∉ ls.waiting
  retrying : ls.state = .retrying →
    ∃ next, ls.retrying = some next ∧ next ∉ ls.waiting ∧ ls.owner = none

theorem Shape.consistent (shape : Shape ls) : ls.Consistent := by
  cases shape with
  | fresh => constructor <;> simp
  | locked owner => constructor <;> simp
  | revoking owner waiting present apart =>
    constructor
    · simp
    · exact fun _ => ⟨owner, rfl, present, apart⟩
    · simp
  | retrying next waiting apart =>
    constructor
    · simp
    · simp
    · exact fun _ => ⟨next, rfl, apart, rfl⟩

namespace Pc

/-- The client in the `id` of a release request that is under way on behalf of a
thread of client `own`. -/
def releases (own : Cid) : Pc Cid → Option Cid
  | .releasing .request => some own
  | .calling (.revoke target _ (.release .request)) => some target
  | _ => none

/-- The thread executes `lock_client_cache::wait`. -/
def inWait : Pc Cid → Bool
  | .calling _ | .waiting _ => true
  | _ => false

theorem releases_cases {own c : Cid} {pc : Pc Cid} (sent : pc.releases own = some c) :
    (pc = .releasing .request ∧ c = own) ∨
      ∃ reply, pc = .calling (.revoke c reply (.release .request)) := by
  unfold releases at sent
  split at sent
  · exact .inl ⟨rfl, (Option.some.inj sent).symm⟩
  · cases sent
    exact .inr ⟨_, rfl⟩
  · cases sent

end Pc

theorem Phase.awaits (phase : Phase .called state message front ρ) :
    front = .denied ∨ front = .sleeping := by
  rcases phase.retry with ⟨denied, -⟩ | ⟨sleeping, -⟩
  · exact .inl denied
  · exact .inr sleeping

theorem Pc.inWait_of_front {pc : Pc Cid} (awaits : pc.front = .denied ∨ pc.front = .sleeping) :
    pc.inWait = true := by
  rcases pc with _ | (_ | _) | (_ | _) | (_ | _ | ⟨_, _ | _, _⟩ | (_ | _)) | (_ | _) | _ |
    (_ | _ | _) <;> simp [Pc.inWait] at awaits ⊢

namespace LockSys

section Server

variable {Cid Tid : Type} [LinearOrder Cid] {s : LockSys Cid Tid} {c o : Cid} {x : Cid × Tid}

/-- Only an owner that has been told to give the lock up sends a release. -/
theorem Inv.releaser_told (inv : s.Inv) (sent : (s.pc x).releases x.1 = some c) :
    s.standing c = .told := by
  rcases Pc.releases_cases sent with ⟨yielding, rfl⟩ | ⟨reply, calling⟩
  · obtain ⟨rest, head⟩ := inv.head (c := x.1) (a := x.2) (by simp [yielding]) (by simp [yielding])
    have phase := inv.phase x.1
    rw [front_cons head, yielding] at phase
    exact phase.yield.1
  · have carried : (s.pc x).background = some (c, false) := by simp [calling, Pc.background]
    have phase := inv.phase c
    rw [inv.background_of carried] at phase
    exact phase.backgroundRequest.1

theorem Inv.release_handled (inv : s.Inv) (sent : (s.pc x).releases x.1 = some c) :
    ∃ ls, s.server = some ls ∧ ls.state = .revoking ∧ ls.owner = some c ∧
      ∃ next, LockServerCache.release (some ls) = .ok next := by
  obtain ⟨⟨waiting, present, apart, entry⟩, -⟩ := inv.told (inv.releaser_told sent)
  have found : s.server = some s.serverLock := server_of_state (by simp [entry])
  refine ⟨s.serverLock, found, by simp [entry], by simp [entry], ?_⟩
  simp [LockServerCache.release, entry, present]

theorem Inv.acquire_handled (inv : s.Inv) (client : Cid) :
    ∃ next, LockServerCache.acquire s.server client = .ok next := by
  have shape := inv.shape
  unfold LockServerCache.acquire
  change Shape (s.server.getD .fresh) at shape
  generalize s.server.getD .fresh = sv at shape
  cases shape with
  | fresh => exact ⟨_, rfl⟩
  | locked owner => exact ⟨_, rfl⟩
  | revoking owner waiting present apart => exact ⟨_, rfl⟩
  | retrying next waiting apart =>
    by_cases same : next = client
    · subst same
      by_cases contended : waiting.Nonempty
      · simp [apart, contended]
      · simp [apart, contended]
    · simp [same]

variable [DecidableEq Tid] {t : LockSys Cid Tid}

@[simp] theorem server_settle (ls : ClientLock Tid) (pc : Pc Cid) (front : Option Tid) :
    (s.settle x ls pc front).server = s.server := server_signal front

/-- What a section of thread `x` does to the server's entry: nothing, unless it is
one of the two sections the server itself runs. -/
inductive Serves (s t : LockSys Cid Tid) (x : Cid × Tid) : Prop where
  | kept (same : t.server = s.server)
  | acquired (asking : s.pc x = .calling .request)
      (handled : LockServerCache.acquire s.server x.1 = .ok (ls, call)) (entry : t.server = some ls)
  | released (sent : (s.pc x).releases x.1 = some sender)
      (handled : LockServerCache.release s.server = .ok (ls, call)) (entry : t.server = some ls)

theorem serves_release {resume : ReleaseCall Cid → Pc Cid} {call : ReleaseCall Cid}
    (sent : call = .request → ∃ c, (s.pc x).releases x.1 = some c)
    (taken : s.stepRelease x resume call = .ok t) : Serves s t x := by
  cases call with
  | request =>
    obtain ⟨c, named⟩ := sent rfl
    obtain ⟨⟨ls, next⟩, handled, same⟩ := of_bind_ok taken
    cases same
    exact .released named handled rfl
  | retry target =>
    obtain ⟨⟨ls, front⟩, -, same⟩ := of_bind_ok taken
    cases same
    exact .kept rfl
  | reply =>
    cases taken
    exact .kept rfl

theorem serves_acquire {call : AcquireCall Cid} (position : s.pc x = .calling call)
    (taken : s.stepAcquire x call = .ok t) : Serves s t x := by
  rcases call with _ | _ | ⟨target, answer, _ | (_ | next | _)⟩ | answer
  · obtain ⟨⟨ls, call⟩, handled, same⟩ := of_bind_ok taken
    cases same
    exact .acquired position handled rfl
  · obtain ⟨call, -, same⟩ := of_bind_ok taken
    cases same
    exact .kept rfl
  · obtain ⟨⟨ls, next⟩, -, same⟩ := of_bind_ok taken
    cases same
    exact .kept rfl
  · simp only [stepAcquire] at taken
    exact serves_release (fun _ => ⟨target, by rw [position]; rfl⟩) taken
  · simp only [stepAcquire] at taken
    exact serves_release (by simp) taken
  · obtain ⟨ls, -, same⟩ := of_bind_ok taken
    cases same
    exact .kept (server_signal _)
  · cases taken
    exact .kept rfl

omit [DecidableEq Tid] in
/-- A section on the client's own lock state leaves the server alone. -/
theorem serves_section {α : Type} {f : ClientLock Tid → Except Fault α}
    {settled : α → LockSys Cid Tid} (own : ∀ a, (settled a).server = s.server)
    (taken : (s.deref c >>= fun ls => f ls >>= fun a => pure (settled a)) = .ok t) :
    Serves s t x := by
  obtain ⟨ls, -, ran⟩ := of_bind_ok taken
  obtain ⟨a, -, same⟩ := of_bind_ok ran
  cases same
  exact .kept (own a)

theorem serves_run (taken : s.run x = some (.ok t)) : Serves s t x := by
  cases position : s.pc x with
  | idle | holding => simp [LockSys.run, position] at taken
  | parked signalled =>
    cases signalled with
    | false => simp [LockSys.run, position] at taken
    | true =>
      simp only [LockSys.run, position, Option.some.injEq] at taken
      obtain ⟨ls, -, same⟩ := of_bind_ok taken
      cases same
      exact .kept (server_settle ..)
  | queued signalled | waiting signalled =>
    cases signalled with
    | false => simp [LockSys.run, position] at taken
    | true =>
      simp only [LockSys.run, position, Option.some.injEq] at taken
      exact serves_section (fun _ => server_settle ..) taken
  | calling call =>
    cases call with
    | reply answer =>
      simp only [LockSys.run, position, Option.some.injEq] at taken
      exact serves_section (fun _ => server_settle ..) taken
    | request | readOwner | revoke =>
      simp only [LockSys.run, position, Option.some.injEq] at taken
      exact serves_acquire position taken
  | releasing call =>
    cases call with
    | reply =>
      simp only [LockSys.run, position, Option.some.injEq] at taken
      exact serves_section (fun _ => server_settle ..) taken
    | request | retry =>
      simp only [LockSys.run, position, Option.some.injEq] at taken
      exact serves_release (fun _ => ⟨x.1, by simp_all [Pc.releases]⟩) taken

theorem serves_step (step : s.Step t) : ∃ x, Serves s t x := by
  obtain ⟨action, taken⟩ := step
  cases action with
  | acquire x =>
    cases position : s.pc x with
    | idle =>
      simp only [LockSys.step, position, Option.some.injEq] at taken
      cases taken
      exact ⟨x, .kept (server_settle ..)⟩
    | _ => simp [LockSys.step, position] at taken
  | release x =>
    cases position : s.pc x with
    | holding =>
      simp only [LockSys.step, position, Option.some.injEq] at taken
      obtain ⟨next, -, same⟩ := of_bind_ok taken
      cases same
      exact ⟨x, .kept (server_settle ..)⟩
    | _ => simp [LockSys.step, position] at taken
  | run x => exact ⟨x, serves_run taken⟩

/-- While a thread stands before its read of `ls->owner`, the owner stays. -/
theorem Inv.owner_step (inv : s.Inv) (reading : s.pc x = .calling .readOwner)
    (owned : s.serverLock.owner = some o) (step : s.Step t) : t.serverLock.owner = some o := by
  have asks : (s.pc x).asks = true := by simp [reading, Pc.asks]
  have revoking := inv.asksOwner x asks
  have found : s.server = some s.serverLock := server_of_state (by simp [revoking])
  obtain ⟨y, served⟩ := serves_step step
  cases served with
  | kept same => simpa only [serverLock, same] using owned
  | acquired asking handled entry =>
    rw [found, LockServerCache.acquire, Option.getD_some, revoking] at handled
    cases handled
    simpa [serverLock, entry] using owned
  | released sent handled entry => exact absurd ⟨x, asks⟩ (inv.told (inv.releaser_told sent)).2

end Server

section Client

variable {Cid Tid : Type} [LinearOrder Cid] {s : LockSys Cid Tid} {c d : Cid} {a : Tid}
  {x : Cid × Tid}

theorem Inv.queue_head (inv : s.Inv) (inside : s.pc (c, a) ≠ .idle)
    (active : s.pc (c, a) ≠ .queued false) :
    ∃ ls, s.clients c = some ls ∧ ls.threads.head? = some a ∧
      Phase (s.standing c) ls.state ls.message (s.pc (c, a)).front (s.background c) := by
  obtain ⟨rest, head⟩ := inv.head inside active
  have phase := inv.phase c
  rw [front_cons head] at phase
  exact ⟨s.lock c, clients_of_head head, by simp [head], phase⟩

theorem Inv.resumed (inv : s.Inv) (queued : s.pc (c, a) = .queued true) :
    ∃ ls, s.clients c = some ls ∧ (ls.state = .free ∨ ls.state = .locked ∨ ls.state = .none) := by
  obtain ⟨ls, entry, -, phase⟩ := inv.queue_head (c := c) (a := a) (by simp [queued]) (by simp [queued])
  rw [queued] at phase
  rcases phase.woken with ⟨state, -⟩ | ⟨state, -⟩
  · exact ⟨ls, entry, .inr (.inr state)⟩
  · exact ⟨ls, entry, .inr (.inl state)⟩

theorem Inv.looping (inv : s.Inv)
    (looping : s.pc (c, a) = .calling (.reply .retry) ∨ s.pc (c, a) = .waiting true) :
    ∃ ls, s.clients c = some ls ∧ ls.state = .acquiring := by
  rcases looping with position | position
  · obtain ⟨ls, entry, -, phase⟩ :=
      inv.queue_head (c := c) (a := a) (by simp [position]) (by simp [position])
    rw [position] at phase
    exact ⟨ls, entry, phase.answeredRetry.1⟩
  · obtain ⟨ls, entry, -, phase⟩ :=
      inv.queue_head (c := c) (a := a) (by simp [position]) (by simp [position])
    rw [position] at phase
    exact ⟨ls, entry, phase.awake.1⟩

/-- A revoke under way finds the lock state it was granted for. -/
theorem Inv.revoke_arrives (inv : s.Inv) (named : (s.pc x).target = some d) :
    ∃ ls, s.clients d = some ls := by
  have carried := target_asks named
  have asked : s.standing d = .asked := by
    simp [standing, ServerLock.standing, inv.targetOwner x d named, inv.asksOwner x carried,
      show s.Asks from ⟨x, carried⟩]
  have phase := inv.phase d
  rw [asked] at phase
  exact ⟨s.lock d, clients_of_state phase.revoke.1⟩

/-- A retry under way finds the one thread of its client that executes `wait` at
the front of the queue. -/
theorem Inv.retry_arrives (inv : s.Inv) (named : (s.pc x).calls = some d) :
    ∃ ls front, s.clients d = some ls ∧ ls.threads.head? = some front ∧
      (s.pc (d, front)).inWait = true ∧ ∀ a, (s.pc (d, a)).inWait = true → a = front := by
  have phase := inv.phase d
  rw [inv.called named] at phase
  cases threads : (s.lock d).threads with
  | nil =>
    have empty : s.front d = .none := by simp only [front, threads]
    rw [empty] at phase
    rcases phase.awaits with impossible | impossible <;> cases impossible
  | cons front rest =>
    have awaits := phase.awaits
    rw [front_cons threads] at awaits
    refine ⟨s.lock d, front, clients_of_head threads, by simp [threads],
      Pc.inWait_of_front awaits, ?_⟩
    intro a waits
    obtain ⟨later, head⟩ := inv.head (c := d) (a := a)
      (by intro idle; simp [idle, Pc.inWait] at waits)
      (by intro queued; simp [queued, Pc.inWait] at waits)
    rw [threads] at head
    exact (List.cons.inj head).1.symm

end Client

end LockSys

namespace System

variable {Lid Cid Tid : Type} [DecidableEq Lid] [LinearOrder Cid] [DecidableEq Tid]
  {s t u : System Lid Cid Tid} {lid : Lid} {x : Cid × Tid} {o : Cid}

/-- A step after which thread `x` still stands between the unlock of the `LOCKED`
case and its read of `ls->owner`. -/
def StepReading (lid : Lid) (x : Cid × Tid) (s t : System Lid Cid Tid) : Prop :=
  s.Step t ∧ t.threads x lid = .calling .readOwner

theorem owner_step (reached : s.Reachable) (reading : s.threads x lid = .calling .readOwner)
    (owned : (s.view lid).serverLock.owner = some o) (step : s.Step t) :
    (t.view lid).serverLock.owner = some o := by
  obtain ⟨moved, lock, advance, same⟩ := step
  subst same
  rw [view_set]
  split
  · rename_i this
    subst this
    exact (reached.view lid).inv.owner_step reading owned advance
  · exact owned

theorem owner_run (reached : s.Reachable) (reading : s.threads x lid = .calling .readOwner)
    (owned : (s.view lid).serverLock.owner = some o)
    (later : Relation.ReflTransGen (StepReading lid x) s u) :
    (u.view lid).serverLock.owner = some o := by
  have kept : u.Reachable ∧ u.threads x lid = .calling .readOwner ∧
      (u.view lid).serverLock.owner = some o := by
    induction later with
    | refl => exact ⟨reached, reading, owned⟩
    | tail _ step ih =>
      obtain ⟨reached, reading, owned⟩ := ih
      exact ⟨reached.tail step.1, step.2, owner_step reached reading owned step.1⟩
  exact kept.2.2

/-- The `LOCKED` case up to its unlock: the owner stays and the caller reads it next. -/
theorem locked_section {lock : LockSys Cid Tid} {ls : ServerLock Cid} (reached : s.Reachable)
    (entry : s.server lid = some ls) (locked : ls.state = .locked)
    (asking : s.threads x lid = .calling .request)
    (ran : (s.view lid).run x = some (.ok lock)) :
    (s.set lid lock).Reachable ∧ (s.set lid lock).threads x lid = .calling .readOwner ∧
      ((s.set lid lock).view lid).serverLock.owner = ls.owner := by
  refine ⟨reached.tail ⟨lid, lock, ⟨.run x, ran⟩, rfl⟩, ?_⟩
  simp only [LockSys.run, view, asking, LockSys.stepAcquire, LockServerCache.acquire, entry,
    Option.getD_some, locked, Option.some.injEq] at ran
  cases ran
  simp [set, view, LockSys.setPc, LockSys.setServer, LockSys.serverLock]

omit [DecidableEq Lid] [LinearOrder Cid] [DecidableEq Tid] in
theorem readOwner_ok (owned : (s.view lid).serverLock.owner = some o) :
    LockServerCache.readOwner (s.server lid) = .ok (.revoke o .retry .request) := by
  cases entry : s.server lid with
  | none => simp [LockSys.serverLock, view, entry, ServerLock.fresh] at owned
  | some ls =>
    have owner : ls.owner = some o := by simpa [LockSys.serverLock, view, entry] using owned
    simp [LockServerCache.readOwner, owner]

/-- The server's entry for a lock id has the form its state promises. A release
request finds the entry contended and names its owner, so there is a waiting client
to take, and the assertion in `acquire` holds. The owner that is read with the mutex
dropped is the one the lock was granted to. -/
theorem server_assertions (reached : s.Reachable) (lid : Lid) :
    (∀ ls, s.server lid = some ls → ls.Consistent) ∧
    (∀ x c, (s.threads x lid).releases x.1 = some c → ∃ ls, s.server lid = some ls ∧
      ls.state = .revoking ∧ ls.owner = some c ∧
      ∃ next, LockServerCache.release (some ls) = .ok next) ∧
    (∀ x, s.threads x lid = .calling .request →
      ∃ next, LockServerCache.acquire (s.server lid) x.1 = .ok next) ∧
    (∀ x ls lock u, s.server lid = some ls → ls.state = .locked →
      s.threads x lid = .calling .request → (s.view lid).run x = some (.ok lock) →
      Relation.ReflTransGen (StepReading lid x) (s.set lid lock) u →
      ∃ owner, ls.owner = some owner ∧
        LockServerCache.readOwner (u.server lid) = .ok (.revoke owner .retry .request)) := by
  have inv := (reached.view lid).inv
  have consistent : ∀ ls, s.server lid = some ls → ls.Consistent := by
    intro ls entry
    have same : (s.view lid).serverLock = ls := by simp [LockSys.serverLock, view, entry]
    exact same ▸ inv.shape.consistent
  refine ⟨consistent, ?_, ?_, ?_⟩
  · intro x c sent
    exact inv.release_handled (x := x) sent
  · intro x _
    exact inv.acquire_handled x.1
  · intro x ls lock u entry locked asking ran later
    obtain ⟨owner, owned⟩ := Option.ne_none_iff_exists'.mp ((consistent ls entry).locked locked).1
    obtain ⟨reached', reading, same⟩ := locked_section reached entry locked asking ran
    exact ⟨owner, owned, readOwner_ok (owner_run reached' reading (same.trans owned) later)⟩

/-- The first client has taken the lock and the second one's request is under way. -/
private def crowd : List (LockSys.Action Nat Nat) :=
  [.acquire (0, 0), .run (0, 0), .run (0, 0), .acquire (1, 0)]

theorem server_assertions_crowded : ∃ s : System Unit Nat Nat,
    initial.exec () crowd = some s ∧ ∃ ls lock, s.server () = some ls ∧ ls.state = .locked ∧
      (s.view ()).run (1, 0) = some (.ok lock) ∧
      LockServerCache.readOwner ((s.set () lock).server ()) = .ok (.revoke 0 .retry .request) := by
  obtain ⟨s, ls, lock, taken, entry, locked, owned, asking, ran⟩ :
      ∃ (s : System Unit Nat Nat) (ls : ServerLock Nat) (lock : LockSys Nat Nat),
        initial.exec () crowd = some s ∧ s.server () = some ls ∧ ls.state = .locked ∧
        ls.owner = some 0 ∧ s.threads (1, 0) () = .calling .request ∧
        (s.view ()).run (1, 0) = some (.ok lock) := ⟨_, _, _, rfl, rfl, rfl, rfl, rfl, rfl⟩
  obtain ⟨owner, granted, read⟩ := (server_assertions (Reachable.exec .refl taken) ()).2.2.2
    (1, 0) ls lock _ entry locked asking ran .refl
  rw [owned] at granted
  cases granted
  exact ⟨s, taken, ls, lock, entry, locked, ran, read⟩

/-- Every branch a client thread or a callback cannot afford is out of reach: a
thread resumed behind others finds the lock in a state it handles, the loop of `wait`
goes on, `release` pops its own condition, and the callbacks find the lock state they
are for. A retry finds the thread that executes `wait` at the front of the queue. -/
theorem client_assertions (reached : s.Reachable) (lid : Lid) :
    (∀ c a, s.threads (c, a) lid = .queued true → ∃ ls, s.clients c lid = some ls ∧
      (ls.state = .free ∨ ls.state = .locked ∨ ls.state = .none)) ∧
    (∀ c a, s.threads (c, a) lid = .calling (.reply .retry) ∨ s.threads (c, a) lid = .waiting true →
      ∃ ls, s.clients c lid = some ls ∧ ls.state = .acquiring) ∧
    (∀ c a, s.threads (c, a) lid = .holding ∨ s.threads (c, a) lid = .releasing .reply →
      ∃ ls, s.clients c lid = some ls ∧ ls.threads.head? = some a) ∧
    (∀ x d, (s.threads x lid).target = some d → ∃ ls, s.clients d lid = some ls) ∧
    (∀ x d, (s.threads x lid).calls = some d → ∃ ls front, s.clients d lid = some ls ∧
      ls.threads.head? = some front ∧ (s.threads (d, front) lid).inWait = true ∧
      ∀ a, (s.threads (d, a) lid).inWait = true → a = front) ∧
    (∀ action fault, (s.view lid).step action ≠ some (.error fault)) := by
  have inv := (reached.view lid).inv
  refine ⟨?_, ?_, ?_, ?_, ?_, ?_⟩
  · intro c a queued
    exact inv.resumed (a := a) queued
  · intro c a looping
    exact inv.looping (a := a) looping
  · intro c a leaving
    obtain ⟨ls, entry, head, -⟩ := inv.queue_head (c := c) (a := a)
      (by intro idle; simp_all [view]) (by intro queued; simp_all [view])
    exact ⟨ls, entry, head⟩
  · intro x d named
    exact inv.revoke_arrives (x := x) named
  · intro x d named
    exact inv.retry_arrives (x := x) named
  · intro action fault failed
    rcases inv.step action with blocked | ⟨t, advanced, -⟩
    · simp [blocked] at failed
    · simp [advanced] at failed

/-- The second client sleeps in `wait`, and the first one's release is calling it back. -/
private def callback : List (LockSys.Action Nat Nat) :=
  crowd ++ [.run (1, 0), .run (1, 0), .run (1, 0), .run (1, 0), .release (0, 0), .run (0, 0)]

theorem client_assertions_called : ∃ s : System Unit Nat Nat,
    initial.exec () callback = some s ∧ s.threads (0, 0) () = .releasing (.retry 1) ∧
      ∃ ls front, s.clients 1 () = some ls ∧ ls.threads.head? = some front ∧
        (s.threads (1, front) ()).inWait = true := by
  obtain ⟨s, taken, calling⟩ : ∃ s : System Unit Nat Nat,
      initial.exec () callback = some s ∧ s.threads (0, 0) () = .releasing (.retry 1) := ⟨_, rfl, rfl⟩
  obtain ⟨-, -, -, -, retry, -⟩ := client_assertions (Reachable.exec .refl taken) ()
  obtain ⟨ls, front, entry, head, waits, -⟩ := retry (0, 0) 1 (by rw [calling]; rfl)
  exact ⟨s, taken, calling, ls, front, entry, head, waits⟩

end System

end Yfs.Lock
