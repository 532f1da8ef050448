import Yfs.Lock.Assertions

/-! The threads of one `lock_client_cache` at one lock id, with a server that answers as
it likes. `pthread_cond_wait` may return without a signal, as POSIX permits. -/

namespace Yfs.Lock

/-- The lock state of a client, the position of each of its threads, and the number of
`revoke_handler`s inside their release call. -/
structure Handoff (Cid : Type) (Tid : Type) where
  lock : Option (ClientLock Tid)
  pc : Tid → Pc Cid
  revokes : Nat

namespace Handoff

variable {Cid : Type} {Tid : Type}

def initial : Handoff Cid Tid := { lock := none, pc := fun _ => .idle, revokes := 0 }

/-- A call of a thread, the end of a `pthread_cond_wait`, an answer of the server, or a
callback and the answer to the release call in it. -/
inductive Event (Tid : Type) where
  | acquire (x : Tid)
  | release (x : Tid)
  | wake (x : Tid)
  | reply (x : Tid) (answer : Reply)
  | released (x : Tid)
  | revoke
  | revoked
  | retry
  deriving DecidableEq, Repr

/-- The `threads` of the lock state. -/
def threads (s : Handoff Cid Tid) : List Tid := s.lock.elim [] (·.threads)

variable [DecidableEq Tid]

def setPc (s : Handoff Cid Tid) (x : Tid) (pc : Pc Cid) : Handoff Cid Tid :=
  { s with pc := Function.update s.pc x pc }

def signal (s : Handoff Cid Tid) : Option Tid → Handoff Cid Tid
  | none => s
  | some x => s.setPc x (s.pc x).signal

/-- The client after a section that leaves the lock state `ls`, the thread `x` at `pc` and
a condition to signal. -/
def settle (s : Handoff Cid Tid) (ls : ClientLock Tid) (x : Tid) (pc : Pc Cid) (front : Option Tid) :
    Handoff Cid Tid :=
  (({ s with lock := some ls } : Handoff Cid Tid).setPc x pc).signal front

omit [DecidableEq Tid] in
def deref (s : Handoff Cid Tid) : Except Fault (ClientLock Tid) :=
  match s.lock with
  | none => .error .nullLockState
  | some ls => .ok ls

/-- A blocked thread goes on, whether its condition has been signalled or not. -/
def wake (s : Handoff Cid Tid) (x : Tid) : Option (Except Fault (Handoff Cid Tid)) :=
  match s.pc x with
  | .parked _ => some do
    let (ls, pc) := LockClientCache.wait (← s.deref)
    return s.settle ls x pc none
  | .queued _ => some do
    let (ls, pc) ← LockClientCache.acquireQueued (← s.deref)
    return s.settle ls x pc none
  | .waiting _ => some do
    let (ls, pc) ← LockClientCache.waitLoop (← s.deref)
    return s.settle ls x pc none
  | _ => none

/-- One event; `none` where it cannot happen. -/
def step (s : Handoff Cid Tid) : Event Tid → Option (Except Fault (Handoff Cid Tid))
  | .acquire x =>
    match s.pc x with
    | .idle =>
      let (ls, pc) := LockClientCache.acquire s.lock x
      some (.ok (s.settle ls x pc none))
    | _ => none
  | .release x =>
    match s.pc x with
    | .holding => some do
      let (ls, pc, front) ← LockClientCache.release s.lock
      return s.settle ls x pc front
    | _ => none
  | .wake x => s.wake x
  | .reply x answer =>
    match s.pc x with
    | .calling _ => some do
      let (ls, pc) ← LockClientCache.waitReply (← s.deref) answer
      return s.settle ls x pc none
    | _ => none
  | .released x =>
    match s.pc x with
    | .releasing _ => some do
      let (ls, pc, front) ← LockClientCache.releaseReturn (← s.deref)
      return s.settle ls x pc front
    | _ => none
  | .revoke => some do
    let (ls, call) ← (LockClientCache.revokeHandler s.lock : Except Fault (_ × Option (RevokeCall Cid)))
    return { s with lock := some ls, revokes := if call.isSome then s.revokes + 1 else s.revokes }
  | .revoked =>
    match s.revokes with
    | 0 => none
    | n + 1 => some do
      let (ls, front) := LockClientCache.revokeReturn (← s.deref)
      return ({ s with lock := some ls, revokes := n } : Handoff Cid Tid).signal front
  | .retry => some do
    let (ls, front) ← LockClientCache.retryHandler s.lock
    return ({ s with lock := some ls } : Handoff Cid Tid).signal (some front)

/-- The thread that an event belongs to. -/
def Event.thread : Event Tid → Option Tid
  | .acquire x | .release x | .wake x | .reply x _ | .released x => some x
  | .revoke | .revoked | .retry => none

/-- The thread that an event appends to `ls->threads`. -/
def Event.appends : Event Tid → List Tid
  | .acquire x => [x]
  | _ => []

/-- The thread that returns from `acquire` with an event that leads to `t`. -/
def obtains (t : Handoff Cid Tid) (event : Event Tid) : List Tid :=
  match event.thread with
  | some x =>
    match t.pc x with
    | .holding => [x]
    | _ => []
  | none => []

/-- The runs of a client whose events are all `allowed`, with the threads that have been
appended to `ls->threads` and those that have obtained the lock, in order. -/
inductive Run (allowed : Handoff Cid Tid → Event Tid → Prop) :
    List Tid → List Tid → Handoff Cid Tid → Prop where
  | start : Run allowed [] [] initial
  | step (before : Run allowed appended obtained s) (permitted : allowed s event)
      (taken : s.step event = some (.ok t)) :
      Run allowed (appended ++ event.appends) (obtained ++ t.obtains event) t

/-- What an event can do to the queue and to the positions of the threads. -/
inductive Move (s t : Handoff Cid Tid) : Event Tid → Prop where
  | enter (idle : s.pc x = .idle) (pushed : t.threads = s.threads ++ [x])
      (moved : t.pc = Function.update s.pc x next) (behind : s.threads ≠ [] → next = .queued false)
      (first : next ≠ .idle ∧ ∀ call, next ≠ .releasing call) : Move s t (.acquire x)
  | advance (thread : event.thread = some x) (quiet : event.appends = [])
      (inside : s.pc x ≠ .idle ∧ s.pc x ≠ .holding ∧ ∀ call, s.pc x ≠ .releasing call)
      (signalled : s.pc x = .queued false → event = .wake x)
      (threads : t.threads = s.threads) (moved : t.pc = Function.update s.pc x next)
      (first : next ≠ .idle ∧ ∀ call, next ≠ .releasing call) : Move s t event
  | giveBack (holding : s.pc x = .holding) (threads : t.threads = s.threads)
      (moved : t.pc = Function.update s.pc x (.releasing call)) : Move s t (.release x)
  | leave (thread : event.thread = some x) (quiet : event.appends = [])
      (owns : s.pc x = .holding ∨ ∃ call, s.pc x = .releasing call)
      (popped : s.threads = front :: t.threads)
      (moved : t.pc = (({ s with pc := Function.update s.pc x .idle } : Handoff Cid Tid).signal
        t.threads.head?).pc) : Move s t event
  | notify (thread : event.thread = none) (quiet : event.appends = []) (threads : t.threads = s.threads)
      (moved : t.pc = s.pc ∨ t.pc = (s.signal s.threads.head?).pc) : Move s t event

section Moves

variable {s t : Handoff Cid Tid} {event : Event Tid} {x : Tid}

omit [DecidableEq Tid] in
theorem releaseEnd_cases {ls ls' : ClientLock Tid} {pc : Pc Cid} {front : Option Tid} {revoking : Bool}
    (ran : LockClientCache.releaseEnd ls revoking = .ok (ls', pc, front)) :
    (∃ first, ls.threads = first :: ls'.threads) ∧ pc = .idle ∧ front = ls'.threads.head? := by
  unfold LockClientCache.releaseEnd at ran
  split at ran
  · cases ran
  · rename_i first only
    cases ran
    exact ⟨⟨first, only⟩, rfl, rfl⟩
  · rename_i first next rest several
    cases ran
    exact ⟨⟨first, several⟩, rfl, rfl⟩

omit [DecidableEq Tid] in
theorem deref_ok {ls : ClientLock Tid} (found : s.deref = .ok ls) : s.lock = some ls := by
  unfold deref at found
  split at found
  · cases found
  · cases found
    assumption

omit [DecidableEq Tid] in
theorem threads_of_lock {ls : ClientLock Tid} (found : s.lock = some ls) : s.threads = ls.threads := by
  simp [threads, found]

omit [DecidableEq Tid] in
theorem waitLoop_cases {ls ls' : ClientLock Tid} {pc : Pc Cid}
    (ran : LockClientCache.waitLoop ls = .ok (ls', pc)) :
    ls'.threads = ls.threads ∧ pc = .calling .request := by
  unfold LockClientCache.waitLoop at ran
  split at ran
  · cases ran
    exact ⟨rfl, rfl⟩
  · cases ran

omit [DecidableEq Tid] in
theorem waitReply_cases {ls ls' : ClientLock Tid} {pc : Pc Cid} {answer : Reply}
    (ran : LockClientCache.waitReply ls answer = .ok (ls', pc)) :
    ls'.threads = ls.threads ∧ (pc = .calling .request ∨ pc = .waiting false ∨ pc = .holding) := by
  cases answer with
  | ok =>
    cases ran
    exact ⟨rfl, .inr (.inr rfl)⟩
  | retry =>
    simp only [LockClientCache.waitReply] at ran
    split at ran
    · cases ran
      exact ⟨rfl, .inr (.inl rfl)⟩
    · obtain ⟨threads, rfl⟩ := waitLoop_cases ran
      exact ⟨threads, .inl rfl⟩

omit [DecidableEq Tid] in
theorem acquireQueued_cases {ls ls' : ClientLock Tid} {pc : Pc Cid}
    (ran : LockClientCache.acquireQueued ls = .ok (ls', pc)) :
    ls'.threads = ls.threads ∧ (pc = .calling .request ∨ pc = .holding) := by
  unfold LockClientCache.acquireQueued at ran
  split at ran
  · cases ran
    exact ⟨rfl, .inr rfl⟩
  · cases ran
    exact ⟨rfl, .inr rfl⟩
  · cases ran
    exact ⟨rfl, .inl rfl⟩
  · cases ran

@[simp] theorem settle_pc {ls : ClientLock Tid} {pc : Pc Cid} :
    (s.settle ls x pc none).pc = Function.update s.pc x pc := rfl

@[simp] theorem signal_threads {front : Option Tid} : (s.signal front).threads = s.threads := by
  cases front <;> rfl

@[simp] theorem settle_threads {ls : ClientLock Tid} {pc : Pc Cid} {front : Option Tid} :
    (s.settle ls x pc front).threads = ls.threads := signal_threads

omit [DecidableEq Tid] in
theorem acquire_cases (lock : Option (ClientLock Tid)) (x : Tid) {ls : ClientLock Tid} {pc : Pc Cid}
    (ran : LockClientCache.acquire lock x = (ls, pc)) :
    ls.threads = lock.elim [] (·.threads) ++ [x] ∧ (lock.elim [] (·.threads) ≠ [] → pc = .queued false) ∧
      pc ≠ .idle ∧ ∀ call, pc ≠ .releasing call := by
  have entry : (lock.getD .fresh).threads = lock.elim [] (·.threads) := by cases lock <;> rfl
  unfold LockClientCache.acquire LockClientCache.wait at ran
  simp only [entry] at ran
  split at ran
  · rename_i alone
    split at ran <;> cases ran <;> simp [alone]
  · cases ran
    simp

/-- A thread inside of `acquire` goes on and leaves the queue as it is. -/
theorem advance_of_settle {ls ls' : ClientLock Tid} {next : Pc Cid} (thread : event.thread = some x)
    (quiet : event.appends = [])
    (inside : s.pc x ≠ .idle ∧ s.pc x ≠ .holding ∧ ∀ call, s.pc x ≠ .releasing call)
    (signalled : s.pc x = .queued false → event = .wake x) (found : s.deref = .ok ls)
    (same : ls'.threads = ls.threads) (first : next ≠ .idle ∧ ∀ call, next ≠ .releasing call) :
    Move s (s.settle ls' x next none) event := by
  refine .advance thread quiet inside signalled ?_ settle_pc first
  rw [settle_threads, threads_of_lock (deref_ok found), same]

theorem wake_cases (taken : s.wake x = some (.ok t)) : Move s t (.wake x) := by
  unfold wake at taken
  split at taken
  · rename_i flag blocked
    obtain ⟨ls, found, ran⟩ := of_bind_ok (Option.some.inj taken)
    cases ran
    exact advance_of_settle rfl rfl (by simp [blocked]) (fun _ => rfl) found rfl (by simp)
  · rename_i flag blocked
    obtain ⟨ls, found, ran⟩ := of_bind_ok (Option.some.inj taken)
    obtain ⟨⟨ls', pc⟩, went, same⟩ := of_bind_ok ran
    obtain ⟨threads, next⟩ := acquireQueued_cases went
    cases same
    refine advance_of_settle rfl rfl (by simp [blocked]) (fun _ => rfl) found threads ?_
    rcases next with rfl | rfl <;> simp
  · rename_i flag blocked
    obtain ⟨ls, found, ran⟩ := of_bind_ok (Option.some.inj taken)
    obtain ⟨⟨ls', pc⟩, went, same⟩ := of_bind_ok ran
    obtain ⟨threads, rfl⟩ := waitLoop_cases went
    cases same
    exact advance_of_settle rfl rfl (by simp [blocked]) (fun _ => rfl) found threads (by simp)
  · cases taken

theorem leave_of_releaseEnd {ls ls' : ClientLock Tid} {pc : Pc Cid} {front : Option Tid} {revoking : Bool}
    (thread : event.thread = some x) (quiet : event.appends = [])
    (owns : s.pc x = .holding ∨ ∃ call, s.pc x = .releasing call) (threads : s.threads = ls.threads)
    (ran : LockClientCache.releaseEnd ls revoking = .ok (ls', pc, front)) :
    Move s (s.settle ls' x pc front) event := by
  obtain ⟨⟨first, popped⟩, rfl, rfl⟩ := releaseEnd_cases ran
  have left : s.threads = first :: (s.settle ls' x .idle ls'.threads.head?).threads := by
    rw [threads, popped, settle_threads]
  refine .leave thread quiet owns left ?_
  rw [settle_threads]
  cases ls'.threads.head? <;> rfl

theorem release_cases (taken : s.step (.release x) = some (.ok t)) : Move s t (.release x) := by
  simp only [step] at taken
  split at taken
  · rename_i holding
    obtain ⟨⟨ls, pc, front⟩, ran, same⟩ := of_bind_ok (Option.some.inj taken)
    cases same
    unfold LockClientCache.release at ran
    split at ran
    · cases ran
    · rename_i old found
      split at ran
      · cases ran
        refine .giveBack holding ?_ settle_pc
        rw [settle_threads, threads_of_lock found]
      · refine leave_of_releaseEnd rfl rfl (.inl holding) ?_ ran
        rw [threads_of_lock found]
  · cases taken

theorem revoke_cases (taken : s.step .revoke = some (.ok t)) : Move s t .revoke := by
  obtain ⟨⟨ls, call⟩, ran, same⟩ := of_bind_ok (Option.some.inj taken)
  cases same
  unfold LockClientCache.revokeHandler at ran
  split at ran
  · cases ran
  · rename_i old found
    have threads : ls.threads = old.threads := by
      split at ran <;> cases ran <;> rfl
    exact .notify rfl rfl (threads.trans (threads_of_lock found).symm) (.inl rfl)

theorem retry_cases (taken : s.step .retry = some (.ok t)) : Move s t .retry := by
  obtain ⟨⟨ls, front⟩, ran, same⟩ := of_bind_ok (Option.some.inj taken)
  cases same
  unfold LockClientCache.retryHandler at ran
  split at ran
  · cases ran
  · rename_i old found
    split at ran
    · cases ran
    · rename_i first rest threads
      cases ran
      have queue := threads_of_lock found
      refine .notify rfl rfl (signal_threads.trans queue.symm) (.inr ?_)
      simp [queue, threads, signal, setPc]

theorem step_cases (taken : s.step event = some (.ok t)) : Move s t event := by
  cases event with
  | acquire x =>
    simp only [step] at taken
    split at taken
    · rename_i idle
      rcases ran : (LockClientCache.acquire s.lock x : ClientLock Tid × Pc Cid) with ⟨ls, pc⟩
      rw [ran] at taken
      cases taken
      obtain ⟨pushed, behind, first⟩ := acquire_cases s.lock x ran
      exact .enter idle (settle_threads.trans pushed) settle_pc behind first
    · cases taken
  | release x => exact release_cases taken
  | wake x => exact wake_cases taken
  | reply x answer =>
    simp only [step] at taken
    split at taken
    · rename_i call calling
      obtain ⟨ls, found, ran⟩ := of_bind_ok (Option.some.inj taken)
      obtain ⟨⟨ls', pc⟩, went, same⟩ := of_bind_ok ran
      obtain ⟨threads, next⟩ := waitReply_cases went
      cases same
      refine advance_of_settle rfl rfl (by simp [calling]) (by simp [calling]) found threads ?_
      rcases next with rfl | rfl | rfl <;> simp
    · cases taken
  | released x =>
    simp only [step] at taken
    split at taken
    · rename_i call releasing
      obtain ⟨ls, found, ran⟩ := of_bind_ok (Option.some.inj taken)
      obtain ⟨⟨ls', pc, front⟩, went, same⟩ := of_bind_ok ran
      cases same
      refine leave_of_releaseEnd rfl rfl (.inr ⟨call, releasing⟩) ?_ went
      rw [threads_of_lock (deref_ok found)]
    · cases taken
  | revoke => exact revoke_cases taken
  | revoked =>
    simp only [step] at taken
    split at taken
    · cases taken
    · obtain ⟨ls, found, ran⟩ := of_bind_ok (Option.some.inj taken)
      cases ran
      have threads := threads_of_lock (deref_ok found)
      refine .notify rfl rfl (signal_threads.trans threads.symm) (.inr ?_)
      rw [threads]
      cases front : ls.threads.head? <;> simp [LockClientCache.revokeReturn, front, signal, setPc]
  | retry => exact retry_cases taken

end Moves

/-- No thread that is queued behind others wakes before its condition is signalled. -/
def Signalled (s : Handoff Cid Tid) (event : Event Tid) : Prop :=
  ∀ x, event = .wake x → s.pc x ≠ .queued false

/-- Who holds the lock is the first in the queue and the only one, and the threads obtain
it in the order of the queue. -/
structure Fifo (appended obtained : List Tid) (s : Handoff Cid Tid) : Prop where
  front : ∀ x, s.pc x = .holding → s.threads.head? = some x
  alone : ∀ x y, s.pc x = .holding → s.pc y = .holding → x = y
  order : obtained <+: appended

/-- The thread itself if it has obtained the lock and has not left `release`. -/
def owning (x : Tid) : Pc Cid → List Tid
  | .holding | .releasing _ => [x]
  | _ => []

def holder (s : Handoff Cid Tid) : List Tid :=
  match s.threads with
  | [] => []
  | x :: _ => owning x (s.pc x)

structure Inv (appended obtained : List Tid) (s : Handoff Cid Tid) : Prop where
  queue : Queue s.threads s.pc
  present : ∀ x, s.threads.head? = some x → s.pc x ≠ .idle
  log : ∃ finished, appended = finished ++ s.threads ∧ obtained = finished ++ s.holder

section Inv

variable {s t : Handoff Cid Tid} {event : Event Tid} {appended obtained : List Tid} {x : Tid}

section Log

omit [DecidableEq Tid]

theorem owning_prefix {rest : List Tid} (pc : Pc Cid) : owning x pc <+: x :: rest := by
  cases pc <;> simp [owning]

theorem owning_signal (pc : Pc Cid) : owning x pc.signal = owning x pc := by cases pc <;> rfl

theorem Inv.start : Inv [] [] (initial : Handoff Cid Tid) where
  queue := ⟨by simp [threads, initial], fun _ _ => rfl, by simp [threads, initial]⟩
  present := by simp [threads, initial]
  log := ⟨[], rfl, rfl⟩

theorem Inv.fifo (inv : Inv appended obtained s) : Fifo appended obtained s := by
  have front (x : Tid) (holding : s.pc x = .holding) : ∃ rest, s.threads = x :: rest :=
    inv.queue.head (by simp [holding]) (by simp [holding])
  refine ⟨?_, ?_, ?_⟩
  · intro x holding
    obtain ⟨rest, threads⟩ := front x holding
    simp [threads]
  · intro x y holding holding'
    obtain ⟨rest, threads⟩ := front x holding
    obtain ⟨rest', threads'⟩ := front y holding'
    exact (List.cons.inj (threads.symm.trans threads')).1
  · obtain ⟨finished, rfl, rfl⟩ := inv.log
    refine (List.prefix_append_right_inj finished).mpr ?_
    unfold holder
    split
    · exact List.nil_prefix
    · rename_i x rest threads
      rw [threads]
      exact owning_prefix (s.pc x)

theorem holder_cons {rest : List Tid} (threads : s.threads = x :: rest) : s.holder = owning x (s.pc x) := by
  simp [holder, threads]

theorem obtains_eq_owning {next : Pc Cid} (thread : event.thread = some x) (moved : t.pc x = next)
    (first : ∀ call, next ≠ .releasing call) : t.obtains event = owning x next := by
  simp only [obtains, thread, moved]
  cases next with
  | releasing call => exact absurd rfl (first call)
  | _ => rfl

theorem obtains_eq_nil (thread : event.thread = some x) (other : t.pc x ≠ .holding) :
    t.obtains event = [] := by
  cases position : t.pc x with
  | holding => exact absurd position other
  | _ => simp [obtains, thread, position]

end Log

/-- The front thread takes a step that leaves it in the queue. -/
theorem Inv.front {rest : List Tid} {next : Pc Cid} (inv : Inv appended obtained s)
    (head : s.threads = x :: rest) (threads : t.threads = s.threads)
    (moved : t.pc = Function.update s.pc x next) (inside : next ≠ .idle) (quiet : event.appends = [])
    (gains : owning x (s.pc x) ++ t.obtains event = owning x next) :
    Inv (appended ++ event.appends) (obtained ++ t.obtains event) t := by
  obtain ⟨finished, log, done⟩ := inv.log
  refine ⟨?_, ?_, finished, ?_, ?_⟩
  · rw [threads, moved, head]
    exact (head ▸ inv.queue).setHead next
  · intro y first
    rw [threads, head] at first
    cases first
    rw [moved, Function.update_self]
    exact inside
  · rw [quiet, List.append_nil, threads, log]
  · rw [done, holder_cons head, holder_cons (threads.trans head), moved, Function.update_self, ← gains,
      List.append_assoc]

/-- The front thread leaves the queue, and the next one is signalled. -/
theorem Inv.leave (inv : Inv appended obtained s) (head : s.threads = x :: t.threads)
    (thread : event.thread = some x) (quiet : event.appends = []) (owns : owning x (s.pc x) = [x])
    (moved : t.pc = (({ s with pc := Function.update s.pc x .idle } : Handoff Cid Tid).signal
      t.threads.head?).pc) :
    Inv (appended ++ event.appends) (obtained ++ t.obtains event) t := by
  obtain ⟨finished, log, done⟩ := inv.log
  have queue : Queue (x :: t.threads) s.pc := head ▸ inv.queue
  have popped := queue.pop
  have absent := (List.nodup_cons.mp queue.nodup).1
  rw [done, holder_cons head, owns, log, head, quiet]
  cases left : t.threads with
  | nil =>
    have pc : t.pc = Function.update s.pc x .idle := by rw [moved, left]; rfl
    have silent : t.obtains event = [] := obtains_eq_nil thread (by simp [pc])
    refine ⟨?_, by simp [left], finished ++ [x], ?_, ?_⟩
    · rw [left, pc]
      exact left ▸ popped
    · simp [left]
    · simp [silent, holder, left]
  | cons y rest =>
    have different : x ≠ y := by
      rintro rfl
      exact absent (by simp [left])
    have next : s.pc y = .queued false := queue.behind y (by simp [left])
    have pc : t.pc = Function.update (Function.update s.pc x .idle) y (.queued true) := by
      rw [moved, left]
      simp [signal, setPc, different.symm, next, Pc.signal]
    have silent : t.obtains event = [] := obtains_eq_nil thread (by simp [pc, different])
    refine ⟨?_, ?_, finished ++ [x], ?_, ?_⟩
    · rw [left, pc]
      exact (left ▸ popped).setHead _
    · intro z first
      rw [left] at first
      cases first
      simp [pc]
    · simp [left]
    · rw [silent, holder_cons left, pc]
      simp [owning]

theorem Inv.enter {next : Pc Cid} (inv : Inv appended obtained s) (idle : s.pc x = .idle)
    (pushed : t.threads = s.threads ++ [x]) (moved : t.pc = Function.update s.pc x next)
    (behind : s.threads ≠ [] → next = .queued false)
    (first : next ≠ .idle ∧ ∀ call, next ≠ .releasing call) :
    Inv (appended ++ [x]) (obtained ++ t.obtains (.acquire x)) t := by
  obtain ⟨finished, log, done⟩ := inv.log
  have gains : t.obtains (.acquire x) = owning x next :=
    obtains_eq_owning rfl (by rw [moved, Function.update_self]) first.2
  have fresh : x ∉ s.threads := by
    intro member
    cases threads : s.threads with
    | nil => simp [threads] at member
    | cons y rest =>
      rcases List.mem_cons.mp (threads ▸ member) with rfl | later
      · exact inv.present x (by simp [threads]) idle
      · have waiting := inv.queue.behind x (by simp [threads, later])
        simp [idle] at waiting
  have queue : Queue (s.threads ++ [x]) (Function.update s.pc x next) := inv.queue.push fresh behind
  cases threads : s.threads with
  | nil =>
    rw [threads] at pushed
    refine ⟨?_, ?_, finished, ?_, ?_⟩
    · rw [pushed, moved]
      exact threads ▸ queue
    · intro y front
      rw [pushed] at front
      cases front
      rw [moved, Function.update_self]
      exact first.1
    · rw [log, threads, pushed, List.append_assoc]
    · rw [gains, done, holder_cons pushed, moved, Function.update_self]
      simp [holder, threads]
  | cons y rest =>
    have different : y ≠ x := fun same => fresh (by simp [threads, same])
    have waits : next = .queued false := behind (by simp [threads])
    rw [threads] at pushed
    refine ⟨?_, ?_, finished, ?_, ?_⟩
    · rw [pushed, moved]
      exact threads ▸ queue
    · intro z front
      rw [pushed] at front
      cases front
      rw [moved, Function.update_of_ne different]
      exact inv.present y (by simp [threads])
    · rw [log, threads, pushed, List.append_assoc]
    · rw [gains, waits, done, holder_cons threads, holder_cons pushed, moved,
        Function.update_of_ne different]
      simp [owning]

theorem Inv.move (inv : Inv appended obtained s) (signalled : s.Signalled event) (move : Move s t event) :
    Inv (appended ++ event.appends) (obtained ++ t.obtains event) t := by
  cases move with
  | enter idle pushed moved behind first => exact inv.enter idle pushed moved behind first
  | advance thread quiet inside early threads moved first =>
    rename_i x next
    have awake : s.pc x ≠ .queued false := fun asleep => signalled x (early asleep) asleep
    obtain ⟨rest, head⟩ := inv.queue.head inside.1 awake
    refine inv.front head threads moved first.1 quiet ?_
    rw [obtains_eq_owning thread (by rw [moved, Function.update_self]) first.2]
    cases position : s.pc x with
    | holding => exact absurd position inside.2.1
    | releasing call => exact absurd position (inside.2.2 call)
    | _ => rfl
  | giveBack holding threads moved =>
    rename_i x call
    have active : s.pc x ≠ .idle ∧ s.pc x ≠ .queued false := by simp [holding]
    obtain ⟨rest, head⟩ := inv.queue.head active.1 active.2
    refine inv.front head threads moved (by simp) rfl ?_
    rw [obtains_eq_nil rfl (by simp [moved]), holding]
    rfl
  | leave thread quiet owns popped moved =>
    rename_i x front
    have active : s.pc x ≠ .idle ∧ s.pc x ≠ .queued false ∧ owning x (s.pc x) = [x] := by
      rcases owns with holding | ⟨call, releasing⟩
      · simp [holding, owning]
      · simp [releasing, owning]
    obtain ⟨rest, head⟩ := inv.queue.head active.1 active.2.1
    obtain ⟨rfl, rfl⟩ := List.cons.inj (popped.symm.trans head)
    exact inv.leave head thread quiet active.2.2 moved
  | notify thread quiet threads moved =>
    have silent : t.obtains event = [] := by simp only [obtains, thread]
    have unmoved (pc : t.pc = s.pc) : Inv (appended ++ event.appends) (obtained ++ t.obtains event) t := by
      have holder : t.holder = s.holder := by simp only [Handoff.holder, threads, pc]
      simpa only [quiet, silent, List.append_nil, threads, pc, holder] using
        (⟨threads ▸ pc ▸ inv.queue, threads ▸ pc ▸ inv.present, threads ▸ holder ▸ inv.log⟩ : Inv _ _ t)
    rcases moved with pc | pc
    · exact unmoved pc
    · cases head : s.threads with
      | nil => exact unmoved (by simpa [head, signal] using pc)
      | cons x rest =>
        have moved : t.pc = Function.update s.pc x (s.pc x).signal := by
          simpa [head, signal, setPc] using pc
        have inside := inv.present x (by simp [head])
        refine inv.front head threads moved ?_ quiet (by rw [silent, List.append_nil, owning_signal])
        cases position : s.pc x <;> simp_all [Pc.signal]

/-- The lock goes from thread to thread in the order of the queue as long as no thread
behind others wakes without a signal; the other two waits may end at any time. -/
theorem fifo_of_signalled (run : Run Signalled appended obtained s) : Fifo appended obtained s := by
  have inv : Inv appended obtained s := by
    induction run with
    | start => exact .start
    | step _ signalled taken ih => exact ih.move signalled (step_cases taken)
  exact inv.fifo

end Inv

section Threads

variable {allowed : Handoff Unit Nat → Event Nat → Prop} {s t : Handoff Unit Nat}
  {appended obtained : List Nat}

private theorem Run.next (run : Run allowed appended obtained s) (event : Event Nat)
    (permitted : allowed s event) (taken : s.step event = some (.ok t)) :
    Run allowed (appended ++ event.appends) (obtained ++ t.obtains event) t := run.step permitted taken

/-- Thread 0 passes the lock on to thread 1. -/
theorem fifo_of_signalled_handoff : ∃ s : Handoff Unit Nat,
    Run Signalled [0, 1] [0, 1] s ∧ s.pc 1 = .holding ∧ Fifo [0, 1] [0, 1] s := by
  have begun : Run Signalled [] [] (initial : Handoff Unit Nat) := .start
  have entered := begun.next (.acquire 0) (fun x woken => nomatch woken) rfl
  have granted := entered.next (.reply 0 .ok) (fun x woken => nomatch woken) rfl
  have queued := granted.next (.acquire 1) (fun x woken => nomatch woken) rfl
  have released := queued.next (.release 0) (fun x woken => nomatch woken) rfl
  have run := released.next (.wake 1) (by rintro _ ⟨⟩; exact nofun) rfl
  exact ⟨_, run, rfl, fifo_of_signalled run⟩

/-- Thread 1 wakes without a signal while thread 0 holds the lock. -/
theorem queued_wakes_unsignalled : ∃ s : Handoff Unit Nat,
    Run (fun _ _ => True) [0, 1] [0, 1] s ∧ s.pc 0 = .holding ∧ s.pc 1 = .holding ∧
      ¬ Fifo [0, 1] [0, 1] s := by
  have begun : Run (fun _ _ => True) [] [] (initial : Handoff Unit Nat) := .start
  have entered := begun.next (.acquire 0) trivial rfl
  have granted := entered.next (.reply 0 .ok) trivial rfl
  have queued := granted.next (.acquire 1) trivial rfl
  have run := queued.next (.wake 1) trivial rfl
  refine ⟨_, run, rfl, rfl, ?_⟩
  intro fifo
  exact absurd (fifo.alone 0 1 rfl rfl) (by decide)

end Threads

end Handoff

end Yfs.Lock
