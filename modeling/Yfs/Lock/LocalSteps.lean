import Yfs.Lock.Invariant

/-! The sections a client thread runs on its own lock state: entering `acquire`,
resuming from a wait, taking the server's answer, and leaving the lock. None of
them sends or consumes a callback. -/

namespace Yfs.Lock

namespace Pc

/-- All messages under way on behalf of a thread. -/
def tokens (pc : Pc Cid) : Bool × Option Cid × Option Cid × Option (Cid × Bool) :=
  (pc.asks, pc.target, pc.calls, pc.background)

@[simp] theorem tokens_signal (pc : Pc Cid) : pc.signal.tokens = pc.tokens := by
  cases pc <;> rfl

end Pc

namespace Queue

variable {threads rest : List Tid} {pc : Tid → Pc Cid} {t : Tid}

/-- Only the head of a queue runs or waits for anything but its turn. -/
theorem head (queue : Queue threads pc) (inside : pc t ≠ .idle) (active : pc t ≠ .queued false) :
    ∃ rest, threads = t :: rest := by
  cases threads with
  | nil => exact absurd (queue.idle t (by simp)) inside
  | cons first rest =>
    by_cases same : t = first
    · exact ⟨rest, by rw [same]⟩
    · by_cases later : t ∈ rest
      · exact absurd (queue.behind t later) active
      · exact absurd (queue.idle t (by simp [same, later])) inside

variable [DecidableEq Tid]

theorem push (queue : Queue threads pc) (fresh : t ∉ threads)
    (position : threads ≠ [] → next = .queued false) :
    Queue (threads ++ [t]) (Function.update pc t next) := by
  have nodup : (threads ++ [t]).Nodup :=
    List.nodup_append.mpr ⟨queue.nodup, by simp, by
      intro a present b last same
      rw [List.mem_singleton.mp last] at same
      exact fresh (same ▸ present)⟩
  refine ⟨nodup, ?_, ?_⟩
  · intro other absent
    have different : other ≠ t := by
      intro same
      simp [same] at absent
    rw [Function.update_of_ne different]
    exact queue.idle other (fun present => absent (by simp [present]))
  · intro other member
    cases threads with
    | nil => simp at member
    | cons first rest =>
      by_cases same : other = t
      · rw [same, Function.update_self]
        exact position (by simp)
      · rw [Function.update_of_ne same]
        have later : other ∈ rest := by simpa [same] using member
        exact queue.behind other later

theorem setHead (queue : Queue (t :: rest) pc) (next : Pc Cid) :
    Queue (t :: rest) (Function.update pc t next) := by
  refine ⟨queue.nodup, ?_, ?_⟩
  · intro other absent
    rw [Function.update_of_ne (fun same => absent (by simp [same]))]
    exact queue.idle other absent
  · intro other member
    have different : other ≠ t := fun same => (List.nodup_cons.mp queue.nodup).1 (same ▸ member)
    rw [Function.update_of_ne different]
    exact queue.behind other member

theorem pop (queue : Queue (t :: rest) pc) : Queue rest (Function.update pc t .idle) := by
  refine ⟨(List.nodup_cons.mp queue.nodup).2, ?_, ?_⟩
  · intro other absent
    by_cases same : other = t
    · rw [same, Function.update_self]
    · rw [Function.update_of_ne same]
      exact queue.idle other (by simp [same, absent])
  · intro other member
    have later : other ∈ rest := List.mem_of_mem_tail member
    have different : other ≠ t := fun same => (List.nodup_cons.mp queue.nodup).1 (same ▸ later)
    rw [Function.update_of_ne different]
    exact queue.behind other later

end Queue

namespace LockSys

variable {Cid Tid : Type} {s t : LockSys Cid Tid} {c : Cid} {x : Cid × Tid}

theorem front_cons {rest : List Tid} (head : (s.lock c).threads = a :: rest) :
    s.front c = (s.pc (c, a)).front := by
  simp [front, head]

theorem clients_of_head {rest : List Tid} (head : (s.lock c).threads = a :: rest) :
    s.clients c = some (s.lock c) := by
  cases found : s.clients c with
  | none => simp [lock, found, ClientLock.fresh] at head
  | some ls => simp [lock, found]

theorem deref_of_head {rest : List Tid} (head : (s.lock c).threads = a :: rest) :
    s.deref c = .ok (s.lock c) := by
  simp [deref, clients_of_head head]

theorem front_congr (threads : (t.lock c).threads = (s.lock c).threads)
    (pc : ∀ a, t.pc (c, a) = s.pc (c, a)) : t.front c = s.front c := by
  simp only [front, threads, pc]

section Tokens

variable (same : ∀ y, (t.pc y).tokens = (s.pc y).tokens)
include same

theorem asks_congr (y : Cid × Tid) : (t.pc y).asks = (s.pc y).asks := congrArg (·.1) (same y)

theorem target_congr (y : Cid × Tid) : (t.pc y).target = (s.pc y).target :=
  congrArg (·.2.1) (same y)

theorem calls_congr (y : Cid × Tid) : (t.pc y).calls = (s.pc y).calls :=
  congrArg (·.2.2.1) (same y)

theorem background_token_congr (y : Cid × Tid) : (t.pc y).background = (s.pc y).background :=
  congrArg (·.2.2.2) (same y)

end Tokens

variable [LinearOrder Cid]

/-- A step that leaves the server and every message under way alone only has to
restore the queues and the phases. -/
theorem Inv.keepTokens (inv : s.Inv) (server : t.server = s.server)
    (same : ∀ y, (t.pc y).tokens = (s.pc y).tokens)
    (queue : ∀ c, Queue (t.lock c).threads fun a => t.pc (c, a))
    (phase : ∀ c, Phase (s.standing c) (t.lock c).state (t.lock c).message (t.front c)
      (s.background c)) : t.Inv := by
  have serverLock : t.serverLock = s.serverLock := by simp [LockSys.serverLock, server]
  have asks := asks_congr same
  have target := target_congr same
  have calls := calls_congr same
  have background := background_token_congr same
  refine ⟨?_, queue, ?_, ?_, ?_, ?_, ?_, ?_, ?_⟩
  · rw [serverLock]
    exact inv.shape
  · intro c
    have someAsks : t.Asks ↔ s.Asks := by simp only [Asks, asks]
    have someCalls : t.Calls ↔ s.Calls := by simp only [Calls, calls]
    rw [standing_congr serverLock (fun _ => someAsks) (fun _ => someCalls), background_congr background]
    exact phase c
  · simpa only [asks] using inv.asksOnce
  · simpa only [asks, serverLock] using inv.asksOwner
  · simpa only [target, serverLock] using inv.targetOwner
  · simpa only [calls] using inv.callsOnce
  · simpa only [calls, serverLock] using inv.callsChosen
  · simpa only [background] using inv.backgroundOnce

variable [DecidableEq Tid]

omit [LinearOrder Cid] [DecidableEq Tid] in
@[simp] theorem pc_setServer (sv : ServerLock Cid) : (s.setServer sv).pc = s.pc := rfl

omit [DecidableEq Tid] in
@[simp] theorem pc_setClient (ls : ClientLock Tid) : (s.setClient c ls).pc = s.pc := rfl

@[simp] theorem serverLock_setPc : (s.setPc x p).serverLock = s.serverLock := rfl

omit [DecidableEq Tid] in
@[simp] theorem serverLock_setClient (ls : ClientLock Tid) :
    (s.setClient c ls).serverLock = s.serverLock := rfl

@[simp] theorem serverLock_signal (a : Option Tid) :
    (s.signal c a).serverLock = s.serverLock := by
  cases a <;> rfl

@[simp] theorem lock_setPc : (s.setPc x p).lock = s.lock := rfl

omit [LinearOrder Cid] [DecidableEq Tid] in
@[simp] theorem lock_setServer (sv : ServerLock Cid) : (s.setServer sv).lock = s.lock := rfl

@[simp] theorem lock_signal (a : Option Tid) : (s.signal c a).lock = s.lock := by
  cases a <;> rfl

omit [DecidableEq Tid] in
theorem lock_setClient (ls : ClientLock Tid) :
    (s.setClient c ls).lock = Function.update s.lock c ls := by
  funext d
  by_cases same : d = c
  · subst d
    simp [lock, setClient]
  · simp [lock, setClient, same]

@[simp] theorem server_signal (a : Option Tid) : (s.signal c a).server = s.server := by
  cases a <;> rfl

theorem tokens_setPc (plain : p.tokens = (s.pc x).tokens) (y : Cid × Tid) :
    ((s.setPc x p).pc y).tokens = (s.pc y).tokens := by
  by_cases same : y = x
  · subst y
    simp [setPc, plain]
  · simp [setPc, same]

theorem tokens_signal (a : Option Tid) (y : Cid × Tid) :
    ((s.signal c a).pc y).tokens = (s.pc y).tokens := by
  cases a with
  | none => rfl
  | some a => exact tokens_setPc (Pc.tokens_signal _) y

theorem pc_setPc_row (a : Tid) (d : Cid) :
    (fun b => (s.setPc (c, a) p).pc (d, b)) =
      if d = c then Function.update (fun b => s.pc (c, b)) a p else fun b => s.pc (d, b) := by
  funext b
  by_cases same : d = c
  · subst d
    by_cases equal : b = a
    · simp [setPc, equal]
    · simp [setPc, Function.update, equal]
  · simp [setPc, Function.update, same]

section Settle

variable {a : Tid} {ls : ClientLock Tid} {p : Pc Cid} {next : Option Tid}

theorem tokens_settle (plain : p.tokens = (s.pc (c, a)).tokens) (y : Cid × Tid) :
    ((s.settle (c, a) ls p next).pc y).tokens = (s.pc y).tokens := by
  rw [settle, tokens_signal]
  exact tokens_setPc plain y

theorem lock_settle : (s.settle (c, a) ls p next).lock = Function.update s.lock c ls := by
  rw [settle, lock_signal, lock_setPc, lock_setClient]

theorem pc_settle_other (different : d ≠ c) (b : Tid) :
    (s.settle (c, a) ls p next).pc (d, b) = s.pc (d, b) := by
  cases next <;> simp [settle, signal, setPc, setClient, different]

theorem pc_settle_none :
    (fun b => (s.settle (c, a) ls p none).pc (c, b)) =
      Function.update (fun b => s.pc (c, b)) a p := by
  funext b
  by_cases same : b = a
  · simp [settle, signal, setPc, same]
  · simp [settle, signal, setPc, setClient, same]

theorem pc_settle_some (ls : ClientLock Tid) (n : Tid) :
    (fun b => (s.settle (c, a) ls p (some n)).pc (c, b)) =
      Function.update (Function.update (fun b => s.pc (c, b)) a p) n
        (Function.update (fun b => s.pc (c, b)) a p n).signal := by
  funext b
  by_cases same : b = n <;> by_cases equal : n = a <;> by_cases other : b = a <;>
    simp_all [settle, signal, setPc, setClient, Function.update]

/-- A section that only works on its own client's lock state has to restore that
client's queue and phase, for whatever standing the client has. -/
theorem Inv.localStep (inv : s.Inv) (plain : p.tokens = (s.pc (c, a)).tokens)
    (queue : Queue ls.threads fun b => (s.settle (c, a) ls p next).pc (c, b))
    (phase : ∀ {σ ρ}, Phase σ (s.lock c).state (s.lock c).message (s.front c) ρ →
      Phase σ ls.state ls.message ((s.settle (c, a) ls p next).front c) ρ) :
    (s.settle (c, a) ls p next).Inv := by
  have others (d) (different : d ≠ c) : (s.settle (c, a) ls p next).lock d = s.lock d := by
    rw [lock_settle, Function.update_of_ne different]
  have own : (s.settle (c, a) ls p next).lock c = ls := by rw [lock_settle, Function.update_self]
  apply inv.keepTokens (by rw [settle, server_signal]; rfl) (tokens_settle plain)
  · intro d
    by_cases same : d = c
    · subst d
      rw [own]
      exact queue
    · simp only [others d same, pc_settle_other same]
      exact inv.queue d
  · intro d
    by_cases same : d = c
    · subst d
      rw [own]
      exact phase (inv.phase c)
    · have position := front_congr (s := s) (t := s.settle (c, a) ls p next) (c := d)
        (by rw [others d same]) (pc_settle_other same)
      rw [others d same, position]
      exact inv.phase d

/-- A section of the queue head that keeps the queue. -/
theorem Inv.headStep {rest : List Tid} (inv : s.Inv) (head : (s.lock c).threads = a :: rest)
    (position : s.pc (c, a) = q) (ls : ClientLock Tid) (p : Pc Cid)
    (kept : ls.threads = (s.lock c).threads) (plain : p.tokens = q.tokens)
    (phase : ∀ {σ ρ}, Phase σ (s.lock c).state (s.lock c).message q.front ρ →
      Phase σ ls.state ls.message p.front ρ) :
    (s.settle (c, a) ls p none).Inv := by
  rw [head] at kept
  apply inv.localStep (plain.trans (by rw [position]))
  · have queue := inv.queue c
    rw [head] at queue
    rw [pc_settle_none, kept]
    exact queue.setHead _
  · intro σ ρ before
    have after : (s.settle (c, a) ls p none).front c = p.front := by
      rw [front_cons (by rw [lock_settle, Function.update_self]; exact kept)]
      simp [settle, signal, setPc]
    rw [after]
    rw [front_cons head, position] at before
    exact phase before

/-- A thread that enters `acquire` joins the end of the queue. -/
theorem Inv.pushStep (inv : s.Inv) (idle : s.pc (c, a) = .idle)
    (kept : ls.threads = (s.lock c).threads ++ [a]) (plain : p.tokens = (Pc.idle : Pc Cid).tokens)
    (position : (s.lock c).threads ≠ [] → p = .queued false)
    (phase : ∀ {σ ρ}, Phase σ (s.lock c).state (s.lock c).message (s.front c) ρ →
      Phase σ ls.state ls.message (if (s.lock c).threads = [] then p.front else s.front c) ρ) :
    (s.settle (c, a) ls p none).Inv := by
  have absent : a ∉ (s.lock c).threads := by
    intro present
    obtain ⟨first, rest, same⟩ := List.exists_cons_of_ne_nil (List.ne_nil_of_mem present)
    have before := inv.phase c
    have queue := inv.queue c
    rw [same] at queue present
    rcases List.mem_cons.mp present with equal | later
    · rw [front_cons same, ← equal, idle] at before
      exact before.not_stray rfl
    · have asleep := queue.behind a later
      rw [idle] at asleep
      cases asleep
  apply inv.localStep (by rw [plain, idle])
  · rw [pc_settle_none, kept]
    exact (inv.queue c).push absent position
  · intro σ ρ before
    have after := phase before
    have locked : ((s.settle (c, a) ls p none).lock c).threads = (s.lock c).threads ++ [a] := by
      rw [lock_settle, Function.update_self, kept]
    have position : (s.settle (c, a) ls p none).front c =
        if (s.lock c).threads = [] then p.front else s.front c := by
      cases same : (s.lock c).threads with
      | nil =>
        rw [same, List.nil_append] at locked
        rw [front_cons locked]
        simp [settle, signal, setPc]
      | cons first rest =>
        rw [same, List.cons_append] at locked
        rw [front_cons locked, front_cons same]
        have different : first ≠ a := fun equal => absent (by simp [same, equal])
        simp [settle, signal, setPc, setClient, different]
    rw [position]
    exact after

/-- A thread that leaves the lock hands it to the next in the queue, which it
wakes; `last` and `passed` are the two outcomes. -/
theorem Inv.popStep {rest : List Tid} (inv : s.Inv) (head : (s.lock c).threads = a :: rest)
    (kept : ls.threads = rest) (plain : (Pc.idle : Pc Cid).tokens = (s.pc (c, a)).tokens)
    (last : rest = [] → ∀ {σ ρ}, Phase σ (s.lock c).state (s.lock c).message (s.pc (c, a)).front ρ →
      Phase σ ls.state ls.message .none ρ)
    (passed : rest ≠ [] → ∀ {σ ρ},
      Phase σ (s.lock c).state (s.lock c).message (s.pc (c, a)).front ρ →
      Phase σ ls.state ls.message .woken ρ) :
    (s.settle (c, a) ls .idle rest.head?).Inv := by
  have queue := inv.queue c
  rw [head] at queue
  have locked : ((s.settle (c, a) ls .idle rest.head?).lock c).threads = rest := by
    rw [lock_settle, Function.update_self, kept]
  apply inv.localStep plain
  · rw [kept]
    cases rest with
    | nil =>
      rw [List.head?_nil, pc_settle_none]
      exact queue.pop
    | cons n rest =>
      rw [List.head?_cons, pc_settle_some]
      exact queue.pop.setHead _
  · intro σ ρ before
    rw [front_cons head] at before
    cases rest with
    | nil =>
      have position : (s.settle (c, a) ls .idle [].head?).front c = .none := by
        simp only [front, locked]
      rw [position]
      exact last rfl before
    | cons n rest =>
      have asleep : s.pc (c, n) = .queued false := queue.behind n (by simp)
      have different : n ≠ a := fun equal => (List.nodup_cons.mp queue.nodup).1 (by simp [equal])
      have position : (s.settle (c, a) ls .idle (n :: rest).head?).front c = .woken := by
        rw [front_cons locked, List.head?_cons]
        have row := congrFun (pc_settle_some ls n (s := s) (c := c) (a := a) (p := .idle)) n
        simp only [Function.update_self, Function.update_of_ne different, asleep] at row
        rw [row]
        rfl
      rw [position]
      exact passed (by simp) before

end Settle

omit [DecidableEq Tid] in
/-- The queue head of the client of a thread that runs or waits for an answer. -/
theorem Inv.head (inv : s.Inv) (inside : s.pc (c, a) ≠ .idle) (active : s.pc (c, a) ≠ .queued false) :
    ∃ rest, (s.lock c).threads = a :: rest := (inv.queue c).head inside active

theorem Inv.acquire (inv : s.Inv) (idle : s.pc (c, a) = .idle) :
    ∃ t, s.step (.acquire (c, a)) = some (.ok t) ∧ t.Inv := by
  have entry : (s.clients c).getD .fresh = s.lock c := rfl
  have entered : s.step (.acquire (c, a)) = some (.ok (s.settle (c, a)
      (LockClientCache.acquire (s.clients c) a : ClientLock Tid × Pc Cid).1
      (LockClientCache.acquire (s.clients c) a).2 none)) := by
    simp only [step, idle]
  refine ⟨_, entered, ?_⟩
  by_cases alone : (s.lock c).threads = []
  · have position : s.front c = .none := by simp only [front, alone]
    have join {ls : ClientLock Tid} {p : Pc Cid} (kept : ls.threads = (s.lock c).threads ++ [a])
        (plain : p.tokens = (Pc.idle : Pc Cid).tokens)
        (phase : ∀ {σ ρ}, Phase σ (s.lock c).state (s.lock c).message .none ρ →
          Phase σ ls.state ls.message p.front ρ) : (s.settle (c, a) ls p none).Inv := by
      apply inv.pushStep idle kept plain (fun present => absurd alone present)
      intro σ ρ before
      simpa [alone] using phase (position ▸ before)
    rcases (position ▸ inv.phase c).empty with ⟨free, _⟩ | ⟨none, _⟩ | ⟨releasing, _⟩
    · simp only [LockClientCache.acquire, entry, alone, if_true, free]
      exact join (by simp [alone]) rfl (fun before => by simpa [free] using before.empty)
    · simp only [LockClientCache.acquire, LockClientCache.wait, entry, alone, if_true, none]
      exact join (by simp [alone]) rfl (fun before => by simpa [none] using before.empty)
    · simp only [LockClientCache.acquire, entry, alone, if_true, releasing]
      exact join (by simp [alone]) rfl (fun before => by simpa [releasing] using before.empty)
  · simp only [LockClientCache.acquire, entry, alone, if_false]
    exact inv.pushStep idle rfl rfl (fun _ => rfl) (fun before => by simpa [alone] using before)

theorem Inv.unpark (inv : s.Inv) (parked : s.pc (c, a) = .parked true) :
    ∃ t, s.run (c, a) = some (.ok t) ∧ t.Inv := by
  obtain ⟨rest, head⟩ := inv.head (a := a) (c := c) (by simp [parked]) (by simp [parked])
  refine ⟨_, ?_, inv.headStep head parked { s.lock c with state := .acquiring } (.calling .request)
    rfl rfl (fun before => before.unparked)⟩
  simp [run, parked, deref_of_head head, LockClientCache.wait, bind, Except.bind, pure, Except.pure]

theorem Inv.wake (inv : s.Inv) (queued : s.pc (c, a) = .queued true) :
    ∃ t, s.run (c, a) = some (.ok t) ∧ t.Inv := by
  obtain ⟨rest, head⟩ := inv.head (a := a) (c := c) (by simp [queued]) (by simp [queued])
  have outcome := inv.phase c
  rw [front_cons head, queued] at outcome
  rcases outcome.woken with ⟨unset, _⟩ | ⟨locked, _⟩
  · refine ⟨_, ?_, inv.headStep head queued { s.lock c with state := .acquiring }
      (.calling .request) rfl rfl (fun before => by simpa [unset] using before.woken)⟩
    simp [run, queued, deref_of_head head, LockClientCache.acquireQueued, LockClientCache.wait,
      unset, bind, Except.bind, pure, Except.pure]
  · refine ⟨_, ?_, inv.headStep head queued { s.lock c with state := .locked } .holding rfl rfl
      (fun before => by simpa [locked] using before.woken)⟩
    simp [run, queued, deref_of_head head, LockClientCache.acquireQueued, locked,
      bind, Except.bind, pure, Except.pure]

theorem Inv.answerOk (inv : s.Inv) (answered : s.pc (c, a) = .calling (.reply .ok)) :
    ∃ t, s.run (c, a) = some (.ok t) ∧ t.Inv := by
  obtain ⟨rest, head⟩ := inv.head (a := a) (c := c) (by simp [answered]) (by simp [answered])
  refine ⟨_, ?_, inv.headStep head answered { s.lock c with state := .locked } .holding rfl rfl
    (fun before => before.answeredOk)⟩
  simp [run, answered, deref_of_head head, LockClientCache.waitReply,
    bind, Except.bind, pure, Except.pure]

theorem Inv.answerRetry (inv : s.Inv) (answered : s.pc (c, a) = .calling (.reply .retry)) :
    ∃ t, s.run (c, a) = some (.ok t) ∧ t.Inv := by
  obtain ⟨rest, head⟩ := inv.head (a := a) (c := c) (by simp [answered]) (by simp [answered])
  have outcome := inv.phase c
  rw [front_cons head, answered] at outcome
  obtain ⟨acquiring, choice⟩ := outcome.answeredRetry
  rcases choice with ⟨empty, _⟩ | ⟨present, _⟩
  · refine ⟨_, ?_, inv.headStep head answered (s.lock c) (.waiting false) rfl rfl
      (fun before => by simpa [empty] using before.answeredRetry.2)⟩
    simp [run, answered, deref_of_head head, LockClientCache.waitReply, empty,
      bind, Except.bind, pure, Except.pure]
  · refine ⟨_, ?_, inv.headStep head answered { s.lock c with message := .empty }
      (.calling .request) rfl rfl (fun before => by simpa [present] using before.answeredRetry.2)⟩
    simp [run, answered, deref_of_head head, LockClientCache.waitReply, LockClientCache.waitLoop,
      present, acquiring, bind, Except.bind, pure, Except.pure]

theorem Inv.ring (inv : s.Inv) (rung : s.pc (c, a) = .waiting true) :
    ∃ t, s.run (c, a) = some (.ok t) ∧ t.Inv := by
  obtain ⟨rest, head⟩ := inv.head (a := a) (c := c) (by simp [rung]) (by simp [rung])
  have outcome := inv.phase c
  rw [front_cons head, rung] at outcome
  refine ⟨_, ?_, inv.headStep head rung { s.lock c with message := .empty } (.calling .request)
    rfl rfl (fun before => before.awake.2)⟩
  simp [run, rung, deref_of_head head, LockClientCache.waitLoop, outcome.awake.1,
    bind, Except.bind, pure, Except.pure]

/-- The common end of `release`, from either of its branches. -/
theorem Inv.releaseEnd {rest : List Tid} (inv : s.Inv) (ls : ClientLock Tid)
    (head : (s.lock c).threads = a :: rest)
    (plain : (Pc.idle : Pc Cid).tokens = (s.pc (c, a)).tokens) (revoking : Bool)
    (kept : ls.threads = (s.lock c).threads)
    (last : ∀ {σ ρ}, Phase σ (s.lock c).state (s.lock c).message (s.pc (c, a)).front ρ →
      Phase σ ls.state ls.message .none ρ)
    (passed : ∀ {σ ρ}, Phase σ (s.lock c).state (s.lock c).message (s.pc (c, a)).front ρ →
      Phase σ (if revoking then ls.state else .locked) ls.message .woken ρ) :
    ∃ ls' next, ∃ pc' : Pc Cid, LockClientCache.releaseEnd ls revoking = .ok (ls', pc', next) ∧
      (s.settle (c, a) ls' pc' next).Inv := by
  rw [head] at kept
  cases rest with
  | nil =>
    simp only [LockClientCache.releaseEnd, kept]
    refine ⟨_, _, _, rfl, ?_⟩
    exact inv.popStep head rfl plain (fun _ => last) (fun present => absurd rfl present)
  | cons n rest =>
    simp only [LockClientCache.releaseEnd, kept]
    refine ⟨_, _, _, rfl, ?_⟩
    exact inv.popStep head rfl plain (fun empty => by cases empty)
      (fun _ => passed)

theorem Inv.release (inv : s.Inv) (holding : s.pc (c, a) = .holding) :
    ∃ t, s.step (.release (c, a)) = some (.ok t) ∧ t.Inv := by
  obtain ⟨rest, head⟩ := inv.head (a := a) (c := c) (by simp [holding]) (by simp [holding])
  have outcome := inv.phase c
  rw [front_cons head, holding] at outcome
  rcases outcome.holding with ⟨revoke, _⟩ | ⟨other, _⟩
  · refine ⟨_, ?_, inv.headStep head holding { s.lock c with state := .releasing }
      (.releasing .request) rfl rfl (fun before => by simpa [revoke] using before.holding)⟩
    simp [step, holding, clients_of_head head, LockClientCache.release, revoke,
      bind, Except.bind, pure, Except.pure]
  · obtain ⟨ls, next, pc, returned, after⟩ := inv.releaseEnd
      { s.lock c with state := .free } head (by rw [holding]; rfl) false rfl
      (fun before => by
        rw [holding] at before
        exact (before.holding.resolve_left (fun h => other h.1)).2.1)
      (fun before => by
        rw [holding] at before
        exact (before.holding.resolve_left (fun h => other h.1)).2.2)
    refine ⟨s.settle (c, a) ls pc next, ?_, after⟩
    simp [step, holding, clients_of_head head, LockClientCache.release, other, returned,
      bind, Except.bind, pure, Except.pure]

theorem Inv.releaseReturn (inv : s.Inv) (answered : s.pc (c, a) = .releasing .reply) :
    ∃ t, s.run (c, a) = some (.ok t) ∧ t.Inv := by
  obtain ⟨rest, head⟩ := inv.head (a := a) (c := c) (by simp [answered]) (by simp [answered])
  simp only [run, answered, deref_of_head head, LockClientCache.releaseReturn]
  obtain ⟨ls, next, pc, returned, after⟩ := inv.releaseEnd
    { s.lock c with message := .empty, state := .none } head (by rw [answered]; rfl) true rfl
    (fun before => by
      rw [answered] at before
      exact before.released.1)
    (fun before => by
      rw [answered] at before
      exact before.released.2)
  simp only [bind, Except.bind, returned]
  exact ⟨_, rfl, after⟩

end LockSys

end Yfs.Lock
