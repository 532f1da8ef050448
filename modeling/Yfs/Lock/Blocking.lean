import Mathlib.Algebra.Order.Group.Multiset
import Mathlib.Algebra.Order.Sub.Basic
import Mathlib.Logic.Function.Basic
import Yfs.Lib.Monitor

/-! The lock server of `lock_server.cc`, at which a request for a taken lock waits, with any
number of requests of any clients under way. -/

namespace Yfs.Lock

open Yfs.Lib Monitor

/-- The members of `lock_server`. Of an entry in `cond_map` only matters that it points to a
condition; `cond_map[lid]` is a null pointer where there is none. -/
structure LockServer (Lid : Type) where
  nacquire : Int
  condMap : Lid → Bool
  lockMap : Lid → Option Int

namespace LockServer

variable {Lid : Type}

def initial : LockServer Lid := { nacquire := 0, condMap := fun _ => false, lockMap := fun _ => none }

/-- A request with the client it comes from. -/
inductive Request (Lid : Type) where
  | stat (clt : Int) (lid : Lid)
  | acquire (clt : Int) (lid : Lid)
  | release (clt : Int) (lid : Lid)
  deriving DecidableEq, Repr

variable [DecidableEq Lid]

/-- `lock_map[lid] = value`. -/
def setLock (s : LockServer Lid) (lid : Lid) (value : Int) : LockServer Lid :=
  { s with lockMap := Function.update s.lockMap lid (some value) }

/-- A section of a request; every status is `OK`, and `r` is the result. -/
abbrev Section (Lid : Type) := LockServer Lid → Outcome (LockServer Lid) Lid Int

omit [DecidableEq Lid] in
def stat : Section Lid := fun s => .done s none s.nacquire

/-- The loop of `acquire`, before and after each wait. -/
def acquireLoop (lid : Lid) : Section Lid := fun s =>
  if (s.lockMap lid).getD 0 = 1 then
    if s.condMap lid then .wait lid else .fault
  else .done (s.setLock lid 1) none 0

/-- `acquire` from its start; the first request for a lock allocates its condition. -/
def acquire (lid : Lid) : Section Lid := fun s =>
  match s.lockMap lid with
  | none => .done { s.setLock lid 1 with condMap := Function.update s.condMap lid true } none 0
  | some value => if value = 0 then .done (s.setLock lid 1) none 0 else acquireLoop lid s

/-- `release` does not ask who holds the lock; without a condition it signals a null pointer. -/
def release (lid : Lid) : Section Lid := fun s =>
  if s.condMap lid then .done (s.setLock lid 0) (some lid) 0 else .fault

def lockServer : Monitor (LockServer Lid) (Request Lid) Lid Int
  | .stat _ _, _ => stat
  | .acquire _ lid, false => acquire lid
  | .acquire _ lid, true => acquireLoop lid
  | .release _ lid, _ => release lid

omit [DecidableEq Lid] in
/-- The lock whose grant a request asks for. -/
def Request.acquires : Request Lid → Option Lid
  | .acquire _ lid => some lid
  | _ => none

omit [DecidableEq Lid] in
/-- The lock that a request gives back. -/
def Request.releases : Request Lid → Option Lid
  | .release _ lid => some lid
  | _ => none

variable {log : List (Record (Request Lid) Int)} {s : State (LockServer Lid) (Request Lid) Lid}

/-- How often a client has been told that it holds the lock. -/
def granted (log : List (Record (Request Lid) Int)) (lid : Lid) : Nat :=
  (returns log).countP fun r => r.1.acquires = some lid

/-- How often a client has begun to give the lock back. -/
def returned (log : List (Record (Request Lid) Int)) (lid : Lid) : Nat :=
  (calls log).countP fun request => request.releases = some lid

/-- How often the server has taken the lock back. -/
def cleared (log : List (Record (Request Lid) Int)) (lid : Lid) : Nat :=
  (returns log).countP fun r => r.1.releases = some lid

/-- Clients give back only what some client holds. -/
def Proper (log : List (Record (Request Lid) Int)) (request : Request Lid) : Prop :=
  ∀ lid, request.releases = some lid → returned log lid < granted log lid

abbrev Run := Monitor.Run (@lockServer Lid _) Proper initial

def locked (s : LockServer Lid) (lid : Lid) : Bool := (s.lockMap lid).getD 0 = 1

omit [DecidableEq Lid] in
theorem locked_eq {s t : LockServer Lid} (same : t.lockMap = s.lockMap) (lid : Lid) :
    t.locked lid = s.locked lid := by rw [locked, locked, same]

theorem setLock_lockMap (s : LockServer Lid) (lid other : Lid) (value : Int) :
    (s.setLock lid value).lockMap other = if other = lid then some value else s.lockMap other :=
  Function.update_apply ..

theorem locked_setLock (s : LockServer Lid) (lid other : Lid) (value : Int) :
    (s.setLock lid value).locked other = if other = lid then decide (value = 1) else s.locked other := by
  rw [locked, setLock_lockMap]
  split <;> rfl

/-- What a request that returns does to the maps. -/
theorem lockServer_cases {request : Request Lid} {woken : Bool} {s next : LockServer Lid}
    {signal : Option Lid} {r : Int} (ends : lockServer request woken s = .done next signal r) :
    (∃ clt lid, request = .stat clt lid ∧ next = s ∧ signal = none) ∨
    (∃ clt lid, request = .acquire clt lid ∧ s.locked lid = false ∧ signal = none ∧
      next.lockMap = (s.setLock lid 1).lockMap ∧
      (next.condMap = s.condMap ∧ (woken = true ∨ s.lockMap lid ≠ none) ∨
        next.condMap = Function.update s.condMap lid true)) ∨
    ∃ clt lid, request = .release clt lid ∧ s.condMap lid = true ∧ signal = some lid ∧
      next = s.setLock lid 0 := by
  cases request with
  | stat clt lid =>
    cases ends
    exact .inl ⟨clt, lid, rfl, rfl, rfl⟩
  | acquire clt lid =>
    right; left
    have loop : acquireLoop lid s = .done next signal r →
        s.locked lid = false ∧ signal = none ∧ next = s.setLock lid 1 := by
      intro ends
      rw [acquireLoop] at ends
      split at ends
      · split at ends <;> cases ends
      · rename_i free
        cases ends
        exact ⟨by simpa [locked] using free, rfl, rfl⟩
    cases woken with
    | true =>
      obtain ⟨free, rfl, rfl⟩ := loop ends
      exact ⟨clt, lid, rfl, free, rfl, rfl, .inl ⟨rfl, .inl rfl⟩⟩
    | false =>
      change acquire lid s = _ at ends
      rw [acquire] at ends
      split at ends
      · rename_i new
        cases ends
        exact ⟨clt, lid, rfl, by simp [locked, new], rfl, rfl, .inr rfl⟩
      · rename_i value found
        have present : s.lockMap lid ≠ none := by simp [found]
        split at ends
        · rename_i zero
          cases ends
          exact ⟨clt, lid, rfl, by simp [locked, found, zero], rfl, rfl, .inl ⟨rfl, .inr present⟩⟩
        · obtain ⟨free, rfl, rfl⟩ := loop ends
          exact ⟨clt, lid, rfl, free, rfl, rfl, .inl ⟨rfl, .inr present⟩⟩
  | release clt lid =>
    right; right
    change release lid s = _ at ends
    rw [release] at ends
    split at ends
    · rename_i allocated
      cases ends
      exact ⟨clt, lid, rfl, allocated, rfl, rfl⟩
    · cases ends

/-- Only a request for a lock that is taken waits, and on the condition of that lock. -/
theorem waits_cases {request : Request Lid} {woken : Bool} {s : LockServer Lid} {lid : Lid}
    (waits : lockServer request woken s = .wait lid) :
    request.acquires = some lid ∧ s.locked lid = true ∧ s.condMap lid = true := by
  cases request with
  | stat => cases waits
  | acquire clt wanted =>
    have loop : acquireLoop wanted s = .wait lid →
        wanted = lid ∧ s.locked lid = true ∧ s.condMap lid = true := by
      intro waits
      rw [acquireLoop] at waits
      split at waits
      · rename_i taken
        split at waits
        · rename_i allocated
          cases waits
          exact ⟨rfl, by simpa [locked] using taken, allocated⟩
        · cases waits
      · cases waits
    have found : wanted = lid ∧ s.locked lid = true ∧ s.condMap lid = true := by
      cases woken with
      | true => exact loop waits
      | false =>
        change acquire wanted s = _ at waits
        rw [acquire] at waits
        split at waits
        · cases waits
        · split at waits
          · cases waits
          · exact loop waits
    obtain ⟨rfl, taken, allocated⟩ := found
    exact ⟨rfl, taken, allocated⟩
  | release clt wanted =>
    change release wanted s = _ at waits
    rw [release] at waits
    split at waits <;> cases waits

/-- What the maps say about the requests that have been answered. -/
structure Ledger (log : List (Record (Request Lid) Int)) (s : LockServer Lid) : Prop where
  owed : ∀ lid, returned log lid ≤ granted log lid
  balance : ∀ lid, granted log lid = cleared log lid + if s.locked lid then 1 else 0
  known : ∀ lid, 0 < granted log lid → s.lockMap lid ≠ none
  conds : ∀ lid, s.lockMap lid ≠ none → s.condMap lid = true

theorem Run.woken (run : Run log s) :
    (∀ clt lid, (Request.acquire clt lid, true) ∈ s.ready → s.shared.condMap lid = true) ∧
      ∀ w ∈ s.blocked, ∀ lid, w.2.acquires = some lid → s.shared.condMap lid = true := by
  have kept := run.kept
    (Q := fun request s => ∀ lid, request.acquires = some lid → s.condMap lid = true) ?_ ?_
  · exact ⟨fun clt lid here => kept.1 _ here lid rfl, kept.2⟩
  · intro request woken s lid waits wanted same
    obtain ⟨own, _, allocated⟩ := waits_cases waits
    cases own.symm.trans same
    exact allocated
  · intro request woken s next signal r ends other allocated lid own
    have before := allocated lid own
    obtain ⟨_, _, _, rfl, _⟩ | ⟨_, _, _, _, _, _, ⟨same, _⟩ | same⟩ | ⟨_, _, _, _, _, rfl⟩ :=
      lockServer_cases ends
    · exact before
    · rw [same]
      exact before
    · rw [same, Function.update_apply]
      split
      · rfl
      · exact before
    · exact before

/-- A request of `release` that is under way has been called and not answered. -/
theorem Run.underway (run : Run log s) {clt : Int} {lid : Lid} {woken : Bool}
    (ready : (Request.release clt lid, woken) ∈ s.ready) : cleared log lid < returned log lid := by
  have conserved := run.conserved fun request => request.releases = some lid
  have present : 0 < s.ready.countP fun r => r.1.releases = some lid :=
    Multiset.countP_pos.mpr ⟨_, ready, rfl⟩
  simp only [decide_eq_true_eq] at conserved
  rw [returned, cleared]
  omega

section Answer

variable (log) (request : Request Lid) (r : Int) (lid : Lid)

theorem returned_answer : returned (log ++ [.ret request r]) lid = returned log lid := by
  simp [returned, calls_append]

theorem granted_answer : granted (log ++ [.ret request r]) lid =
    granted log lid + if request.acquires = some lid then 1 else 0 := by
  simp [granted, returns_append, List.countP_append, List.countP_cons]

theorem cleared_answer : cleared (log ++ [.ret request r]) lid =
    cleared log lid + if request.releases = some lid then 1 else 0 := by
  simp [cleared, returns_append, List.countP_append, List.countP_cons]

end Answer

theorem Ledger.of_answer {t : LockServer Lid} (ledger : Ledger log s.shared) (run : Run log s)
    {request : Request Lid} {woken : Bool} {signal : Option Lid} {r : Int}
    (ready : (request, woken) ∈ s.ready) (ends : lockServer request woken s.shared = .done t signal r) :
    Ledger (log ++ [.ret request r]) t := by
  have owed : ∀ lid, returned (log ++ [.ret request r]) lid ≤ granted (log ++ [.ret request r]) lid := by
    intro lid
    rw [returned_answer, granted_answer]
    exact Nat.le_add_right_of_le (ledger.owed lid)
  obtain ⟨_, _, rfl, rfl, _⟩ | ⟨clt, wanted, rfl, free, _, maps, conds⟩ |
    ⟨clt, wanted, rfl, allocated, _, rfl⟩ := lockServer_cases ends
  · exact ⟨owed, fun lid => by rw [granted_answer, cleared_answer]; exact ledger.balance lid,
      fun lid positive => ledger.known lid (by rwa [granted_answer] at positive), ledger.conds⟩
  · refine ⟨owed, fun lid => ?_, fun lid positive => ?_, fun lid present => ?_⟩
    · have before := ledger.balance lid
      rw [granted_answer, cleared_answer, locked_eq maps, locked_setLock]
      by_cases same : lid = wanted
      · subst same
        simpa [Request.acquires, Request.releases, free] using before
      · simpa [Request.acquires, Request.releases, same, Ne.symm same] using before
    · rw [maps, setLock_lockMap]
      split
      · simp
      · rename_i different
        rw [granted_answer] at positive
        exact ledger.known lid (by simpa [Request.acquires, Ne.symm different] using positive)
    · rw [maps, setLock_lockMap] at present
      by_cases same : lid = wanted
      · subst same
        rcases conds with ⟨kept, rfl | known⟩ | new
        · rw [kept]
          exact run.woken.1 clt lid ready
        · rw [kept]
          exact ledger.conds lid known
        · rw [new, Function.update_self]
      · have before := ledger.conds lid (by simpa [same] using present)
        rcases conds with ⟨kept, _⟩ | new
        · rw [kept]
          exact before
        · rw [new, Function.update_of_ne same]
          exact before
  · -- The lock is taken: an unanswered `release` has been called for every grant at most.
    have taken : s.shared.locked wanted = true := by
      have underway := run.underway ready
      have balance := ledger.balance wanted
      have owed := ledger.owed wanted
      by_contra free
      rw [if_neg free] at balance
      omega
    refine ⟨owed, fun lid => ?_, fun lid positive => ?_, fun lid present => ?_⟩
    · have before := ledger.balance lid
      rw [granted_answer, cleared_answer, locked_setLock]
      by_cases same : lid = wanted
      · subst same
        simpa [Request.acquires, Request.releases, taken] using before
      · simpa [Request.acquires, Request.releases, same, Ne.symm same] using before
    · rw [setLock_lockMap]
      split
      · simp
      · rw [granted_answer] at positive
        exact ledger.known lid positive
    · rw [setLock_lockMap] at present
      by_cases same : lid = wanted
      · rw [same]
        exact allocated
      · exact ledger.conds lid (by simpa [same] using present)

theorem Run.ledger (run : Run log s) : Ledger log s.shared := by
  induction run with
  | start => exact ⟨by simp [returned], by simp [granted, cleared, locked, initial], by simp [granted],
      by simp [initial]⟩
  | @step log s seen t before step permitted ih =>
    obtain ⟨same, rfl | ⟨request, rfl⟩⟩ | ⟨request, woken, signal, r, ready, ends, rfl⟩ :=
      step.cases_shared
    · rw [same]
      simpa using ih
    · have called : ∀ lid, granted (log ++ [.call request]) lid = granted log lid ∧
          cleared (log ++ [.call request]) lid = cleared log lid := by
        simp [granted, cleared, returns_append]
      rw [same]
      refine ⟨fun lid => ?_, fun lid => ?_, fun lid positive => ?_, ih.conds⟩
      · have made : returned (log ++ [.call request]) lid =
            returned log lid + if request.releases = some lid then 1 else 0 := by
          simp [returned, calls_append, List.countP_append, List.countP_cons]
        rw [Option.toList_some, made, (called lid).1]
        split
        · rename_i gives
          exact permitted request rfl lid gives
        · exact ih.owed lid
      · rw [Option.toList_some, (called lid).1, (called lid).2]
        exact ih.balance lid
      · rw [Option.toList_some, (called lid).1] at positive
        exact ih.known lid positive
    · exact ih.of_answer before ready ends

/-- No request that is under way leads to a null pointer. -/
theorem Run.fault_free (run : Run log s) {request : Request Lid} {woken : Bool}
    (ready : (request, woken) ∈ s.ready) : lockServer request woken s.shared ≠ .fault := by
  have ledger := run.ledger
  have loop : ∀ lid, acquireLoop lid s.shared ≠ .fault := by
    intro lid fault
    rw [acquireLoop] at fault
    split at fault
    · rename_i taken
      have present : s.shared.lockMap lid ≠ none := by
        intro missing
        simp [missing] at taken
      rw [if_pos (ledger.conds lid present)] at fault
      cases fault
    · cases fault
  cases request with
  | stat => exact fun fault => by cases fault
  | acquire clt lid =>
    cases woken with
    | true => exact loop lid
    | false =>
      change acquire lid s.shared ≠ .fault
      rw [acquire]
      split
      · exact fun fault => by cases fault
      · split
        · exact fun fault => by cases fault
        · exact loop lid
  | release clt lid =>
    have underway := run.underway ready
    have owed := ledger.owed lid
    have allocated := ledger.conds lid (ledger.known lid (by omega))
    change release lid s.shared ≠ .fault
    rw [release, if_pos allocated]
    exact fun fault => by cases fault

/-- One signal for each release is enough: a free lock serves one request. -/
theorem signalling : Signalling (@lockServer Lid _) (fun _ => True) Request.acquires
    (fun lid s => if s.locked lid then 0 else 1) where
  waits := by
    intro request woken s lid _ waits
    obtain ⟨own, taken, _⟩ := waits_cases waits
    exact ⟨own, if_pos taken⟩
  done := by
    intro request woken s next signal r _ ends lid
    obtain ⟨_, _, rfl, rfl, rfl⟩ | ⟨clt, wanted, rfl, free, rfl, maps, _⟩ |
      ⟨clt, wanted, rfl, _, rfl, rfl⟩ := lockServer_cases ends
    · simp [Request.acquires]
    · rw [locked_eq maps, locked_setLock]
      by_cases same : lid = wanted
      · simp [same, Request.acquires, free]
      · simp [same, Ne.symm same, Request.acquires]
    · rw [locked_setLock]
      by_cases same : lid = wanted
      · simp [same, Request.acquires]
      · simp [same, Ne.symm same, Request.acquires]

theorem Run.attended (run : Run log s) :
    Heard Request.acquires (fun lid s => if s.locked lid then 0 else 1) s :=
  run.heard signalling trivial fun _ _ => trivial

/-- Every call of `release` has been answered, or it contends for the mutex. -/
theorem Run.releases (run : Run log s) (lid : Lid) :
    returned log lid = cleared log lid + s.ready.countP fun r => r.1.releases = some lid := by
  have conserved := run.conserved fun request => request.releases = some lid
  have awake : s.blocked.countP (fun w => w.2.releases = some lid) = 0 := by
    refine Multiset.countP_eq_zero.mpr fun w asleep => ?_
    have acquires := run.attended.kinds w asleep
    rcases w with ⟨_, _ | _ | _⟩ <;> simp [Request.acquires, Request.releases] at acquires ⊢
  simp only [decide_eq_true_eq] at conserved
  rw [returned, cleared, conserved, awake, Nat.add_zero]

/-- Grants and releases take turns, `lock_map` says which of them was last, and no request
dereferences a null pointer. -/
theorem Run.turns (run : Run log s) (lid : Lid) :
    granted log lid ≤ returned log lid + 1 ∧
      (returned log lid < granted log lid → s.shared.lockMap lid = some 1) ∧
      ∀ r ∈ s.ready, lockServer r.1 r.2 s.shared ≠ .fault := by
  have ledger := run.ledger
  have balance := ledger.balance lid
  have called := run.releases lid
  refine ⟨?_, fun held => ?_, fun r ready => run.fault_free ready⟩
  · split at balance <;> omega
  · have taken : s.shared.locked lid = true := by
      by_contra free
      rw [if_neg free] at balance
      omega
    rcases entry : s.shared.lockMap lid with _ | value
    · simp [locked, entry] at taken
    · simpa [locked, entry] using taken

section Holders

omit [DecidableEq Lid] in
/-- The client that a request comes from. -/
def Request.clt : Request Lid → Int
  | .stat clt _ | .acquire clt _ | .release clt _ => clt

/-- The clients that have been told that they hold the lock. -/
def takers (log : List (Record (Request Lid) Int)) (lid : Lid) : Multiset Int :=
  ((returns log).filter fun r => r.1.acquires = some lid).map fun r => r.1.clt

/-- The clients that have begun to give the lock back. -/
def givers (log : List (Record (Request Lid) Int)) (lid : Lid) : Multiset Int :=
  ((calls log).filter fun request => request.releases = some lid).map Request.clt

/-- The clients that hold the lock, each as often as it has been told so without giving it back. -/
def holders (log : List (Record (Request Lid) Int)) (lid : Lid) : Multiset Int :=
  takers log lid - givers log lid

/-- A client gives back only what it holds. -/
def Held (log : List (Record (Request Lid) Int)) (request : Request Lid) : Prop :=
  ∀ lid, request.releases = some lid → request.clt ∈ holders log lid

variable (log) (lid : Lid)

theorem card_takers : (takers log lid).card = granted log lid := by
  simp [takers, granted, List.countP_eq_length_filter]

theorem card_givers : (givers log lid).card = returned log lid := by
  simp [givers, returned, List.countP_eq_length_filter]

theorem takers_ret (request : Request Lid) (r : Int) :
    takers log lid ≤ takers (log ++ [.ret request r]) lid := by
  simp only [takers, returns_append, List.filter_append, List.map_append]
  exact Multiset.coe_le.mpr (List.sublist_append_left ..).subperm

theorem takers_call (request : Request Lid) : takers (log ++ [.call request]) lid = takers log lid := by
  simp [takers, returns_append]

theorem givers_ret (request : Request Lid) (r : Int) :
    givers (log ++ [.ret request r]) lid = givers log lid := by
  simp [givers, calls_append]

theorem givers_call (request : Request Lid) : givers (log ++ [.call request]) lid =
    givers log lid + if request.releases = some lid then {request.clt} else 0 := by
  simp only [givers, calls_append, calls_call, List.filter_append, List.map_append, ← Multiset.coe_add]
  by_cases gives : request.releases = some lid
  · simp [gives]
  · simp [gives]

end Holders

/-- Where every client gives back only what it holds, nobody gives back more than it was given. -/
theorem owed_of_held (run : Monitor.Run lockServer Held initial log s) :
    Run log s ∧ ∀ lid, givers log lid ≤ takers log lid := by
  induction run with
  | start => exact ⟨.start, fun lid => le_rfl⟩
  | @step log s seen t _ step permitted ih =>
    obtain ⟨run, owed⟩ := ih
    refine ⟨run.step step fun request called lid gives => ?_, fun lid => ?_⟩
    · have holds := permitted request called lid gives
      rw [← card_takers, ← card_givers, ← Nat.sub_pos_iff_lt, ← Multiset.card_sub (owed lid)]
      exact Multiset.card_pos_iff_exists_mem.mpr ⟨_, holds⟩
    · obtain ⟨_, rfl | ⟨request, rfl⟩⟩ | ⟨request, _, _, r, _, _, rfl⟩ := step.cases_shared
      · simpa using owed lid
      · rw [Option.toList_some, takers_call, givers_call]
        split
        · rename_i gives
          have holds := permitted request rfl lid gives
          exact (le_tsub_iff_left (owed lid)).mp (Multiset.singleton_le.mpr holds)
        · simpa using owed lid
      · rw [Option.toList_some, givers_ret]
        exact (owed lid).trans (takers_ret ..)

/-- At every time of every run in which clients give back only what they hold, at most one client
holds a lock, `lock_map` says so while one does, and no request dereferences a null pointer. -/
theorem one_holder (run : Monitor.Run lockServer Held initial log s) (lid : Lid) :
    (holders log lid).card ≤ 1 ∧ (holders log lid ≠ 0 → s.shared.lockMap lid = some 1) ∧
      ∀ r ∈ s.ready, lockServer r.1 r.2 s.shared ≠ .fault := by
  obtain ⟨proper, owed⟩ := owed_of_held run
  obtain ⟨turns, taken, sound⟩ := proper.turns lid
  have count : (holders log lid).card = granted log lid - returned log lid := by
    rw [holders, Multiset.card_sub (owed lid), card_takers, card_givers]
  refine ⟨by omega, fun held => taken ?_, sound⟩
  have positive := Multiset.card_pos.mpr held
  omega

/-- A client holds lock 5 when another asks for it. -/
private theorem contended : ∃ log s, Monitor.Run lockServer Held (initial : LockServer Nat) log s ∧
    holders log 5 = {1} ∧ s.ready = 0 ∧ (5, Request.acquire 2 5) ∈ s.blocked := by
  have fresh : Monitor.Run lockServer Held (initial : LockServer Nat) [] ⟨initial, 0, 0⟩ := .start
  have called := fresh.step (.call (.acquire 1 5)) (by rintro _ ⟨⟩ _ ⟨⟩)
  have first : Monitor.Run _ _ _ _ ⟨_, 0, 0⟩ := called.step (.done rfl rfl (by simp)) (by simp)
  have again := first.step (.call (.acquire 2 5)) (by rintro _ ⟨⟩ _ ⟨⟩)
  have second : Monitor.Run _ _ _ _ ⟨_, 0, (5, Request.acquire 2 5) ::ₘ 0⟩ :=
    again.step (.wait rfl rfl) (by simp)
  exact ⟨_, _, second, rfl, rfl, by simp⟩

theorem one_holder_contended : ∃ log s, Monitor.Run lockServer Held (initial : LockServer Nat) log s ∧
    holders log 5 = {1} ∧ (5, Request.acquire 2 5) ∈ s.blocked ∧ s.shared.lockMap 5 = some 1 := by
  obtain ⟨log, s, run, held, _, asleep⟩ := contended
  exact ⟨log, s, run, held, asleep, (one_holder run 5).2.1 (by simp [held])⟩

/-- No wake-up is lost. While a request waits for a lock that is free, another request for it is
awake; and where no request that concerns the lock is awake, some client holds it and has not
begun to give it back. -/
theorem waits_for_holder (run : Run log s) {lid : Lid} {request : Request Lid}
    (asleep : (lid, request) ∈ s.blocked) :
    (s.shared.locked lid = false → ∃ clt woken, (.acquire clt lid, woken) ∈ s.ready) ∧
      ((∀ r ∈ s.ready, r.1.acquires ≠ some lid ∧ r.1.releases ≠ some lid) →
        returned log lid < granted log lid) := by
  have served : s.shared.locked lid = false → ∃ clt woken, (.acquire clt lid, woken) ∈ s.ready := by
    intro free
    obtain ⟨other, woken, ready, own, _⟩ := run.attended.progress signalling trivial asleep (by simp [free])
    cases other with
    | stat | release => cases own
    | acquire clt wanted =>
      cases own
      exact ⟨clt, woken, ready⟩
  refine ⟨served, fun quiet => ?_⟩
  have taken : s.shared.locked lid = true := by
    by_contra free
    obtain ⟨clt, woken, ready⟩ := served (by simpa using free)
    exact (quiet _ ready).1 rfl
  have balance := run.ledger.balance lid
  have called := run.releases lid
  have none : s.ready.countP (fun r => r.1.releases = some lid) = 0 :=
    Multiset.countP_eq_zero.mpr fun r ready => (quiet r ready).2
  rw [if_pos taken] at balance
  omega

theorem waits_for_holder_contended : ∃ log s, Run log s ∧ (5, Request.acquire 2 5) ∈ s.blocked ∧
    returned log 5 < granted log 5 := by
  obtain ⟨log, s, held, _, quiet, asleep⟩ := contended
  have run := (owed_of_held held).1
  exact ⟨log, s, run, asleep, (waits_for_holder run asleep).2 (by simp [quiet])⟩

end LockServer

end Yfs.Lock
