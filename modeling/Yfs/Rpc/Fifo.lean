import Yfs.Lib.Monitor

/-! The bounded queue of `fifo.h` between any number of threads that put elements in and take
them out. -/

namespace Yfs.Rpc.Fifo

open Yfs.Lib Monitor

variable {α : Type}

/-- `non_empty_c_` and `has_space_c_`. -/
inductive Cond where
  | nonEmpty | hasSpace
  deriving DecidableEq, Repr

inductive Op (α : Type) where
  | enq (e : α) (blocking : Bool)
  | deq
  | size
  deriving DecidableEq, Repr

/-- What a call returns, or has stored behind its pointer argument. -/
inductive Result (α : Type) where
  | enqueued (ok : Bool)
  | dequeued (e : α)
  | sized (r : Bool)
  deriving DecidableEq, Repr

/-- The body of the loop in `fifo::enq`. A capacity of zero is none. -/
def enq (max : UInt32) (e : α) (blocking : Bool) (q : List α) : Outcome (List α) Cond (Result α) :=
  if max = 0 ∨ q.length < max.toNat then .done (q ++ [e]) (some .nonEmpty) (.enqueued true)
  else if blocking then .wait .hasSpace
  else .done q none (.enqueued false)

/-- The body of the loop in `fifo::deq`. -/
def deq (max : UInt32) : List α → Outcome (List α) Cond (Result α)
  | [] => .wait .nonEmpty
  | e :: q =>
    .done q (if max ≠ 0 ∧ q.length < max.toNat then some .hasSpace else none) (.dequeued e)

/-- `fifo::size` returns its `size_t` as a `bool`. -/
def size (q : List α) : Outcome (List α) Cond (Result α) := .done q none (.sized (q.length ≠ 0))

/-- A loop that has waited begins its next round. -/
def fifo (max : UInt32) : Monitor (List α) (Op α) Cond (Result α)
  | .enq e blocking, _ => enq max e blocking
  | .deq, _ => deq max
  | .size, _ => size

/-- Threads may call at any time. -/
abbrev Run (max : UInt32) := Monitor.Run (@fifo α max) (fun _ _ => True) []

/-- The element that a call has put into the queue. -/
def entered : Op α × Result α → Option α
  | (.enq e _, .enqueued true) => some e
  | _ => none

/-- The element that a call has taken out of the queue. -/
def taken : Op α × Result α → Option α
  | (_, .dequeued e) => some e
  | _ => none

variable {max : UInt32} {log : List (Record (Op α) (Result α))} {s : State (List α) (Op α) Cond}

/-- What a call that returns does to the queue. -/
theorem fifo_cases {op : Op α} {woken : Bool} {q next : List α} {signal : Option Cond}
    {res : Result α} (ends : fifo max op woken q = .done next signal res) :
    (∃ e blocking, op = .enq e blocking ∧ (max = 0 ∨ q.length < max.toNat) ∧ next = q ++ [e] ∧
      signal = some .nonEmpty ∧ res = .enqueued true) ∨
    (∃ e, op = .enq e false ∧ max ≠ 0 ∧ max.toNat ≤ q.length ∧ next = q ∧ signal = none ∧
      res = .enqueued false) ∨
    (∃ e, op = .deq ∧ q = e :: next ∧ res = .dequeued e ∧
      signal = if max ≠ 0 ∧ next.length < max.toNat then some .hasSpace else none) ∨
    op = .size ∧ next = q ∧ signal = none ∧ res = .sized (q.length ≠ 0) := by
  cases op with
  | enq e blocking =>
    simp only [fifo, enq] at ends
    split at ends
    · rename_i room
      cases ends
      exact .inl ⟨e, blocking, rfl, room, rfl, rfl, rfl⟩
    · rename_i full
      obtain ⟨limited, behind⟩ := not_or.mp full
      cases blocking with
      | true => cases ends
      | false =>
        cases ends
        exact .inr (.inl ⟨e, rfl, limited, Nat.le_of_not_lt behind, rfl, rfl, rfl⟩)
  | deq =>
    cases q with
    | nil => cases ends
    | cons e q =>
      cases ends
      exact .inr (.inr (.inl ⟨e, rfl, rfl, rfl, rfl⟩))
  | size =>
    cases ends
    exact .inr (.inr (.inr ⟨rfl, rfl, rfl, rfl⟩))

/-- A queue with a capacity does not exceed it. -/
def Within (max : UInt32) (q : List α) : Prop := max ≠ 0 → q.length ≤ max.toNat

theorem Within.keeps {op : Op α} {woken : Bool} {q next : List α} {signal : Option Cond}
    {res : Result α} (within : Within max q) (ends : fifo max op woken q = .done next signal res) :
    Within max next := by
  intro limited
  have bound := within limited
  obtain ⟨e, _, rfl, room, rfl, _⟩ | ⟨_, rfl, _, _, rfl, _⟩ | ⟨e, rfl, rfl, _⟩ | ⟨rfl, rfl, _⟩ :=
    fifo_cases ends
  · rw [List.length_append, List.length_singleton]
    exact room.resolve_left limited
  · exact bound
  · exact (Nat.le_succ _).trans bound
  · exact bound

theorem within_run (run : Run max log s) : Within max s.shared :=
  run.recorded (P := fun _ => Within max) (fun _ => Nat.zero_le _) Within.keeps

/-- Elements leave the queue in the order in which they entered it, each of them once, and the
queue never exceeds its capacity. -/
theorem ordered (run : Run max log s) :
    (returns log).filterMap entered = (returns log).filterMap taken ++ s.shared ∧
      Within max s.shared := by
  refine ⟨run.recorded (P := fun done q => done.filterMap entered = done.filterMap taken ++ q) rfl ?_,
    within_run run⟩
  intro done op woken q next signal res before ends
  rw [List.filterMap_append, List.filterMap_append, before]
  obtain ⟨e, _, rfl, _, rfl, _, rfl⟩ | ⟨_, rfl, _, _, rfl, _, rfl⟩ | ⟨e, rfl, rfl, rfl, _⟩ |
    ⟨rfl, rfl, _, rfl⟩ := fifo_cases ends
  all_goals simp [entered, taken, List.filterMap_cons]

/-- Two elements for a queue with one place: the second `enq` waits. -/
private theorem stalled : Run 1 [.call (.enq 7 true), .ret (.enq 7 true) (.enqueued true),
    .call (.enq 8 true)] ⟨[7], 0, (.hasSpace, .enq 8 true) ::ₘ 0⟩ := by
  have fresh : Run 1 [] ⟨([] : List Nat), 0, 0⟩ := .start
  have called := fresh.step (.call (.enq 7 true)) (fun _ _ => trivial)
  have stored : Run 1 _ ⟨[7], 0, 0⟩ := called.step (.done rfl rfl (by simp)) (by simp)
  have again := stored.step (.call (.enq 8 true)) (fun _ _ => trivial)
  exact again.step (.wait rfl rfl) (by simp)

theorem ordered_resumed : ∃ log s, Run 1 log s ∧ (returns log).filterMap taken = [7] ∧
    (returns log).filterMap entered = [7, 8] ∧ s.shared = [8] ∧ Within 1 s.shared := by
  have called := stalled.step (.call .deq) (fun _ _ => trivial)
  have signalled : Run 1 _ ⟨[], (.enq 8 true, true) ::ₘ 0, 0⟩ :=
    called.step (.signal rfl rfl rfl) (by simp)
  have resumed : Run 1 _ ⟨[8], 0, 0⟩ := signalled.step (.done rfl rfl (by simp)) (by simp)
  exact ⟨_, _, resumed, rfl, (ordered resumed).1, rfl, (ordered resumed).2⟩

/-- The condition on which a call may wait: consumers wait for an element, and producers for
space if there is a capacity. -/
def waitsOn (max : UInt32) : Op α → Option Cond
  | .enq _ true => if max = 0 then none else some .hasSpace
  | .enq _ false | .size => none
  | .deq => some .nonEmpty

/-- How many waiting calls could go on: one for every element or every free place. -/
def available (max : UInt32) : Cond → List α → Nat
  | .nonEmpty, q => q.length
  | .hasSpace, q => max.toNat - q.length

/-- One signal for each element and one for each free place is enough. -/
theorem signalling : Signalling (@fifo α max) (Within max) (waitsOn max) (available max) where
  waits := by
    intro op woken q c within waits
    cases op with
    | enq e blocking =>
      simp only [fifo, enq] at waits
      split at waits
      · cases waits
      · rename_i full
        obtain ⟨limited, behind⟩ := not_or.mp full
        cases blocking with
        | false => cases waits
        | true =>
          cases waits
          exact ⟨if_neg limited, Nat.sub_eq_zero_of_le (Nat.le_of_not_lt behind)⟩
    | deq =>
      cases q with
      | nil =>
        cases waits
        exact ⟨rfl, rfl⟩
      | cons e q => cases waits
    | size => cases waits
  done := by
    intro op woken q next signal res within ends c
    obtain ⟨e, blocking, rfl, room, rfl, rfl, _⟩ | ⟨e, rfl, limited, full, rfl, rfl, _⟩ |
      ⟨e, rfl, rfl, _, rfl⟩ | ⟨rfl, rfl, rfl, _⟩ := fifo_cases ends
    · cases c with
      | nonEmpty => cases blocking <;> simp [available, waitsOn]
      | hasSpace =>
        cases blocking with
        | false => simp [available, waitsOn]; omega
        | true =>
          by_cases unlimited : max = 0
          · simp [available, waitsOn, unlimited]
          · have space := room.resolve_left unlimited
            simp [available, waitsOn, unlimited]
            omega
    · cases c <;> simp [available, waitsOn]
    · cases c with
      | nonEmpty => simp [available, waitsOn]
      | hasSpace =>
        by_cases unlimited : max = 0
        · simp [available, waitsOn, unlimited]
        · have bound := within unlimited
          rw [List.length_cons] at bound
          have short : next.length < max.toNat := bound
          simp [available, waitsOn, unlimited, short]
          omega
    · cases c <;> simp [available, waitsOn]

/-- The calls of `deq` that contend for the mutex. -/
def consumers (s : State (List α) (Op α) Cond) : Nat :=
  s.ready.countP fun r => r.1 matches .deq

/-- The blocking calls of `enq` that contend for the mutex. -/
def producers (s : State (List α) (Op α) Cond) : Nat :=
  s.ready.countP fun r => r.1 matches .enq _ true

/-- No wake-up is lost. While a consumer is blocked there is an awake one for every element of
the queue, and while a producer is blocked there is an awake one for every free place. So when
every thread is blocked, they all wait for an element of an empty queue, or all for space in a
full one. -/
theorem never_stuck (run : Run max log s) :
    (∀ op, (.nonEmpty, op) ∈ s.blocked → s.shared.length ≤ consumers s) ∧
    (∀ op, (.hasSpace, op) ∈ s.blocked → max.toNat - s.shared.length ≤ producers s) ∧
    (s.ready = 0 → (∀ w ∈ s.blocked, w.1 = .nonEmpty ∧ s.shared = []) ∨
      ∀ w ∈ s.blocked, w.1 = .hasSpace ∧ s.shared.length = max.toNat) := by
  have heard := run.heard signalling (P := Within max) (fun _ => Nat.zero_le _) Within.keeps
  have elements : ∀ op, (.nonEmpty, op) ∈ s.blocked → s.shared.length ≤ consumers s := by
    intro op asleep
    refine (heard.awake _ asleep).trans (Nat.le_of_eq (Multiset.countP_congr rfl ?_))
    rintro ⟨op, woken⟩ _
    rcases op with ⟨e, _ | _⟩ | _ | _ <;> simp [waitsOn]
  have limited : ∀ op, (.hasSpace, op) ∈ s.blocked → max ≠ 0 := by
    intro op asleep unlimited
    have own := heard.kinds _ asleep
    rcases op with ⟨e, _ | _⟩ | _ | _ <;> simp [waitsOn, unlimited] at own
  have places : ∀ op, (.hasSpace, op) ∈ s.blocked → max.toNat - s.shared.length ≤ producers s := by
    intro op asleep
    refine (heard.awake _ asleep).trans (Nat.le_of_eq (Multiset.countP_congr rfl ?_))
    rintro ⟨op, woken⟩ _
    rcases op with ⟨e, _ | _⟩ | _ | _ <;> simp [waitsOn, limited _ asleep]
  refine ⟨elements, places, fun nobody => ?_⟩
  have none : consumers s = 0 ∧ producers s = 0 := by simp [consumers, producers, nobody]
  have empty : ∀ op, (.nonEmpty, op) ∈ s.blocked → s.shared = [] := fun op asleep =>
    List.length_eq_zero_iff.mp (Nat.le_zero.mp (none.1 ▸ elements op asleep))
  have full : ∀ op, (.hasSpace, op) ∈ s.blocked → s.shared.length = max.toNat := by
    intro op asleep
    have space := places op asleep
    have within := within_run run (limited op asleep)
    rw [none.2] at space
    omega
  by_cases producer : ∃ op, (.hasSpace, op) ∈ s.blocked
  · obtain ⟨op, asleep⟩ := producer
    right
    rintro ⟨_ | _, other⟩ here
    · -- A consumer would sleep beside it only if the capacity were zero.
      have zero := full op asleep
      rw [empty other here] at zero
      exact absurd (UInt32.toNat_inj.mp zero.symm) (limited op asleep)
    · exact ⟨rfl, full other here⟩
  · left
    rintro ⟨_ | _, other⟩ here
    · exact ⟨rfl, empty other here⟩
    · exact absurd ⟨other, here⟩ producer

theorem never_stuck_stalled : ∃ log, ∃ s : State (List Nat) (Op Nat) Cond, Run 1 log s ∧ s.ready = 0 ∧
    ∀ w ∈ s.blocked, w.1 = .hasSpace ∧ s.shared.length = (1 : UInt32).toNat :=
  ⟨_, _, stalled, rfl, ((never_stuck stalled).2.2 rfl).resolve_left (by simp)⟩

end Yfs.Rpc.Fifo
