import Mathlib.Data.Multiset.Count

/-! Calls to an object that run under its mutex and wait on condition variables. Whether a
blocked call has been signalled or not, it may wake at any time; it then goes on behind its
`wait`. -/

namespace Yfs.Lib

/-- How a call leaves the mutex: it waits on a condition, or it returns after it has signalled
at most one condition. -/
inductive Outcome (σ Cond Res : Type) where
  | wait (cond : Cond)
  | done (next : σ) (signal : Option Cond) (res : Res)
  | fault
  deriving DecidableEq, Repr

/-- The section that a call runs under the mutex, from its start or from its `wait` on. -/
abbrev Monitor (σ Op Cond Res : Type) := Op → Bool → σ → Outcome σ Cond Res

namespace Monitor

/-- The object, the calls that contend for its mutex, each with whether it has waited, and the
calls that are blocked. -/
structure State (σ Op Cond : Type) where
  shared : σ
  ready : Multiset (Op × Bool)
  blocked : Multiset (Cond × Op)

/-- What a caller sees. -/
inductive Record (Op Res : Type) where
  | call (op : Op)
  | ret (op : Op) (res : Res)
  deriving DecidableEq, Repr

variable {σ Op Cond Res : Type}

/-- The calls that have returned, with their results. -/
def returns (log : List (Record Op Res)) : List (Op × Res) :=
  log.filterMap fun
    | .call _ => none
    | .ret op res => some (op, res)

theorem returns_append (log more : List (Record Op Res)) :
    returns (log ++ more) = returns log ++ returns more := List.filterMap_append ..

@[simp] theorem returns_nil : returns ([] : List (Record Op Res)) = [] := rfl

@[simp] theorem returns_call (op : Op) : returns [(.call op : Record Op Res)] = [] := rfl

@[simp] theorem returns_ret (op : Op) (res : Res) :
    returns [(.ret op res : Record Op Res)] = [(op, res)] := rfl

/-- The calls that have been made. -/
def calls (log : List (Record Op Res)) : List Op :=
  log.filterMap fun
    | .call op => some op
    | .ret _ _ => none

theorem calls_append (log more : List (Record Op Res)) :
    calls (log ++ more) = calls log ++ calls more := List.filterMap_append ..

@[simp] theorem calls_nil : calls ([] : List (Record Op Res)) = [] := rfl

@[simp] theorem calls_call (op : Op) : calls [(.call op : Record Op Res)] = [op] := rfl

@[simp] theorem calls_ret (op : Op) (res : Res) : calls [(.ret op res : Record Op Res)] = [] := rfl

/-- One call enters, wakes, or runs its section. A signal reaches one of the calls that are
blocked on the condition, and nobody if there is none. -/
inductive Step (M : Monitor σ Op Cond Res) :
    State σ Op Cond → Option (Record Op Res) → State σ Op Cond → Prop where
  | call (op : Op) : Step M s (some (.call op)) { s with ready := (op, false) ::ₘ s.ready }
  | wake (asleep : s.blocked = (c, op) ::ₘ others) :
      Step M s none { s with ready := (op, true) ::ₘ s.ready, blocked := others }
  | wait (turn : s.ready = (op, woken) ::ₘ rest) (waits : M op woken s.shared = .wait c) :
      Step M s none { s with ready := rest, blocked := (c, op) ::ₘ s.blocked }
  | done (turn : s.ready = (op, woken) ::ₘ rest) (ends : M op woken s.shared = .done next signal res)
      (unheard : ∀ c, signal = some c → ∀ other, (c, other) ∉ s.blocked) :
      Step M s (some (.ret op res)) { s with shared := next, ready := rest }
  | signal (turn : s.ready = (op, woken) ::ₘ rest)
      (ends : M op woken s.shared = .done next (some c) res)
      (asleep : s.blocked = (c, other) ::ₘ others) :
      Step M s (some (.ret op res)) ⟨next, (other, true) ::ₘ rest, others⟩

/-- The runs in which every call is `allowed` after what has been seen so far. -/
inductive Run (M : Monitor σ Op Cond Res) (allowed : List (Record Op Res) → Op → Prop) (init : σ) :
    List (Record Op Res) → State σ Op Cond → Prop where
  | start : Run M allowed init [] ⟨init, 0, 0⟩
  | step (before : Run M allowed init log s) (step : Step M s seen t)
      (permitted : ∀ op, seen = some (.call op) → allowed log op) :
      Run M allowed init (log ++ seen.toList) t

section Rules

variable {M : Monitor σ Op Cond Res} {allowed : List (Record Op Res) → Op → Prop} {init : σ}
  {log : List (Record Op Res)} {s t : State σ Op Cond} {seen : Option (Record Op Res)}

/-- A step leaves the object alone, or it is the end of a section that returns. -/
theorem Step.cases_shared (step : Step M s seen t) :
    t.shared = s.shared ∧ (seen = none ∨ ∃ op, seen = some (.call op)) ∨
      ∃ op woken signal res, (op, woken) ∈ s.ready ∧
        M op woken s.shared = .done t.shared signal res ∧ seen = some (.ret op res) := by
  cases step with
  | call op => exact .inl ⟨rfl, .inr ⟨op, rfl⟩⟩
  | wake | wait => exact .inl ⟨rfl, .inl rfl⟩
  | done turn ends _ => exact .inr ⟨_, _, _, _, by simp [turn], ends, rfl⟩
  | signal turn ends _ => exact .inr ⟨_, _, _, _, by simp [turn], ends, rfl⟩

/-- What every section that returns keeps, of the object and the results so far, holds after
every run: the calls take effect one after the other, in the order of their returns. -/
theorem Run.recorded {P : List (Op × Res) → σ → Prop} (run : Run M allowed init log s)
    (start : P [] init)
    (keeps : ∀ {done op woken before after signal res}, P done before →
      M op woken before = .done after signal res → P (done ++ [(op, res)]) after) :
    P (returns log) s.shared := by
  induction run with
  | start => exact start
  | @step log s seen t _ step _ ih =>
    rw [returns_append]
    obtain ⟨same, rfl | ⟨op, rfl⟩⟩ | ⟨op, woken, signal, res, _, ends, rfl⟩ := step.cases_shared
    · simpa [same] using ih
    · simpa [same] using ih
    · exact keeps ih ends

/-- Every call that has been made has returned, contends for the mutex or is blocked. -/
theorem Run.conserved (p : Op → Bool) (run : Run M allowed init log s) :
    (calls log).countP p = (returns log).countP (fun r => p r.1) +
      s.ready.countP (fun r => p r.1) + s.blocked.countP (fun w => p w.2) := by
  induction run with
  | start => rfl
  | step _ step _ ih =>
    rw [calls_append, returns_append, List.countP_append, List.countP_append, ih]
    cases step with
    | call op =>
      simp [List.countP_cons, Multiset.countP_cons]
      omega
    | wake asleep =>
      simp [asleep, Multiset.countP_cons]
      omega
    | wait turn waits =>
      simp [turn, Multiset.countP_cons]
      omega
    | done turn _ _ =>
      simp [turn, List.countP_cons, Multiset.countP_cons]
      omega
    | signal turn _ asleep =>
      simp [turn, asleep, List.countP_cons, Multiset.countP_cons]
      omega

/-- What a call finds true when it waits, and every section that returns keeps, is true when it
wakes. -/
theorem Run.kept {Q : Op → σ → Prop} (run : Run M allowed init log s)
    (finds : ∀ {op woken s c}, M op woken s = .wait c → Q op s)
    (keeps : ∀ {op woken before after signal res}, M op woken before = .done after signal res →
      ∀ other, Q other before → Q other after) :
    (∀ op, (op, true) ∈ s.ready → Q op s.shared) ∧ ∀ w ∈ s.blocked, Q w.2 s.shared := by
  induction run with
  | start => exact ⟨by simp, by simp⟩
  | step _ step _ ih =>
    obtain ⟨awake, asleep⟩ := ih
    cases step with
    | call => exact ⟨by simpa using awake, asleep⟩
    | wake sleeping =>
      rw [sleeping] at asleep
      simp only [Multiset.mem_cons, forall_eq_or_imp] at asleep
      refine ⟨fun op here => ?_, asleep.2⟩
      rcases Multiset.mem_cons.mp here with same | here
      · cases same
        exact asleep.1
      · exact awake op here
    | wait turn waits =>
      rw [turn] at awake
      refine ⟨fun op here => awake op (Multiset.mem_cons_of_mem here), fun w here => ?_⟩
      rcases Multiset.mem_cons.mp here with rfl | here
      · exact finds waits
      · exact asleep w here
    | done turn ends _ =>
      rw [turn] at awake
      exact ⟨fun op here => keeps ends op (awake op (Multiset.mem_cons_of_mem here)),
        fun w here => keeps ends w.2 (asleep w here)⟩
    | signal turn ends sleeping =>
      rw [turn] at awake
      rw [sleeping] at asleep
      simp only [Multiset.mem_cons, forall_eq_or_imp] at asleep
      refine ⟨fun op here => ?_, fun w here => keeps ends w.2 (asleep.2 w here)⟩
      rcases Multiset.mem_cons.mp here with same | here
      · cases same
        exact keeps ends _ asleep.1
      · exact keeps ends op (awake op (Multiset.mem_cons_of_mem here))

/-- How the signals of a monitor match its waits. A call waits on one condition at most, its
`kind`, and only where no call that waits on it could go on; `avail` counts the calls that could.
What a section adds to the count it signals, and a call of the kind uses one up. -/
structure Signalling [DecidableEq Cond] (M : Monitor σ Op Cond Res) (P : σ → Prop)
    (kind : Op → Option Cond) (avail : Cond → σ → Nat) : Prop where
  waits : ∀ {op woken s c}, P s → M op woken s = .wait c → kind op = some c ∧ avail c s = 0
  done : ∀ {op woken s next signal res}, P s → M op woken s = .done next signal res → ∀ c,
    avail c next + (if kind op = some c then 1 else 0) ≤ avail c s + (if signal = some c then 1 else 0)

variable [DecidableEq Cond] {P : σ → Prop} {kind : Op → Option Cond} {avail : Cond → σ → Nat}

/-- The calls in contention for the mutex that may wait on `c`. -/
def attending (kind : Op → Option Cond) (c : Cond) (ready : Multiset (Op × Bool)) : Nat :=
  ready.countP fun r => kind r.1 = some c

theorem attending_cons (c : Cond) (op : Op) (woken : Bool) (ready : Multiset (Op × Bool)) :
    attending kind c ((op, woken) ::ₘ ready) =
      attending kind c ready + if kind op = some c then 1 else 0 := by
  simp [attending, Multiset.countP_cons]

/-- Where a call is blocked, those that could go on are matched by calls that are awake. -/
structure Heard (kind : Op → Option Cond) (avail : Cond → σ → Nat) (s : State σ Op Cond) : Prop where
  kinds : ∀ w ∈ s.blocked, kind w.2 = some w.1
  awake : ∀ w ∈ s.blocked, avail w.1 s.shared ≤ attending kind w.1 s.ready

theorem Step.heard (signals : Signalling M P kind avail) (proper : P s.shared)
    (heard : Heard kind avail s) (step : Step M s seen t) : Heard kind avail t := by
  cases step with
  | call op =>
    refine ⟨heard.kinds, fun w asleep => ?_⟩
    rw [attending_cons]
    exact Nat.le_add_right_of_le (heard.awake w asleep)
  | @wake c op others _ asleep =>
    have within : ∀ w ∈ others, w ∈ s.blocked := fun w here => by simp [asleep, here]
    refine ⟨fun w here => heard.kinds w (within w here), fun w here => ?_⟩
    rw [attending_cons]
    exact Nat.le_add_right_of_le (heard.awake w (within w here))
  | @wait op woken rest c _ turn waits =>
    obtain ⟨own, none⟩ := signals.waits proper waits
    refine ⟨fun w here => ?_, fun w here => ?_⟩
    · rcases Multiset.mem_cons.mp here with rfl | here
      · exact own
      · exact heard.kinds w here
    · by_cases same : w.1 = c
      · rw [same]
        exact none.le.trans (Nat.zero_le _)
      · -- The call that goes to sleep is of another kind than `w`.
        have other : kind op ≠ some w.1 := fun eq => same (by simpa [own] using eq.symm)
        rcases Multiset.mem_cons.mp here with rfl | here
        · exact absurd rfl same
        · have awake := heard.awake w here
          rw [turn, attending_cons, if_neg other] at awake
          exact awake
  | @done op woken rest next signal res _ turn ends unheard =>
    refine ⟨heard.kinds, fun w here => ?_⟩
    have awake := heard.awake w here
    have used := signals.done proper ends w.1
    rw [turn, attending_cons] at awake
    rw [if_neg fun eq : signal = some w.1 => unheard _ eq w.2 here] at used
    exact Nat.le_of_add_le_add_right (used.trans awake)
  | @signal op woken rest next c res other others _ turn ends asleep =>
    have within : ∀ w ∈ others, w ∈ s.blocked := fun w here => by simp [asleep, here]
    have reached : kind other = some c := heard.kinds (c, other) (by simp [asleep])
    refine ⟨fun w here => heard.kinds w (within w here), fun w here => ?_⟩
    have awake := heard.awake w (within w here)
    have used := signals.done proper ends w.1
    rw [turn, attending_cons] at awake
    rw [attending_cons, reached]
    dsimp only at used awake ⊢
    omega

/-- No signal is lost: at every time of every run, the calls that could go on are matched by
calls that are awake. -/
theorem Run.heard (signals : Signalling M P kind avail) (run : Run M allowed init log s)
    (start : P init)
    (keeps : ∀ {op woken before after signal res}, P before →
      M op woken before = .done after signal res → P after) : Heard kind avail s := by
  have proper : ∀ {log s}, Run M allowed init log s → P s.shared := fun {log s} run =>
    run.recorded (P := fun _ => P) start keeps
  induction run with
  | start => exact ⟨by simp, by simp⟩
  | step before step _ ih => exact step.heard signals (proper before) ih

/-- Behind a blocked call that could go on, some call of its kind is awake and will not wait. -/
theorem Heard.progress (signals : Signalling M P kind avail) (proper : P s.shared)
    (heard : Heard kind avail s) {c : Cond} {op : Op} (asleep : (c, op) ∈ s.blocked)
    (able : 0 < avail c s.shared) :
    ∃ other woken, (other, woken) ∈ s.ready ∧ kind other = some c ∧
      ∀ d, M other woken s.shared ≠ .wait d := by
  have awake : 0 < attending kind c s.ready := able.trans_le (heard.awake _ asleep)
  obtain ⟨⟨other, woken⟩, here, own⟩ := Multiset.countP_pos.mp awake
  refine ⟨other, woken, here, own, fun d waits => ?_⟩
  obtain ⟨mine, none⟩ := signals.waits proper waits
  rw [own] at mine
  cases mine
  exact Nat.ne_of_gt able none

end Rules

end Monitor

end Yfs.Lib
