/-! Computations over a state that emit events and may stop at a fault, with the
rules for what they do as long as every event they emit is an expected one, and
for which events they emit and at which faults they stop. -/

namespace Yfs.Lib

/-- From a state: the events emitted, and a result with the next state or a fault. -/
def Act (ω ε σ α : Type) := σ → List ω × Except ε (α × σ)

namespace Act

variable {ω ε σ α β : Type}

def pure (a : α) : Act ω ε σ α := fun s => ([], .ok (a, s))

def bind (m : Act ω ε σ α) (f : α → Act ω ε σ β) : Act ω ε σ β := fun s =>
  match m s with
  | (events, .error fault) => (events, .error fault)
  | (events, .ok (a, t)) => (events ++ (f a t).1, (f a t).2)

instance : Monad (Act ω ε σ) := { pure, bind }

def throw (fault : ε) : Act ω ε σ α := fun _ => ([], .error fault)

def get : Act ω ε σ σ := fun s => ([], .ok (s, s))

def modify (f : σ → σ) : Act ω ε σ Unit := fun s => ([], .ok ((), f s))

def emit (e : ω) : Act ω ε σ Unit := fun s => ([e], .ok ((), s))

/-- `if (c) m;` -/
def when (c : Prop) [Decidable c] (m : Act ω ε σ Unit) : Act ω ε σ Unit :=
  if c then m else pure ()

/-- `for (i = 0; i < n; i++)` with a variable that the body updates. -/
def loop : Nat → (Nat → β → Act ω ε σ β) → β → Act ω ε σ β
  | 0, _, b => pure b
  | n + 1, body, b => bind (loop n body b) (body n)

/-- The same computation with its faults among others. -/
def mapFault {ε' : Type} (f : ε → ε') (m : Act ω ε σ α) : Act ω ε' σ α := fun s =>
  ((m s).1, (m s).2.mapError f)

/-- If every event is expected, the computation returns and its result and final
state are related by `Q`. -/
def Meets (expected : ω → Prop) (m : Act ω ε σ α) (s : σ) (Q : α → σ → Prop) : Prop :=
  (∀ e ∈ (m s).1, expected e) → ∃ a t, (m s).2 = .ok (a, t) ∧ Q a t

variable {expected : ω → Prop} {s : σ} {Q : α → σ → Prop} {R : β → σ → Prop}

theorem Meets.pure {a : α} (holds : Q a s) :
    Meets expected (Pure.pure a : Act ω ε σ α) s Q := fun _ => ⟨a, s, rfl, holds⟩

theorem Meets.get {Q : σ → σ → Prop} (holds : Q s s) : Meets expected (get : Act ω ε σ σ) s Q :=
  fun _ => ⟨s, s, rfl, holds⟩

theorem Meets.modify {f : σ → σ} {Q : Unit → σ → Prop} (holds : Q () (f s)) :
    Meets expected (modify f : Act ω ε σ Unit) s Q := fun _ => ⟨(), f s, rfl, holds⟩

theorem Meets.mono {m : Act ω ε σ α} {Q' : α → σ → Prop} (meets : Meets expected m s Q)
    (weaker : ∀ a t, Q a t → Q' a t) : Meets expected m s Q' := by
  intro emitted
  obtain ⟨a, t, returned, holds⟩ := meets emitted
  exact ⟨a, t, returned, weaker a t holds⟩

theorem Meets.bind {m : Act ω ε σ α} {f : α → Act ω ε σ β} (first : Meets expected m s Q)
    (rest : ∀ a t, Q a t → Meets expected (f a) t R) : Meets expected (m >>= f) s R := by
  intro emitted
  change ∀ e ∈ (Act.bind m f s).1, expected e at emitted
  change ∃ b t, (Act.bind m f s).2 = .ok (b, t) ∧ R b t
  unfold Act.bind at emitted ⊢
  have returns : ∀ events, (m s).1 = events → (∀ e ∈ events, expected e) →
      ∃ a t, (m s).2 = .ok (a, t) ∧ Q a t := fun _ same all => first (same ▸ all)
  rcases outcome : m s with ⟨events, fault | ⟨a, t⟩⟩
  · rw [outcome] at emitted returns
    obtain ⟨a, t, impossible, _⟩ := returns events rfl emitted
    cases impossible
  · rw [outcome] at emitted returns
    obtain ⟨a', t', same, holds⟩ :=
      returns events rfl fun e member => emitted e (List.mem_append_left _ member)
    cases same
    exact rest a t holds fun e member => emitted e (List.mem_append_right _ member)

theorem Meets.seq {m : Act ω ε σ α} {f : α → Act ω ε σ β}
    (first : Meets expected m s fun a t => Meets expected (f a) t R) :
    Meets expected (m >>= f) s R := first.bind fun _ _ rest => rest

/-- A loop keeps an invariant that each of its rounds keeps. -/
theorem Meets.loop {body : Nat → β → Act ω ε σ β} {b : β} (inv : Nat → β → σ → Prop)
    (start : inv 0 b s) (n : Nat)
    (round : ∀ k < n, ∀ b t, inv k b t → Meets expected (body k b) t (inv (k + 1))) :
    Meets expected (Act.loop n body b) s (inv n) := by
  induction n with
  | zero => exact .pure start
  | succ n ih =>
    exact (ih fun k small => round k (Nat.lt_succ_of_lt small)).bind (round n (Nat.lt_succ_self n))

/-- The computation emits no event. -/
def Silent (m : Act ω ε σ α) : Prop := ∀ s, (m s).1 = []

theorem Silent.pure {a : α} : Silent (Pure.pure a : Act ω ε σ α) := fun _ => rfl

theorem Silent.throw {fault : ε} : Silent (throw fault : Act ω ε σ α) := fun _ => rfl

theorem Silent.get : Silent (get : Act ω ε σ σ) := fun _ => rfl

theorem Silent.modify {f : σ → σ} : Silent (modify f : Act ω ε σ Unit) := fun _ => rfl

theorem Silent.bind {m : Act ω ε σ α} {f : α → Act ω ε σ β} (first : Silent m)
    (rest : ∀ a, Silent (f a)) : Silent (m >>= f) := by
  intro s
  change (Act.bind m f s).1 = []
  have silent := first s
  unfold Act.bind
  rcases outcome : m s with ⟨events, fault | ⟨a, t⟩⟩
  · rw [outcome] at silent
    exact silent
  · rw [outcome] at silent
    change events ++ (f a t).1 = []
    rw [show events = [] from silent, rest a t]
    rfl

theorem Silent.loop {body : Nat → β → Act ω ε σ β} (round : ∀ k b, Silent (body k b)) (n : Nat)
    (b : β) : Silent (Act.loop n body b) := by
  induction n with
  | zero => exact .pure
  | succ n ih => exact ih.bind (round n)

/-- A silent computation meets its specification without any assumption. -/
theorem Meets.returns {m : Act ω ε σ α} (meets : Meets expected m s Q) (silent : Silent m) :
    ∃ a t, m s = ([], .ok (a, t)) ∧ Q a t := by
  obtain ⟨a, t, returned, holds⟩ := meets (by simp [silent s])
  exact ⟨a, t, Prod.ext (silent s) returned, holds⟩

/-- Every event is one of `sent`, and the computation returns with `Q` or stops at
one of the faults `stops`. -/
def Ensures (sent : ω → Prop) (stops : ε → Prop) (m : Act ω ε σ α) (s : σ)
    (Q : α → σ → Prop) : Prop :=
  (∀ e ∈ (m s).1, sent e) ∧ (∀ fault, (m s).2 = .error fault → stops fault) ∧
    ∀ a t, (m s).2 = .ok (a, t) → Q a t

variable {sent : ω → Prop} {stops : ε → Prop}

theorem Ensures.pure {a : α} (holds : Q a s) :
    Ensures sent stops (Pure.pure a : Act ω ε σ α) s Q := by
  refine ⟨by rintro e ⟨⟩, by rintro fault ⟨⟩, ?_⟩
  rintro _ _ ⟨⟩
  exact holds

theorem Ensures.throw {fault : ε} (allowed : stops fault) :
    Ensures sent stops (throw fault : Act ω ε σ α) s Q := by
  refine ⟨by rintro e ⟨⟩, ?_, by rintro a t ⟨⟩⟩
  rintro _ ⟨⟩
  exact allowed

theorem Ensures.get {Q : σ → σ → Prop} (holds : Q s s) :
    Ensures sent stops (get : Act ω ε σ σ) s Q := .pure holds

theorem Ensures.modify {f : σ → σ} {Q : Unit → σ → Prop} (holds : Q () (f s)) :
    Ensures sent stops (modify f : Act ω ε σ Unit) s Q := by
  refine ⟨by rintro e ⟨⟩, by rintro fault ⟨⟩, ?_⟩
  rintro _ _ ⟨⟩
  exact holds

theorem Ensures.emit {e : ω} {Q : Unit → σ → Prop} (allowed : sent e) (holds : Q () s) :
    Ensures sent stops (emit e : Act ω ε σ Unit) s Q := by
  refine ⟨?_, by rintro fault ⟨⟩, ?_⟩
  · intro e' member
    exact List.mem_singleton.mp member ▸ allowed
  · rintro _ _ ⟨⟩
    exact holds

theorem Ensures.when {c : Prop} [Decidable c] {m : Act ω ε σ Unit} {Q : Unit → σ → Prop}
    (taken : c → Ensures sent stops m s Q) (skipped : ¬ c → Q () s) :
    Ensures sent stops (when c m) s Q := by
  unfold Act.when
  split
  · exact taken ‹c›
  · exact .pure (skipped ‹¬ c›)

theorem Ensures.mono {m : Act ω ε σ α} {Q' : α → σ → Prop} (ensures : Ensures sent stops m s Q)
    (weaker : ∀ a t, Q a t → Q' a t) : Ensures sent stops m s Q' :=
  ⟨ensures.1, ensures.2.1, fun a t returned => weaker a t (ensures.2.2 a t returned)⟩

theorem Ensures.seq {m : Act ω ε σ α} {f : α → Act ω ε σ β}
    (first : Ensures sent stops m s fun a t => Ensures sent stops (f a) t R) :
    Ensures sent stops (m >>= f) s R := by
  change Ensures sent stops (Act.bind m f) s R
  unfold Ensures Act.bind
  obtain ⟨events, faults, next⟩ := first
  rcases outcome : m s with ⟨early, fault | ⟨a, t⟩⟩
  · rw [outcome] at events faults
    refine ⟨events, ?_, by rintro b u ⟨⟩⟩
    rintro _ ⟨⟩
    exact faults fault rfl
  · rw [outcome] at events next
    obtain ⟨later, failed, returned⟩ := next a t rfl
    refine ⟨?_, failed, returned⟩
    intro e member
    rcases List.mem_append.mp member with before | after
    · exact events e before
    · exact later e after

theorem Ensures.loop {body : Nat → β → Act ω ε σ β} {b : β} (inv : β → σ → Prop) (start : inv b s) (n : Nat)
    (round : ∀ k < n, ∀ b t, inv b t → Ensures sent stops (body k b) t inv) :
    Ensures sent stops (Act.loop n body b) s inv := by
  induction n with
  | zero => exact .pure start
  | succ n ih =>
    refine .seq ((ih fun k small => round k (Nat.lt_succ_of_lt small)).mono ?_)
    exact round n (Nat.lt_succ_self n)

/-- A loop runs its body for the indices below its bound only. -/
theorem loop_congr {body body' : Nat → β → Act ω ε σ β} (n : Nat)
    (same : ∀ k < n, ∀ b, body k b = body' k b) (b : β) : Act.loop n body b = Act.loop n body' b := by
  induction n with
  | zero => rfl
  | succ n ih =>
    have bodies : body n = body' n := funext (same n (Nat.lt_succ_self n))
    rw [Act.loop, Act.loop, ih fun k small => same k (Nat.lt_succ_of_lt small), bodies]

section MapFault

variable {ε' : Type} (g : ε → ε')

@[simp] theorem mapFault_pure {a : α} : mapFault g (Pure.pure a : Act ω ε σ α) = Pure.pure a := rfl

@[simp] theorem mapFault_get : mapFault g (get : Act ω ε σ σ) = get := rfl

@[simp] theorem mapFault_modify {f : σ → σ} : mapFault g (modify f : Act ω ε σ Unit) = modify f := rfl

@[simp] theorem mapFault_emit {e : ω} : mapFault g (emit e : Act ω ε σ Unit) = emit e := rfl

@[simp] theorem mapFault_bind {m : Act ω ε σ α} {f : α → Act ω ε σ β} :
    mapFault g (m >>= f) = mapFault g m >>= fun a => mapFault g (f a) := by
  funext s
  change mapFault g (Act.bind m f) s = Act.bind (mapFault g m) (fun a => mapFault g (f a)) s
  unfold mapFault Act.bind
  rcases outcome : m s with ⟨events, fault | ⟨a, t⟩⟩
  · simp only [outcome]
    rfl
  · simp only [outcome]
    rfl

theorem mapFault_stops {m : Act ω ε σ α} {fault : ε'} (stopped : (mapFault g m s).2 = .error fault) :
    ∃ early, (m s).2 = .error early ∧ g early = fault := by
  unfold mapFault at stopped
  rcases outcome : (m s).2 with early | a
  · rw [outcome] at stopped
    exact ⟨early, rfl, Except.error.inj stopped⟩
  · rw [outcome] at stopped
    cases stopped

theorem mapFault_loop {body : Nat → β → Act ω ε σ β} (n : Nat) (b : β) :
    mapFault g (Act.loop n body b) = Act.loop n (fun k b => mapFault g (body k b)) b := by
  induction n with
  | zero => rfl
  | succ n ih =>
    change mapFault g (Act.loop n body b >>= body n) = _
    rw [mapFault_bind, ih]
    rfl

end MapFault

theorem bind_assoc {γ : Type} {m : Act ω ε σ α} {f : α → Act ω ε σ β} {g : β → Act ω ε σ γ} :
    m >>= f >>= g = m >>= fun a => f a >>= g := by
  funext s
  change Act.bind (Act.bind m f) g s = Act.bind m (fun a => Act.bind (f a) g) s
  unfold Act.bind
  rcases outcome : m s with ⟨events, fault | ⟨a, t⟩⟩
  · rfl
  · rcases next : f a t with ⟨more, fault | ⟨b, u⟩⟩
    · simp only [next]
    · simp only [next, List.append_assoc]

/-- What follows a computation depends on its outcome only. -/
theorem bind_congr {m m' : Act ω ε σ α} {f : α → Act ω ε σ β} (same : m s = m' s) :
    (m >>= f) s = (m' >>= f) s := by
  change Act.bind m f s = Act.bind m' f s
  unfold Act.bind
  rw [same]

/-- A computation stops where its first part does. -/
theorem bind_stops {m : Act ω ε σ α} {f : α → Act ω ε σ β} {fault : ε}
    (stopped : (m s).2 = .error fault) : ((m >>= f) s).2 = .error fault := by
  change (Act.bind m f s).2 = .error fault
  unfold Act.bind
  rcases outcome : m s with ⟨events, early | ⟨a, t⟩⟩
  · rw [outcome] at stopped
    exact congrArg Except.error (Except.error.inj stopped)
  · rw [outcome] at stopped
    cases stopped

/-- From state `s` the computation returns `a` and leaves the state `t`. -/
def Returns (m : Act ω ε σ α) (s : σ) (a : α) (t : σ) : Prop := (m s).2 = .ok (a, t)

section Returns

variable {t u : σ} {a b : α}

@[simp] theorem returns_pure : Returns (Pure.pure a : Act ω ε σ α) s b t ↔ b = a ∧ t = s := by
  constructor
  · rintro ⟨⟩
    exact ⟨rfl, rfl⟩
  · rintro ⟨rfl, rfl⟩
    rfl

@[simp] theorem returns_throw {fault : ε} : ¬ Returns (throw fault : Act ω ε σ α) s a t := nofun

@[simp] theorem returns_get {s' : σ} : Returns (get : Act ω ε σ σ) s s' t ↔ s' = s ∧ t = s :=
  returns_pure

@[simp] theorem returns_modify {f : σ → σ} {v : Unit} :
    Returns (modify f : Act ω ε σ Unit) s v t ↔ t = f s := by
  constructor
  · rintro ⟨⟩
    rfl
  · rintro rfl
    rfl

@[simp] theorem returns_emit {e : ω} {v : Unit} :
    Returns (emit e : Act ω ε σ Unit) s v t ↔ t = s := by
  constructor
  · rintro ⟨⟩
    rfl
  · rintro rfl
    rfl

@[simp] theorem returns_bind {m : Act ω ε σ α} {f : α → Act ω ε σ β} {b : β} :
    Returns (m >>= f) s b u ↔ ∃ a t, Returns m s a t ∧ Returns (f a) t b u := by
  change (Act.bind m f s).2 = .ok (b, u) ↔ ∃ a t, (m s).2 = .ok (a, t) ∧ (f a t).2 = .ok (b, u)
  unfold Act.bind
  rcases m s with ⟨events, fault | ⟨a, t⟩⟩
  · simp
  · constructor
    · exact fun returned => ⟨a, t, rfl, returned⟩
    · rintro ⟨a', t', ⟨⟩, returned⟩
      exact returned

theorem returns_when {c : Prop} [Decidable c] {m : Act ω ε σ Unit} {v : Unit} :
    Returns (when c m) s v t ↔ c ∧ Returns m s v t ∨ ¬ c ∧ t = s := by
  by_cases holds : c
  · simp [when, holds]
  · constructor
    · intro returned
      rw [when, if_neg holds] at returned
      exact .inr ⟨holds, (returns_pure.mp returned).2⟩
    · rintro (⟨taken, _⟩ | ⟨_, rfl⟩)
      · exact absurd taken holds
      · rw [when, if_neg holds]
        rfl

end Returns

end Act

end Yfs.Lib
