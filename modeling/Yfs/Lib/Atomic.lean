import Mathlib.Logic.Relation
import Yfs.Lib.Sections
import Yfs.Lib.Serial

/-! Threads that run programs on the cells of one store. Their sections may be interleaved call by
call, and yet it is as if each of them were one step. -/

namespace Yfs.Lib

variable {L C : Type} {R : C → Type} {α Tid Job W κ : Type} [DecidableEq L]

/-- The threads without their locks, and what they have returned, the newest first. -/
structure Crew (L C : Type) (R : C → Type) (α Tid W : Type) where
  store : L → Option W
  threads : Tid → Option (Program L C R α)
  results : List α

def Pool.crew (K : Pool L C R α Tid Job (L → Option W)) : Crew L C R α Tid W :=
  ⟨K.store, fun i => (K.threads i).map Thread.rest, K.results.map Prod.snd⟩

namespace Crew

variable [DecidableEq Tid] (program : Job → Program L C R α)
  (answers : (c : C) → (L → Option W) → R c → (L → Option W) → Prop) (allowed : List α → Job → Prop)

def setThread (A : Crew L C R α Tid W) (i : Tid) (p : Option (Program L C R α)) : Crew L C R α Tid W :=
  { A with threads := Function.update A.threads i p }

/-- Threads that do all of a section in one step. They start the jobs that are allowed after the
results so far. -/
inductive Step (A : Crew L C R α Tid W) : Crew L C R α Tid W → Prop where
  | start {i : Tid} {job : Job} (idle : A.threads i = none) (may : allowed A.results job) :
      Step A (A.setThread i (some (program job)))
  | pass {i : Tid} {l : L} {body rest : Program L C R α} {s : L → Option W}
      (running : A.threads i = some (.acquire l body))
      (whole : Cells.Section answers l body A.store rest s) :
      Step A { A.setThread i (some rest) with store := s }
  | finish {i : Tid} {a : α} (running : A.threads i = some (.done a)) :
      Step A { A.setThread i none with results := a :: A.results }

def init (s : L → Option W) : Crew L C R α Tid W := ⟨s, fun _ => none, []⟩

/-- The invariant of a crew whose programs all serve. -/
structure Good (S : Cells L C R W κ) (inv : (L → Option W) → Prop) (leaky : α → Prop)
    (Q : α → (L → Option W) → Prop) (A : Crew L C R α Tid W) : Prop where
  store : inv A.store
  threads : ∀ i p, A.threads i = some p → S.Serves inv (Cells.Ends inv leaky Q) p [] A.store
  results : ∀ a ∈ A.results, Q a A.store

section Good

variable {S : Cells L C R W κ} {inv : (L → Option W) → Prop} {leaky : α → Prop}
  {Q : α → (L → Option W) → Prop} {program allowed} {A A' : Crew L C R α Tid W}
  (stable : ∀ a s t, Q a s → Grows S.kind s t → Q a t)
  (serves : ∀ results job s, inv s → (∀ a ∈ results, Q a s) → allowed results job →
    S.Serves inv (Cells.Ends inv leaky Q) (program job) [] s)
include stable

omit [DecidableEq Tid] in
theorem Good.grows (good : Good S inv leaky Q A) {s : L → Option W} (grows : Grows S.kind A.store s) :
    (∀ i p, A.threads i = some p → S.Serves inv (Cells.Ends inv leaky Q) p [] s) ∧
      ∀ a ∈ A.results, Q a s := by
  refine ⟨fun i p found => ?_, fun a member => stable a _ s (good.results a member) grows⟩
  refine (good.threads i p found).grows grows fun a ends => ?_
  exact ⟨fun inside => absurd rfl inside, stable a _ s ends.2 grows⟩

include serves

theorem Good.step (good : Good S inv leaky Q A) (step : Step program S.answers allowed A A') :
    Good S inv leaky Q A' := by
  cases step with
  | @start i job idle may =>
    refine ⟨good.store, fun j p found => ?_, good.results⟩
    by_cases same : j = i
    · subst same
      cases (Function.update_self ..).symm.trans found
      exact serves _ job _ good.store good.results may
    · exact good.threads j p ((Function.update_of_ne same ..).symm.trans found)
  | @pass i l body rest s running whole =>
    obtain ⟨-, -, inside⟩ := good.threads i _ running
    obtain ⟨kept, after, grows⟩ := whole.serves rfl (inside _ (.refl _) good.store)
    obtain ⟨threads, results⟩ := good.grows stable grows
    refine ⟨kept, fun j p found => ?_, results⟩
    by_cases same : j = i
    · subst same
      cases (Function.update_self ..).symm.trans found
      exact after
    · exact threads j p ((Function.update_of_ne same ..).symm.trans found)
  | @finish i a running =>
    refine ⟨good.store, fun j p found => ?_, ?_⟩
    · by_cases same : j = i
      · subst same
        cases (Function.update_self ..).symm.trans found
      · exact good.threads j p ((Function.update_of_ne same ..).symm.trans found)
    · intro b member
      rcases List.mem_cons.mp member with rfl | old
      · exact (good.threads i _ running).2
      · exact good.results b old

theorem Good.run (good : Good S inv leaky Q A)
    (run : Relation.ReflTransGen (Step program S.answers allowed) A A') : Good S inv leaky Q A' := by
  induction run with
  | refl => exact good
  | tail _ step ih => exact ih.step stable serves step

omit [DecidableEq Tid] stable serves in
theorem good_init {start : L → Option W} (initial : inv start) :
    Good S inv leaky Q (init start : Crew L C R α Tid W) := ⟨initial, nofun, nofun⟩

end Good

end Crew

namespace Pool

/-- The jobs that are started are allowed after the results so far. -/
def Admits {σ : Type} (allowed : List α → Job → Prop) (K K' : Pool L C R α Tid Job σ) : Prop :=
  ∀ i th, K.threads i = none → K'.threads i = some th → allowed (K.results.map Prod.snd) th.job

/-- A step that starts nothing that is not allowed. -/
def Proceeds {σ : Type} [DecidableEq Tid] (program : Job → Program L C R α)
    (answers : (c : C) → σ → R c → σ → Prop) (allowed : List α → Job → Prop)
    (K K' : Pool L C R α Tid Job σ) : Prop := Step program answers K K' ∧ Admits allowed K K'

/-- A pool and the crew it looks like. `own i` are the cells of the section that thread `i` is in,
and `view i` is the store as if no other section were under way. -/
structure Covers (S : Cells L C R W κ) (K : Pool L C R α Tid Job (L → Option W)) (A : Crew L C R α Tid W)
    (own : Tid → List L) (view : Tid → L → Option W) : Prop where
  results : A.results = K.results.map Prod.snd
  outside : ∀ i, own i = [] → A.threads i = (K.threads i).map Thread.rest
  inside : ∀ i, own i ≠ [] → ∃ l body th, A.threads i = some (.acquire l body) ∧
    K.threads i = some th ∧ S.Calls l body A.store (own i) th.rest (view i) ∧ K.holder l = some i
  kept : ∀ k, (∀ i, k ∉ own i) → K.store k = A.store k
  mine : ∀ i, ∀ k ∈ own i, K.store k = view i k
  apart : ∀ i j k, k ∈ own i → k ∈ own j → i = j

/-- Who has a lock is in its section, or somebody has left a section with its program. -/
def Held (leaky : α → Prop) (K : Pool L C R α Tid Job (L → Option W)) (own : Tid → List L) : Prop :=
  ∀ l i, K.holder l = some i → (∃ made, own i = l :: made) ∨ ∃ a ∈ K.results.map Prod.snd, leaky a

section Covers

variable [DecidableEq Tid] {S : Cells L C R W κ} {inv : (L → Option W) → Prop} {leaky : α → Prop}
  {Q : α → (L → Option W) → Prop} {K K' : Pool L C R α Tid Job (L → Option W)}
  {A : Crew L C R α Tid W} {own : Tid → List L} {view : Tid → L → Option W} {i : Tid}

omit [DecidableEq Tid] in
/-- A thread inside a section, as the crew sees it. -/
theorem Covers.serves (covers : Covers S K A own view) (good : A.Good S inv leaky Q) {th : Thread L C R α Job}
    (running : K.threads i = some th) : S.Serves inv (Cells.Ends inv leaky Q) th.rest (own i)
      (if own i = [] then A.store else view i) := by
  by_cases free : own i = []
  · have same := covers.outside i free
    rw [running] at same
    rw [if_pos free, free]
    exact good.threads i _ same
  · obtain ⟨l, body, th', before, running', calls, -⟩ := covers.inside i free
    cases running.symm.trans running'
    obtain ⟨-, -, serves⟩ := good.threads i _ before
    rw [if_neg free]
    exact calls.serves (serves _ (.refl _) good.store)

omit [DecidableEq Tid] in
/-- A cell that is there, and whose lock is free, is in no section. -/
theorem Covers.unowned (covers : Covers S K A own view) {l : L} (live : A.store l ≠ none)
    (free : K.holder l = none) : ∀ i, l ∉ own i := by
  intro i member
  obtain ⟨k, body, th, -, -, calls, holds⟩ := covers.inside i (List.ne_nil_of_mem member)
  by_cases same : l = k
  · rw [same, holds] at free
    cases free
  · exact live (calls.made l member same)

omit [DecidableEq Tid] in
/-- A cell that is not there is in no section. -/
theorem Covers.unmade (covers : Covers S K A own view) (good : A.Good S inv leaky Q) {l : L}
    (dead : K.store l = none) : ∀ i, l ∉ own i := by
  intro i member
  obtain ⟨k, body, th, before, -, calls, -⟩ := covers.inside i (List.ne_nil_of_mem member)
  have live := calls.live (good.threads i _ before).2.1 l member
  rw [← covers.mine i l member] at live
  exact live dead

omit [DecidableEq L] in
theorem apart_update (apart : ∀ i j k, k ∈ own i → k ∈ own j → i = j) {cells : List L}
    (alone : ∀ j, j ≠ i → ∀ k ∈ cells, k ∉ own j) (j m : Tid) (k : L)
    (first : k ∈ Function.update own i cells j) (second : k ∈ Function.update own i cells m) : j = m := by
  by_cases one : j = i <;> by_cases two : m = i
  · rw [one, two]
  · subst one
    rw [Function.update_self] at first
    rw [Function.update_of_ne two] at second
    exact absurd second (alone m two k first)
  · subst two
    rw [Function.update_self] at second
    rw [Function.update_of_ne one] at first
    exact absurd first (alone j one k second)
  · rw [Function.update_of_ne one] at first
    rw [Function.update_of_ne two] at second
    exact apart j m k first second

omit [DecidableEq Tid] in
/-- What is there for the crew is there. -/
theorem Covers.grows (covers : Covers S K A own view) : Grows S.kind A.store K.store := by
  intro k x found
  by_cases unowned : ∀ i, k ∉ own i
  · exact ⟨x, (covers.kept k unowned).trans found, rfl⟩
  · obtain ⟨i, member⟩ := not_forall_not.mp unowned
    obtain ⟨l, body, th, -, -, calls, -⟩ := covers.inside i (List.ne_nil_of_mem member)
    rw [covers.mine i k member]
    exact calls.grows k x found

/-- When a section is left, all that it has done becomes one step. -/
theorem Covers.commit (covers : Covers S K A own view) {l : L} {body rest : Program L C R α}
    {th th' : Thread L C R α Job} (calls : S.Calls l body A.store (own i) th.rest (view i))
    (store : K'.store = K.store) (results : K'.results = K.results) (after : K'.threads i = some th')
    (left : th'.rest = rest) (others : ∀ j, j ≠ i → K'.threads j = K.threads j)
    (holders : ∀ k j, j ≠ i → K.holder k = some j → K'.holder k = some j) :
    Covers S K' { A.setThread i (some rest) with store := view i } (Function.update own i [])
      (fun j => Cells.overlay (own j) (view j) (view i)) := by
  have foreign : ∀ j, j ≠ i → ∀ k ∈ own j, k ∉ own i := fun j other k member here =>
    other (covers.apart j i k member here)
  refine ⟨results ▸ covers.results, ?_, ?_, ?_, ?_, ?_⟩
  · intro j free
    by_cases same : j = i
    · subst same
      simp [Crew.setThread, after, left]
    · rw [Function.update_of_ne same] at free
      simp [Crew.setThread, same, others j same, covers.outside j free]
  · intro j busy
    have other : j ≠ i := by
      rintro rfl
      simp at busy
    rw [Function.update_of_ne other] at busy ⊢
    obtain ⟨k, body', th'', waits, running, made, holds⟩ := covers.inside j busy
    refine ⟨k, body', th'', ?_, (others j other).trans running, ?_, holders k j other holds⟩
    · simpa [Crew.setThread, other] using waits
    · refine made.rebase fun m member => ?_
      exact calls.others m (foreign j other m member)
  · intro k free
    rw [store]
    by_cases member : k ∈ own i
    · exact covers.mine i k member
    · have unowned : ∀ j, k ∉ own j := by
        intro j
        by_cases same : j = i
        · rw [same]
          exact member
        · simpa [same] using free j
      exact (covers.kept k unowned).trans (calls.others k member).symm
  · intro j k member
    by_cases same : j = i
    · subst same
      simp at member
    · rw [Function.update_of_ne same] at member
      rw [store, covers.mine j k member]
      simp [Cells.overlay, member]
  · exact apart_update covers.apart (by simp)

/-- A section begins. -/
theorem Covers.enter (covers : Covers S K A own view) (good : A.Good S inv leaky Q) {l : L} {job : Job}
    {rest : Program L C R α} {n : Nat} (running : K.threads i = some ⟨job, .acquire l rest, n⟩)
    (free : K.holder l = none) (store : K'.store = K.store) (results : K'.results = K.results)
    {th : Thread L C R α Job} (after : K'.threads i = some th) (entered : th.rest = rest)
    (others : ∀ j, j ≠ i → K'.threads j = K.threads j) (takes : K'.holder l = some i)
    (holders : ∀ k, k ≠ l → K'.holder k = K.holder k) :
    Covers S K' A (Function.update own i [l]) (Function.update view i A.store) := by
  have serves := covers.serves good running
  have idle : own i = [] := serves.1
  rw [if_pos idle] at serves
  have before := covers.outside i idle
  rw [running] at before
  have unowned := covers.unowned serves.2.1 free
  refine ⟨results ▸ covers.results, ?_, ?_, ?_, ?_, ?_⟩
  · intro j none
    have other : j ≠ i := by
      rintro rfl
      simp at none
    rw [Function.update_of_ne other] at none
    rw [others j other, covers.outside j none]
  · intro j busy
    by_cases same : j = i
    · subst same
      refine ⟨l, rest, th, before, after, ?_, takes⟩
      simp only [Function.update_self, entered]
      exact .nil
    · rw [Function.update_of_ne same] at busy
      obtain ⟨k, body, th', waits, running', calls, holds⟩ := covers.inside j busy
      have apart : k ≠ l := by
        rintro rfl
        cases holds.symm.trans free
      refine ⟨k, body, th', waits, (others j same).trans running', ?_, (holders k apart).trans holds⟩
      simpa [same] using calls
  · intro k none
    rw [store]
    refine covers.kept k fun j => ?_
    by_cases same : j = i
    · rw [same, idle]
      simp
    · simpa [same] using none j
  · intro j k member
    by_cases same : j = i
    · subst same
      simp only [Function.update_self, List.mem_singleton] at member
      rw [store, Function.update_self, member]
      exact covers.kept l unowned
    · rw [Function.update_of_ne same] at member
      rw [store, Function.update_of_ne same, covers.mine j k member]
  · refine apart_update covers.apart fun j _ k member => ?_
    rw [List.mem_singleton.mp member]
    exact unowned j

/-- A section makes a call. -/
theorem Covers.advance (covers : Covers S K A own view) (good : A.Good S inv leaky Q) {job : Job} {c : C}
    {next : R c → Program L C R α} {n : Nat} {r : R c} {s : L → Option W}
    (running : K.threads i = some ⟨job, .call c next, n⟩) (answered : S.answers c K.store r s)
    (store : K'.store = s) (results : K'.results = K.results) {th : Thread L C R α Job}
    (after : K'.threads i = some th) (moved : th.rest = next r)
    (others : ∀ j, j ≠ i → K'.threads j = K.threads j) (holders : K'.holder = K.holder) :
    ∃ view', Covers S K' A (Function.update own i (S.grow (own i) c r)) view' := by
  obtain ⟨busy, allows, -, -⟩ := covers.serves good running
  obtain ⟨l, body, th', before, running', calls, holds⟩ := covers.inside i busy
  cases running.symm.trans running'
  obtain ⟨m, only, member⟩ := Cells.touches allows answered
  -- The section sees the cell that the call touches as it is, and no other section has it.
  have agree : view i m = K.store m := by
    rcases member with ⟨mem, -⟩ | ⟨dead, -⟩
    · exact (covers.mine i m mem).symm
    · have unmade := covers.unmade good dead
      rw [calls.others m (unmade i), covers.kept m unmade]
  have foreign : ∀ j, j ≠ i → m ∉ own j := by
    intro j other here
    rcases member with ⟨mem, -⟩ | ⟨dead, -⟩
    · exact other (covers.apart j i m here mem)
    · exact covers.unmade good dead j here
  have grown : ∀ k, k ∈ S.grow (own i) c r → k ∈ own i ∨ k = m := by
    intro k
    rcases member with ⟨-, same⟩ | ⟨-, same⟩ <;> rw [same]
    · exact .inl
    · simp
  have stays : ∀ k, k ∈ own i → k ∈ S.grow (own i) c r := by
    intro k
    rcases member with ⟨-, same⟩ | ⟨-, same⟩ <;> rw [same]
    · exact id
    · exact List.mem_append_left _
  have here : m ∈ S.grow (own i) c r := by
    rcases member with ⟨mem, -⟩ | ⟨-, same⟩
    · exact stays m mem
    · rw [same]
      simp
  have step : S.answers c (view i) r (Function.update (view i) m (s m)) := only.anywhere answered _ agree
  refine ⟨Function.update view i (Function.update (view i) m (s m)), results ▸ covers.results, ?_, ?_, ?_,
    ?_, ?_⟩
  · intro j none
    have other : j ≠ i := by
      rintro rfl
      rw [Function.update_self] at none
      rw [none] at here
      cases here
    rw [Function.update_of_ne other] at none
    rw [others j other, covers.outside j none]
  · intro j occupied
    rw [holders]
    by_cases same : j = i
    · subst same
      refine ⟨l, body, th, before, after, ?_, holds⟩
      simp only [Function.update_self, moved]
      exact calls.snoc allows step
    · rw [Function.update_of_ne same] at occupied
      obtain ⟨k, body', th', waits, running', made, holds'⟩ := covers.inside j occupied
      refine ⟨k, body', th', waits, (others j same).trans running', ?_, holds'⟩
      simpa [same] using made
  · intro k none
    have self := none i
    rw [Function.update_self] at self
    have apart : k ≠ m := fun equal => self (equal ▸ here)
    rw [store, only.others answered k apart]
    refine covers.kept k fun j => ?_
    by_cases same : j = i
    · rw [same]
      exact fun old => self (stays k old)
    · simpa [same] using none j
  · intro j k mem
    rw [store]
    by_cases same : j = i
    · subst same
      rw [Function.update_self] at mem ⊢
      by_cases touched : k = m
      · rw [touched, Function.update_self]
      · rw [Function.update_of_ne touched, only.others answered k touched]
        exact covers.mine j k ((grown k mem).resolve_right touched)
    · rw [Function.update_of_ne same] at mem ⊢
      have apart : k ≠ m := fun equal => foreign j same (equal ▸ mem)
      rw [only.others answered k apart, covers.mine j k mem]
  · refine apart_update covers.apart fun j other k mem theirs => ?_
    rcases grown k mem with old | rfl
    · exact other (covers.apart j i k theirs old)
    · exact foreign j other theirs

omit [DecidableEq Tid] in
/-- A section gets an answer from the cells it has. -/
theorem Covers.answered (covers : Covers S K A own view) (good : A.Good S inv leaky Q) {job : Job} {c : C}
    {next : R c → Program L C R α} {n : Nat} (running : K.threads i = some ⟨job, .call c next, n⟩)
    (old : S.scope c ≠ .fresh) : ∃ r t, S.answers c K.store r t := by
  obtain ⟨busy, allows, answer, -⟩ := covers.serves good running
  rw [if_neg busy] at answer
  obtain ⟨r, t, answered⟩ := answer old
  unfold Cells.Allows at allows
  split at allows
  · rename_i l scope
    exact ⟨r, _, (S.cell scope r).anywhere answered _ (covers.mine i l allows)⟩
  · rename_i scope
    exact absurd scope old
  · exact allows.elim

variable {program : Job → Program L C R α} {allowed : List α → Job → Prop}

/-- What one step is to the crew: nothing, a step, or a section that ends with its program. -/
theorem Covers.step (covers : Covers S K A own view) (good : A.Good S inv leaky Q)
    (held : K.Held leaky own) (admits : Admits allowed K K') (step : Step program S.answers K K') :
    ∃ A' own' view', Relation.ReflTransGen (Crew.Step program S.answers allowed) A A' ∧
      Covers S K' A' own' view' ∧ K'.Held leaky own' := by
  cases step with
  | @start i job idle =>
    have outside : own i = [] := by
      by_contra busy
      obtain ⟨l, body, th, -, running, -⟩ := covers.inside i busy
      cases idle.symm.trans running
    have free := covers.outside i outside
    rw [idle] at free
    have may := admits i _ idle (Function.update_self ..)
    rw [← covers.results] at may
    refine ⟨_, own, view, .single (.start free may), ⟨covers.results, ?_, ?_, covers.kept, covers.mine,
      covers.apart⟩, held⟩
    · intro j none
      by_cases same : j = i
      · simp [Crew.setThread, setThread, same]
      · simpa [Crew.setThread, setThread, same] using covers.outside j none
    · intro j busy
      have other : j ≠ i := by
        rintro rfl
        exact busy outside
      simpa [Crew.setThread, setThread, other] using covers.inside j busy
  | @acquire i job l rest n running free =>
    have idle : own i = [] := (covers.serves good running).1
    refine ⟨A, _, _, .refl, covers.enter good running free rfl rfl (Function.update_self ..) rfl ?_
      (Function.update_self ..) ?_, fun k j holds => ?_⟩
    · exact fun j other => Function.update_of_ne other ..
    · exact fun k other => Function.update_of_ne other ..
    · by_cases same : k = l
      · subst same
        cases (Function.update_self ..).symm.trans holds
        exact .inl ⟨[], Function.update_self ..⟩
      · rcases held k j ((Function.update_of_ne same ..).symm.trans holds) with ⟨made, head⟩ | leak
        · have other : j ≠ i := by
            rintro rfl
            cases idle.symm.trans head
          exact .inl ⟨made, (Function.update_of_ne other ..).trans head⟩
        · exact .inr leak
  | @release i job l rest n running =>
    have serves := covers.serves good running
    have busy : own i ≠ [] := by
      intro none
      rw [none] at serves
      cases serves.1
    obtain ⟨k, body, th, before, running', calls, holds⟩ := covers.inside i busy
    cases running.symm.trans running'
    obtain ⟨made, head⟩ := calls.head
    have same : k = l := by simpa [head] using serves.1
    subst same
    refine ⟨_, _, _, .single (.pass before (calls.section_of .release)),
      covers.commit calls rfl rfl (Function.update_self ..) rfl ?_ ?_, fun m j takes => ?_⟩
    · exact fun j other => Function.update_of_ne other ..
    · intro m j other theirs
      have apart : m ≠ k := by
        rintro rfl
        exact other (Option.some.inj (theirs.symm.trans holds))
      exact (Function.update_of_ne apart ..).trans theirs
    · have apart : m ≠ k := by
        rintro rfl
        cases (Function.update_self ..).symm.trans takes
      rcases held m j ((Function.update_of_ne apart ..).symm.trans takes) with ⟨rest, first⟩ | leak
      · have other : j ≠ i := by
          rintro rfl
          cases head.symm.trans first
          exact apart rfl
        exact .inl ⟨rest, (Function.update_of_ne other ..).trans first⟩
      · exact .inr leak
  | @call i job c next n r s running answered =>
    have after : ∃ view', Covers S { K.setThread i (some ⟨job, next r, n⟩) with store := s } A
        (Function.update own i (S.grow (own i) c r)) view' :=
      covers.advance good running answered rfl rfl (Function.update_self ..) rfl
        (fun j other => Function.update_of_ne other ..) rfl
    obtain ⟨view', after⟩ := after
    refine ⟨A, _, view', .refl, after, fun k j holds => ?_⟩
    rcases held k j holds with ⟨made, head⟩ | leak
    · by_cases same : j = i
      · subst same
        have first : (S.grow (own j) c r).head? = some k := S.head_grow (by rw [head]; rfl) c r
        obtain ⟨made', first⟩ := List.head?_eq_some_iff.mp first
        exact .inl ⟨made', (Function.update_self ..).trans first⟩
      · exact .inl ⟨made, (Function.update_of_ne same ..).trans head⟩
    · exact .inr leak
  | @finish i job a n running =>
    -- The thread leaves its section with its program, if it is in one.
    have left : ∃ A' own' view', Relation.ReflTransGen (Crew.Step program S.answers allowed) A A' ∧
        Covers S K A' own' view' ∧ own' i = [] ∧ (own i ≠ [] → leaky a) ∧
          ∀ j, j ≠ i → own' j = own j := by
      by_cases none : own i = []
      · exact ⟨A, own, view, .refl, covers, none, fun busy => absurd none busy, fun _ _ => rfl⟩
      · obtain ⟨l, body, th, before, running', calls, -⟩ := covers.inside i none
        cases running.symm.trans running'
        have leak := ((covers.serves good running).1 none).2
        exact ⟨_, _, _, .single (.pass before (calls.section_of .left)),
          covers.commit calls rfl rfl running rfl (fun _ _ => rfl) (fun _ _ _ => id),
          Function.update_self .., fun _ => leak, fun j other => Function.update_of_ne other ..⟩
    obtain ⟨A', own', view', steps, covers', outside, leak, others⟩ := left
    have done := covers'.outside i outside
    rw [running] at done
    refine ⟨_, own', view', steps.tail (.finish done), ⟨?_, ?_, ?_, covers'.kept, covers'.mine,
      covers'.apart⟩, fun l j holds => ?_⟩
    · simp [covers'.results]
    · intro j none
      by_cases same : j = i
      · simp [Crew.setThread, setThread, same]
      · simpa [Crew.setThread, setThread, same] using covers'.outside j none
    · intro j busy
      have other : j ≠ i := by
        rintro rfl
        exact busy outside
      simpa [Crew.setThread, setThread, other] using covers'.inside j busy
    · rcases held l j holds with ⟨made, head⟩ | ⟨b, member, leaks⟩
      · by_cases same : j = i
        · subst same
          exact .inr ⟨a, by simp, leak (by simp [head])⟩
        · exact .inl ⟨made, (others j same).trans head⟩
      · exact .inr ⟨b, List.mem_cons_of_mem a member, leaks⟩

omit [DecidableEq Tid] in
/-- The crew has no section under way, so it is the pool itself when the pool has none. -/
theorem Covers.eq_crew (covers : Covers S K A own view)
    (quiet : ∀ i th l, K.threads i = some th → K.holder l ≠ some i) : A = K.crew := by
  have outside : ∀ i, own i = [] := by
    intro i
    by_contra busy
    obtain ⟨l, body, th, -, running, -, holds⟩ := covers.inside i busy
    exact quiet i th l running holds
  have store : A.store = K.store := funext fun k => (covers.kept k (by simp [outside])).symm
  have threads : A.threads = fun i => (K.threads i).map Thread.rest :=
    funext fun i => covers.outside i (outside i)
  calc A = ⟨A.store, A.threads, A.results⟩ := rfl
    _ = K.crew := by rw [store, threads, covers.results, crew]

end Covers

/-- A crew as the threads of a pool can tell: it has returned the same results, and its threads are
where those of the pool are or, if they are inside a section, before it. -/
structure Looks (K : Pool L C R α Tid Job (L → Option W)) (A : Crew L C R α Tid W) : Prop where
  results : A.results = K.results.map Prod.snd
  threads : ∀ i, A.threads i = (K.threads i).map Thread.rest ∨
    ∃ l body, A.threads i = some (.acquire l body) ∧ K.holder l = some i
  quiet : (∀ i th l, K.threads i = some th → K.holder l ≠ some i) → A = K.crew

theorem Covers.looks {S : Cells L C R W κ} {K : Pool L C R α Tid Job (L → Option W)}
    {A : Crew L C R α Tid W} {own : Tid → List L} {view : Tid → L → Option W}
    (covers : Covers S K A own view) : K.Looks A := by
  refine ⟨covers.results, fun i => ?_, covers.eq_crew⟩
  by_cases free : own i = []
  · exact .inl (covers.outside i free)
  · obtain ⟨l, body, th, before, -, -, holds⟩ := covers.inside i free
    exact .inr ⟨l, body, before, holds⟩

section Runs

variable [DecidableEq Tid] {S : Cells L C R W κ} {inv : (L → Option W) → Prop} {leaky : α → Prop}
  {Q : α → (L → Option W) → Prop} {K K' : Pool L C R α Tid Job (L → Option W)}
  {program : Job → Program L C R α} {allowed : List α → Job → Prop} {start : L → Option W}

variable (stable : ∀ a s t, Q a s → Grows S.kind s t → Q a t)
  (serves : ∀ results job s, inv s → (∀ a ∈ results, Q a s) → allowed results job →
    S.Serves inv (Cells.Ends inv leaky Q) (program job) [] s)
include stable serves

theorem Covers.run {A : Crew L C R α Tid W} {own : Tid → List L} {view : Tid → L → Option W}
    (covers : Covers S K A own view) (good : A.Good S inv leaky Q) (held : K.Held leaky own)
    (run : Relation.ReflTransGen (Proceeds program S.answers allowed) K K') : ∃ A' own' view',
      Relation.ReflTransGen (Crew.Step program S.answers allowed) A A' ∧ Covers S K' A' own' view' ∧
        A'.Good S inv leaky Q ∧ K'.Held leaky own' := by
  induction run with
  | refl => exact ⟨A, own, view, .refl, covers, good, held⟩
  | tail _ step ih =>
    obtain ⟨A₁, own₁, view₁, steps, covers₁, good₁, held₁⟩ := ih
    obtain ⟨A₂, own₂, view₂, more, covers₂, held₂⟩ := covers₁.step good₁ held₁ step.2 step.1
    exact ⟨A₂, own₂, view₂, steps.trans more, covers₂, good₁.run stable serves more, held₂⟩

omit [DecidableEq Tid] stable serves in
theorem covers_init : Covers S (init start : Pool L C R α Tid Job (L → Option W))
    (Crew.init start) (fun _ => []) (fun _ => start) :=
  ⟨rfl, fun _ _ => rfl, fun _ busy => absurd rfl busy, fun _ _ => rfl, nofun, nofun⟩

end Runs

end Pool

end Yfs.Lib
