import Yfs.Lock.Cluster

/-! Threads that are given no new jobs come to the end of their work. -/

namespace Yfs.Lock

open Yfs.Lib

namespace LockSys

variable {Cid Tid : Type} [LinearOrder Cid] [DecidableEq Tid] {s t : LockSys Cid Tid} {x : Cid × Tid}
  {C C' : Finset Cid} {F F' : Finset (Cid × Tid)}

omit [LinearOrder Cid] [DecidableEq Tid] in
theorem Covers.mono (covers : Covers C F s) (clients : C ⊆ C') (threads : F ⊆ F') : Covers C' F' s :=
  ⟨fun y inside => threads (covers.threads y inside), fun c present => clients (covers.clients c present)⟩

/-- A new call of a thread in `F`. -/
theorem Covers.acquire (covers : Covers C F s) (thread : x ∈ F) (client : x.1 ∈ C)
    (taken : s.step (.acquire x) = some (.ok t)) : Covers C F t := by
  cases position : s.pc x with
  | idle =>
    simp only [LockSys.step, position, Option.some.injEq] at taken
    cases taken
    refine ⟨fun y inside => ?_, fun c present => ?_⟩
    · by_cases same : y = x
      · rwa [same]
      · exact covers.threads y fun idle => inside ((Function.update_of_ne same ..).trans idle)
    · by_cases same : c = x.1
      · rwa [same]
      · exact covers.clients c fun missing => present ((Function.update_of_ne same ..).trans missing)
  | _ => simp [LockSys.step, position] at taken

end LockSys

namespace LockCall

variable {L : Type}

def lock : LockCall L → Option L
  | .none => Option.none
  | .acquire l | .release l => some l

/-- The calls a thread goes through before it gets its next lock. -/
def rest : LockCall L → Nat
  | .release _ => 2
  | .none => 1
  | .acquire _ => 0

end LockCall

namespace Cluster

variable {L Cid Tid C : Type} {R : C → Type} {α Job σ : Type} [DecidableEq L] [LinearOrder Cid]
  [DecidableEq Tid] {program : Job → Program L C R α} {answers : (c : C) → σ → R c → σ → Prop}
  {K K' : Cluster L Cid Tid C R α Job σ} {F : Finset (Cid × Tid)}

/-- A step that starts no job. -/
def Works (program : Job → Program L C R α) (answers : (c : C) → σ → R c → σ → Prop)
    (K K' : Cluster L Cid Tid C R α Job σ) : Prop :=
  Step program answers K K' ∧ ∀ i, K.threads i = none → K'.threads i = none

/-- The programs that the threads in `F` have to do. -/
def todo (F : Finset (Cid × Tid)) (K : Cluster L Cid Tid C R α Job σ) : Multiset (Program L C R α) :=
  weight F Program.todo fun i => (K.threads i).map Thread.rest

/-- While no thread goes on with its program, calls are made and returned from; and while none is,
the locks that are called for settle. -/
def measures (F : Finset (Cid × Tid)) : List (Cluster L Cid Tid C R α Job σ → Nat) :=
  (fun K => weight F LockCall.rest K.calls) ::
    (LockSys.measures (F.image Prod.fst) F).map fun m K =>
      weight F (fun s : Option (LockSys Cid Tid) => s.elim 0 m) fun i => (K.calls i).lock.map K.locks.view

/-- The threads in `F` are all that take part. -/
structure Spans (F : Finset (Cid × Tid)) (K : Cluster L Cid Tid C R α Job σ) : Prop where
  inv : K.Inv
  threads : ∀ i, K.threads i ≠ none → i ∈ F
  calls : ∀ i, K.calls i ≠ .none → i ∈ F
  covers : ∀ l, (K.locks.view l).Covers (F.image Prod.fst) F

theorem Spans.covers_set (spans : K.Spans F) {l : L} {lock : LockSys Cid Tid}
    (covers : lock.Covers (F.image Prod.fst) F) (k : L) :
    ((K.locks.set l lock).view k).Covers (F.image Prod.fst) F := by
  rw [System.view_set]
  split
  · exact covers
  · exact spans.covers k

/-- A thread goes on with its program. -/
theorem Spans.expand (spans : K.Spans F) {i : Cid × Tid} {th : Thread L C R α Job}
    (running : K.threads i = some th) (left : ∀ th', K'.threads i = some th' → Program.Left th'.rest th.rest)
    (others : ∀ j, j ≠ i → K'.threads j = K.threads j) :
    Relation.CutExpand Program.Left (K'.todo F) (K.todo F) := by
  refine Program.cutExpand_todo (spans.threads i (by simp [running])) (by rw [running]; rfl) ?_ ?_
  · intro q after
    obtain ⟨th', found, rfl⟩ := Option.map_eq_some_iff.mp after
    exact left th' found
  · exact fun j other => by rw [others j other]

omit [DecidableEq L] in
/-- A call is made, or returned from. -/
theorem calls_fall {i : Cid × Tid} {call : LockCall L} (member : i ∈ F)
    (lower : call.rest < (K.calls i).rest) :
    weight F LockCall.rest (Function.update K.calls i call) < weight F LockCall.rest K.calls := by
  have balance : weight F LockCall.rest (Function.update K.calls i call) + (K.calls i).rest =
      weight F LockCall.rest K.calls + (Function.update K.calls i call i).rest :=
    weight_of_ne member fun j other => congrArg LockCall.rest (Function.update_of_ne other ..)
  rw [Function.update_self] at balance
  omega

omit [DecidableEq L] in
theorem Fits.lock {l : L} {call : LockCall L} {stage : Stage} (fits : Fits l call stage)
    (under : stage = .acquiring ∨ stage = .releasing) : call.lock = some l := by
  cases fits with
  | acquire | release => rfl
  | away _ _ ends => rcases under with rfl | rfl <;> simp at ends

/-- A section of the lock service settles a lock that a thread calls for. -/
theorem Spans.settles (spans : K.Spans F) {x : Cid × Tid} {l : L} {lock : LockSys Cid Tid}
    (taken : (K.locks.view l).step (.run x) = some (.ok lock)) :
    Falls (measures F) K { K with locks := K.locks.set l lock } ∧ lock.Covers (F.image Prod.fst) F := by
  obtain ⟨falls, covers⟩ := LockSys.Settles.falls (spans.covers l) ⟨x, .inr taken⟩
  obtain ⟨-, passes, -⟩ := spans.inv.section_stage taken
  have calls : (K.calls x).lock = some l := by
    refine (spans.inv.fits x l).lock ?_
    exact passes.imp And.left And.left
  have member : x ∈ F := spans.calls x fun none => by simp [none, LockCall.lock] at calls
  refine ⟨.later (Nat.le_refl _) (Falls.sum falls (fun i => ?_) member ?_ ?_), covers⟩
  · rcases (K.calls i).lock with _ | k
    · exact .inl (by simp)
    · by_cases same : k = l
      · subst same
        exact .inr ⟨by simp, by simp [System.view_set]⟩
      · exact .inl (by simp [System.view_set, same])
  · simp [calls]
  · simp [calls, System.view_set]

theorem Works.falls (spans : K.Spans F) (works : Works program answers K K') :
    (Relation.CutExpand Program.Left (K'.todo F) (K.todo F) ∨
      K'.todo F = K.todo F ∧ Falls (measures F) K K') ∧ K'.Spans F := by
  obtain ⟨step, idle⟩ := works
  have inv := spans.inv.step step
  have threads : ∀ i, K'.threads i ≠ none → i ∈ F := fun i busy =>
    spans.threads i fun none => busy (idle i none)
  -- Only a thread at work makes a call.
  have calls : ∀ {i : Cid × Tid} (call : LockCall L), i ∈ F → ∀ j,
      Function.update K.calls i call j ≠ .none → j ∈ F := by
    intro i call member j busy
    by_cases same : j = i
    · rwa [same]
    · exact spans.calls j (by rwa [Function.update_of_ne same] at busy)
  cases step with
  | @start i job none =>
    have still := idle i none
    simp [setThread] at still
  | @acquire i job l rest n lock running outside taken =>
    have member := spans.threads i (by simp [running])
    have covers := (spans.covers l).acquire member (Finset.mem_image_of_mem _ member) taken
    refine ⟨.inr ⟨rfl, .here (calls_fall member ?_)⟩, inv, threads, calls _ member, spans.covers_set covers⟩
    rw [outside]
    exact Nat.one_pos
  | @granted i job l rest n running called holds =>
    have member := spans.threads i (by simp [running])
    refine ⟨.inl (spans.expand running ?_ ?_), inv, threads, calls _ member, spans.covers⟩
    · intro th found
      cases (Function.update_self ..).symm.trans found
      exact .acquire
    · exact fun j other => Function.update_of_ne other ..
  | @release i job l rest n lock running outside taken =>
    have member := spans.threads i (by simp [running])
    have covers := (LockSys.Settles.falls (spans.covers l) ⟨i, .inl taken⟩).2
    refine ⟨.inl (spans.expand running ?_ ?_), inv, threads, calls _ member, spans.covers_set covers⟩
    · intro th found
      cases (Function.update_self ..).symm.trans found
      exact .release
    · exact fun j other => Function.update_of_ne other ..
  | @returned i l called out =>
    have member := spans.calls i (by simp [called])
    refine ⟨.inr ⟨rfl, .here (calls_fall member ?_)⟩, inv, threads, calls _ member, spans.covers⟩
    rw [called]
    exact Nat.one_lt_two
  | @run x l lock taken =>
    obtain ⟨falls, covers⟩ := spans.settles taken
    exact ⟨.inr ⟨rfl, falls⟩, inv, threads, spans.calls, spans.covers_set covers⟩
  | @call i job c next n r s running outside answered =>
    refine ⟨.inl (spans.expand running ?_ ?_), inv, threads, spans.calls, spans.covers⟩
    · intro th found
      cases (Function.update_self ..).symm.trans found
      exact .call
    · exact fun j other => Function.update_of_ne other ..
  | @finish i job a n running outside =>
    refine ⟨.inl (spans.expand running ?_ ?_), inv, threads, spans.calls, spans.covers⟩
    · intro th found
      cases (Function.update_self ..).symm.trans found
    · exact fun j other => Function.update_of_ne other ..

omit [DecidableEq L] in
theorem idle_update {i : Cid × Tid} {th : Thread L C R α Job} (running : K.threads i = some th)
    (x : Option (Thread L C R α Job)) (j : Cid × Tid) (idle : K.threads j = none) :
    Function.update K.threads i x j = none := by
  have other : j ≠ i := by
    rintro rfl
    cases idle.symm.trans running
  exact (Function.update_of_ne other ..).trans idle

theorem Spans.step (spans : K.Spans F) (step : Step program answers K K') : ∃ F', K'.Spans F' := by
  by_cases idle : ∀ i, K.threads i = none → K'.threads i = none
  · exact ⟨F, (Works.falls spans ⟨step, idle⟩).2⟩
  · have inv := spans.inv.step step
    cases step with
    | @start i job none =>
      have more : F ⊆ insert i F := Finset.subset_insert i F
      refine ⟨insert i F, inv, fun j busy => ?_, fun j busy => more (spans.calls j busy), fun l => ?_⟩
      · by_cases same : j = i
        · simp [same]
        · exact more (spans.threads j (by simpa [setThread, same] using busy))
      · exact (spans.covers l).mono (Finset.image_subset_image more) more
    | acquire | returned | run => exact absurd (fun _ => id) idle
    | granted running | release running | call running | finish running =>
      exact absurd (idle_update running _) idle

theorem Reachable.spans {start : σ} (reach : Reachable program answers start K) : ∃ F, K.Spans F := by
  induction reach with
  | init =>
    refine ⟨∅, .init start, fun i busy => absurd rfl busy, fun i busy => absurd rfl busy, fun l => ?_⟩
    exact ⟨fun x inside => absurd rfl inside, fun c present => absurd rfl present⟩
  | step _ step ih =>
    obtain ⟨F, spans⟩ := ih
    exact spans.step step

/-- Without new jobs the threads do not work for ever. -/
theorem Reachable.works_acc {start : σ} (reach : Reachable program answers start K) :
    Acc (fun K' K => Works program answers K K') K := by
  obtain ⟨F, spans⟩ := reach.spans
  exact Falls.acc_lex Program.Left.wf.cutExpand (todo F) (fun spans works => works.falls spans) spans

theorem stalled_of_works (stuck : ∀ K', ¬ Works program answers K K') : K.Stalled program answers := by
  intro K' step
  by_contra none
  exact stuck K' ⟨step, by simpa using none⟩

end Cluster

end Yfs.Lock
