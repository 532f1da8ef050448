import Yfs.Lock.Progress

/-! The stages of a thread on its way to a lock and back, whatever the messages are that go between
its client, the server and the other clients. -/

namespace Yfs.Lock

/-- Where a thread stands with a lock, however far the call is that it is in. -/
inductive Stage where
  | outside | acquiring | inside | releasing
  deriving DecidableEq, Repr

def Pc.stage {Cid : Type} : Pc Cid → Stage
  | .idle => .outside
  | .holding => .inside
  | .releasing _ => .releasing
  | _ => .acquiring

@[simp] theorem Pc.stage_signal {Cid : Type} (pc : Pc Cid) : pc.signal.stage = pc.stage := by
  cases pc <;> rfl

theorem Pc.stage_inside {Cid : Type} {pc : Pc Cid} : pc.stage = .inside ↔ pc = .holding := by
  cases pc <;> simp [Pc.stage]

theorem Pc.stage_outside {Cid : Type} {pc : Pc Cid} : pc.stage = .outside ↔ pc = .idle := by
  cases pc <;> simp [Pc.stage]

theorem Pc.stage_blocked {Cid : Type} {pc : Pc Cid} (blocked : pc.blocked = true) :
    pc.stage = .acquiring := by
  cases pc <;> simp [Pc.stage, Pc.blocked] at blocked ⊢

namespace LockSys

variable {Cid Tid : Type}

def Action.thread : Action Cid Tid → Cid × Tid
  | .acquire x | .release x | .run x => x

/-- The stages of a thread before and after a section of its own. -/
def Action.Passes (a b : Stage) : Action Cid Tid → Prop
  | .acquire _ => a = .outside ∧ (b = .acquiring ∨ b = .inside)
  | .release _ => a = .inside ∧ (b = .releasing ∨ b = .outside)
  | .run _ => a = .acquiring ∧ (b = .acquiring ∨ b = .inside) ∨
    a = .releasing ∧ (b = .releasing ∨ b = .outside)

variable [LinearOrder Cid] [DecidableEq Tid] {s t : LockSys Cid Tid} {x : Cid × Tid}

omit [LinearOrder Cid] [DecidableEq Tid] in
theorem Moves.stage_others {next : Pc Cid} (moves : Moves s t x next) {y : Cid × Tid} (other : y ≠ x) :
    (t.pc y).stage = (s.pc y).stage := by
  rcases moves.others y other with same | same <;> simp [same]

theorem setPc_stage (s : LockSys Cid Tid) (x : Cid × Tid) (pc : Pc Cid) :
    ((s.setPc x pc).pc x).stage = pc.stage := congrArg Pc.stage (Function.update_self ..)

theorem settle_stage (s : LockSys Cid Tid) (x : Cid × Tid) (ls : ClientLock Tid) (pc : Pc Cid)
    (front : Option Tid) : ((s.settle x ls pc front).pc x).stage = pc.stage := by
  have set : ((s.setClient x.1 ls).setPc x pc).pc x = pc := Function.update_self ..
  rcases signal_pc (s := (s.setClient x.1 ls).setPc x pc) x.1 front x with same | same <;>
    simp [settle, same, set]

/-- A release call that is under way stays within the call that made it. -/
theorem stepRelease_stage {resume : ReleaseCall Cid → Pc Cid} {call : ReleaseCall Cid} {stage : Stage}
    (unanswered : call ≠ .reply) (kept : ∀ call, (resume call).stage = stage)
    (taken : s.stepRelease x resume call = .ok t) : (t.pc x).stage = stage := by
  cases call with
  | request | retry =>
    obtain ⟨r, -, same⟩ := of_bind_ok taken
    cases same
    exact (setPc_stage _ x _).trans (kept _)
  | reply => exact absurd rfl unanswered

theorem stepAcquire_stage {call : AcquireCall Cid} (unanswered : ∀ answer, call ≠ .reply answer)
    (taken : s.stepAcquire x call = .ok t) : (t.pc x).stage = .acquiring := by
  rcases call with _ | _ | ⟨target, answer, _ | (_ | next | _)⟩ | answer
  · obtain ⟨r, -, same⟩ := of_bind_ok taken
    cases same
    exact setPc_stage _ x _
  · obtain ⟨r, -, same⟩ := of_bind_ok taken
    cases same
    exact setPc_stage _ x _
  · obtain ⟨r, -, same⟩ := of_bind_ok taken
    cases same
    exact setPc_stage _ x _
  · simp only [stepAcquire] at taken
    exact stepRelease_stage (by simp) (fun _ => rfl) taken
  · simp only [stepAcquire] at taken
    exact stepRelease_stage (by simp) (fun _ => rfl) taken
  · obtain ⟨r, -, same⟩ := of_bind_ok taken
    cases same
    exact setPc_stage _ x _
  · exact absurd rfl (unanswered answer)

/-- The sections of `acquire` and of `wait` leave the thread inside the call, or with the lock. -/
theorem local_stage {f : ClientLock Tid → Except Fault (ClientLock Tid × Pc Cid)}
    (taken : (s.deref x.1 >>= fun ls => f ls >>= fun r => pure (s.settle x r.1 r.2 none)) = .ok t)
    (ends : ∀ {old ls next}, f old = .ok (ls, next) → next.stage = .acquiring ∨ next.stage = .inside) :
    (t.pc x).stage = .acquiring ∨ (t.pc x).stage = .inside := by
  obtain ⟨old, -, ran⟩ := of_bind_ok taken
  obtain ⟨⟨ls, next⟩, done, same⟩ := of_bind_ok ran
  cases same
  rw [settle_stage]
  exact ends done

omit [LinearOrder Cid] [DecidableEq Tid] in
theorem waitLoop_stage {ls ls' : ClientLock Tid} {next : Pc Cid}
    (done : LockClientCache.waitLoop ls = .ok (ls', next)) : next.stage = .acquiring := by
  rw [LockClientCache.waitLoop] at done
  split at done
  · cases done
    rfl
  · cases done

/-- A thread inside `acquire` comes out of it with the lock. -/
theorem run_acquiring (taken : s.run x = some (.ok t)) (position : (s.pc x).stage = .acquiring) :
    (t.pc x).stage = .acquiring ∨ (t.pc x).stage = .inside := by
  cases here : s.pc x with
  | idle | holding | releasing => simp [here, Pc.stage] at position
  | parked signalled =>
    cases signalled with
    | false => simp [LockSys.run, here] at taken
    | true =>
      simp only [LockSys.run, here, Option.some.injEq] at taken
      refine local_stage (f := fun ls => .ok (LockClientCache.wait ls)) taken ?_
      intro old ls next done
      cases done
      exact .inl rfl
  | queued signalled =>
    cases signalled with
    | false => simp [LockSys.run, here] at taken
    | true =>
      simp only [LockSys.run, here, Option.some.injEq] at taken
      refine local_stage taken ?_
      intro old ls next done
      unfold LockClientCache.acquireQueued at done
      split at done <;> cases done
      · exact .inr rfl
      · exact .inr rfl
      · exact .inl rfl
  | waiting signalled =>
    cases signalled with
    | false => simp [LockSys.run, here] at taken
    | true =>
      simp only [LockSys.run, here, Option.some.injEq] at taken
      exact local_stage taken fun done => .inl (waitLoop_stage done)
  | calling call =>
    cases call with
    | reply answer =>
      simp only [LockSys.run, here, Option.some.injEq] at taken
      refine local_stage taken ?_
      intro old ls next done
      cases answer with
      | ok =>
        cases done
        exact .inr rfl
      | retry =>
        simp only [LockClientCache.waitReply] at done
        split at done
        · cases done
          exact .inl rfl
        · exact .inl (waitLoop_stage done)
    | request | readOwner | revoke =>
      simp only [LockSys.run, here, Option.some.injEq] at taken
      exact .inl (stepAcquire_stage (by simp) taken)

omit [LinearOrder Cid] [DecidableEq Tid] in
/-- A thread inside `release` comes out of it without the lock. -/
theorem releaseEnd_stage {ls ls' : ClientLock Tid} {next : Pc Cid} {front : Option Tid} {revoking : Bool}
    (done : LockClientCache.releaseEnd ls revoking = .ok (ls', next, front)) : next.stage = .outside := by
  unfold LockClientCache.releaseEnd at done
  split at done <;> cases done <;> rfl

theorem run_releasing (taken : s.run x = some (.ok t)) (position : (s.pc x).stage = .releasing) :
    (t.pc x).stage = .releasing ∨ (t.pc x).stage = .outside := by
  cases here : s.pc x with
  | releasing call =>
    cases call with
    | reply =>
      simp only [LockSys.run, here, Option.some.injEq] at taken
      obtain ⟨ls, -, ran⟩ := of_bind_ok taken
      obtain ⟨⟨ls', next, front⟩, done, same⟩ := of_bind_ok ran
      cases same
      exact .inr ((settle_stage ..).trans (releaseEnd_stage done))
    | request | retry =>
      simp only [LockSys.run, here, Option.some.injEq] at taken
      exact .inl (stepRelease_stage (by simp) (fun _ => rfl) taken)
  | _ => simp [here, Pc.stage] at position

/-- What one section does to the stages: one thread goes on in its call, and all others stay
where they are. -/
theorem step_stage {action : Action Cid Tid} (reached : s.Reachable)
    (taken : s.step action = some (.ok t)) :
    action.Passes (s.pc action.thread).stage (t.pc action.thread).stage ∧
      ∀ y, y ≠ action.thread → (t.pc y).stage = (s.pc y).stage := by
  obtain ⟨C, F, covers⟩ := reached.covered
  cases action with
  | acquire x =>
    cases here : s.pc x with
    | idle =>
      simp only [LockSys.step, here, Option.some.injEq] at taken
      cases taken
      refine ⟨?_, fun y other => congrArg Pc.stage (Function.update_of_ne other ..)⟩
      simp only [Action.thread, here, settle_stage]
      refine ⟨rfl, ?_⟩
      simp only [LockClientCache.acquire]
      split
      · split <;> simp [Pc.stage, LockClientCache.wait]
      · exact .inl rfl
    | _ => simp [LockSys.step, here] at taken
  | release x =>
    obtain ⟨-, next, moves, -⟩ := release_lowers (C := C) (F := F) taken
    refine ⟨?_, fun y other => moves.stage_others other⟩
    cases here : s.pc x with
    | holding =>
      simp only [LockSys.step, here, Option.some.injEq] at taken
      obtain ⟨⟨ls, next, front⟩, done, same⟩ := of_bind_ok taken
      cases same
      simp only [Action.thread, here, settle_stage]
      refine ⟨rfl, ?_⟩
      unfold LockClientCache.release at done
      split at done
      · cases done
      · split at done
        · cases done
          exact .inl rfl
        · exact .inr (releaseEnd_stage done)
    | _ => simp [LockSys.step, here] at taken
  | run x =>
    obtain ⟨-, next, moves, -⟩ := run_advance covers taken
    refine ⟨?_, fun y other => moves.stage_others other⟩
    cases stage : (s.pc x).stage with
    | outside => simp [LockSys.step, LockSys.run, Pc.stage_outside.mp stage] at taken
    | inside => simp [LockSys.step, LockSys.run, Pc.stage_inside.mp stage] at taken
    | acquiring =>
      simp only [Action.thread, stage]
      exact .inl ⟨rfl, run_acquiring taken stage⟩
    | releasing =>
      simp only [Action.thread, stage]
      exact .inr ⟨rfl, run_releasing taken stage⟩

end LockSys

end Yfs.Lock
