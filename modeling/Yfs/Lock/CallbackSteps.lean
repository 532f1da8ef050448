import Yfs.Lock.LocalSteps

/-! The sections of the server and the callbacks it makes at the clients. Each
creates or consumes one message, which is where the standings change. -/

namespace Yfs.Lock.LockSys

variable {Cid Tid : Type} [LinearOrder Cid] [DecidableEq Tid]
variable {s : LockSys Cid Tid} {c d o : Cid} {a : Tid} {p : Pc Cid} {reply : Reply}

section Messages

variable {x : Cid × Tid} {P : Pc Cid → Prop}

theorem project_setPc (f : Pc Cid → β) (same : f p = f (s.pc x)) (y : Cid × Tid) :
    f ((s.setPc x p).pc y) = f (s.pc y) := by
  by_cases equal : y = x
  · subst y
    simpa [setPc] using same
  · simp [setPc, equal]

theorem exists_setPc :
    (∃ y, P ((s.setPc x p).pc y)) ↔ P p ∨ ∃ y, y ≠ x ∧ P (s.pc y) :=
  Function.exists_update_iff s.pc (p := fun _ pc => P pc)

/-- A message that is under way once is gone when its carrier drops it. -/
theorem not_exists_setPc (once : { y | P (s.pc y) }.Subsingleton) (had : P (s.pc x))
    (gone : ¬ P p) : ¬ ∃ y, P ((s.setPc x p).pc y) := by
  rw [exists_setPc]
  rintro (kept | ⟨y, different, other⟩)
  · exact gone kept
  · exact different (once other had)

/-- A message stays under way at most once when only its carrier or nobody had it. -/
theorem once_setPc (once : { y | P (s.pc y) }.Subsingleton)
    (alone : P p → P (s.pc x) ∨ ¬ ∃ y, P (s.pc y)) :
    { y | P ((s.setPc x p).pc y) }.Subsingleton := by
  intro y first z second
  by_cases atFirst : y = x <;> by_cases atSecond : z = x
  · rw [atFirst, atSecond]
  · have carried : P p := by simpa [setPc, atFirst] using first
    have other : P (s.pc z) := by simpa [setPc, atSecond] using second
    rcases alone carried with had | nobody
    · exact atFirst.trans (once had other)
    · exact absurd ⟨z, other⟩ nobody
  · have carried : P p := by simpa [setPc, atSecond] using second
    have other : P (s.pc y) := by simpa [setPc, atFirst] using first
    rcases alone carried with had | nobody
    · exact (once other had).trans atSecond.symm
    · exact absurd ⟨y, other⟩ nobody
  · exact once (by simpa [setPc, atFirst] using first) (by simpa [setPc, atSecond] using second)

end Messages

omit [LinearOrder Cid] in
theorem target_asks {pc : Pc Cid} (named : pc.target = some d) : pc.asks = true := by
  revert named
  cases pc <;> simp [Pc.target, Pc.asks]
  rename_i call
  rcases call with _ | _ | ⟨_, _, _ | _⟩ | _ <;> simp

theorem front_setPc {rest : List Tid} (head : (s.lock c).threads = a :: rest) (d : Cid) :
    (s.setPc (c, a) p).front d = if d = c then p.front else s.front d := by
  by_cases same : d = c
  · subst d
    rw [front_cons (s := s.setPc (c, a) p) head]
    simp [setPc]
  · rw [front_congr (s := s) (t := s.setPc (c, a) p) (c := d) rfl (by simp [setPc, same])]
    simp [same]

theorem queue_setPc {rest : List Tid} (queue : ∀ d, Queue (s.lock d).threads fun b => s.pc (d, b))
    (head : (s.lock c).threads = a :: rest) (d : Cid) :
    Queue (s.lock d).threads fun b => (s.setPc (c, a) p).pc (d, b) := by
  rw [pc_setPc_row]
  by_cases same : d = c
  · subst d
    have own := queue c
    rw [head] at own ⊢
    simpa using own.setHead p
  · simpa [same] using queue d

open Classical in
/-- The server's section of `acquire` answers the thread or starts a revoke. -/
theorem Inv.answer {rest : List Tid} (inv : s.Inv) (head : (s.lock c).threads = a :: rest)
    (asking : s.pc (c, a) = .calling .request) (sv : ServerLock Cid) (p : Pc Cid) (asked : Prop)
    (revoke : asked ↔ p.asks = true ∨ s.Asks) (shape : Shape sv)
    (plain : p.calls = none ∧ p.background = none)
    (own : Phase (sv.standing asked s.Calls c) .acquiring .empty p.front .none)
    (others : ∀ {d state message front ρ}, d ≠ c → Phase (s.standing d) state message front ρ →
      Phase (sv.standing asked s.Calls d) state message front ρ)
    (asks : p.asks = true → ¬ s.Asks)
    (revoking : p.asks = true ∨ s.serverLock.state = .revoking → sv.state = .revoking)
    (target : p.target = none ∨ p.target = sv.owner) (owner : s.Asks → sv.owner = s.serverLock.owner)
    (chosen : s.Calls → sv.retrying = s.serverLock.retrying) :
    ((s.setServer sv).setPc (c, a) p).Inv := by
  have calls := project_setPc (s := s.setServer sv) (x := (c, a)) (p := p) Pc.calls
    (by rw [plain.1]; simp [setServer, asking, Pc.calls])
  have background := project_setPc (s := s.setServer sv) (x := (c, a)) (p := p) Pc.background
    (by rw [plain.2]; simp [setServer, asking, Pc.background])
  have releases (d) : ((s.setServer sv).setPc (c, a) p).background d = s.background d :=
    background_congr (s := s) background d
  have someAsks : ((s.setServer sv).setPc (c, a) p).Asks ↔ asked := by
    have before : (s.pc (c, a)).asks = false := by rw [asking]; rfl
    refine Iff.trans ?_ revoke.symm
    refine (exists_setPc (s := s.setServer sv) (P := fun pc => pc.asks = true)).trans ?_
    refine or_congr_right ⟨?_, ?_⟩
    · rintro ⟨y, _, carried⟩
      exact ⟨y, carried⟩
    · rintro ⟨y, carried⟩
      refine ⟨y, ?_, carried⟩
      intro same
      rw [same, before] at carried
      cases carried
  have someCalls : ((s.setServer sv).setPc (c, a) p).Calls ↔ s.Calls := by
    simp only [Calls, calls]
    rfl
  have standing (d) : ((s.setServer sv).setPc (c, a) p).standing d =
      sv.standing asked s.Calls d := standing_eq rfl someAsks someCalls d
  have quiet : s.background c = .none := by
    have phase := inv.phase c
    rw [front_cons head, asking] at phase
    exact phase.request.2.2.2
  refine ⟨shape, queue_setPc inv.queue head, ?_, ?_, ?_, ?_, ?_, ?_, ?_⟩
  · intro d
    have position := front_setPc (s := s.setServer sv) (p := p) head d
    rw [position, releases, standing]
    by_cases same : d = c
    · subst d
      have phase := inv.phase c
      rw [front_cons head, asking] at phase
      simp only [lock_setPc, lock_setServer, phase.request.2.1, phase.request.2.2.1, quiet, if_true]
      exact own
    · simp only [lock_setPc, lock_setServer, same, if_false]
      exact others same (inv.phase d)
  · exact once_setPc (s := s.setServer sv) (P := fun pc => pc.asks = true) inv.asksOnce
      (fun carried => .inr (asks carried))
  · intro y carried
    change sv.state = .revoking
    rcases (exists_setPc (s := s.setServer sv) (P := fun pc => pc.asks = true)).mp ⟨y, carried⟩
      with own | ⟨z, _, other⟩
    · exact revoking (.inl own)
    · exact revoking (.inr (inv.asksOwner z other))
  · intro y d named
    change sv.owner = some d
    by_cases same : y = (c, a)
    · subst y
      have carried : p.target = some d := by simpa [setPc] using named
      rcases target with absent | present
      · rw [absent] at carried
        cases carried
      · rw [← present]
        exact carried
    · have other : (s.pc y).target = some d := by simpa [setPc, setServer, same] using named
      rw [owner ⟨y, target_asks other⟩]
      exact inv.targetOwner y d other
  · simp only [calls]
    exact inv.callsOnce
  · intro y d named
    rw [calls] at named
    change sv.retrying = some d
    rw [chosen ⟨y, d, named⟩]
    exact inv.callsChosen y d named
  · intro d
    simp only [background]
    exact inv.backgroundOnce d

omit [DecidableEq Tid] in
theorem Inv.not_asks (inv : s.Inv) (calm : s.serverLock.state ≠ .revoking) : ¬ s.Asks := by
  rintro ⟨y, carried⟩
  exact calm (inv.asksOwner y carried)

theorem run_request {sv : ServerLock Cid} {call : AcquireCall Cid} (asking : s.pc (c, a) = .calling .request)
    (returned : LockServerCache.acquire s.server c = .ok (sv, call)) :
    s.run (c, a) = some (.ok ((s.setServer sv).setPc (c, a) (.calling call))) := by
  simp [run, asking, stepAcquire, returned, bind, Except.bind, pure, Except.pure]

/-- The client that has been called to retry asks again. -/
theorem Inv.acquireChosen {rest : List Tid} {waiting : Finset Cid} (inv : s.Inv)
    (head : (s.lock c).threads = a :: rest) (asking : s.pc (c, a) = .calling .request) (apart : c ∉ waiting)
    (same : s.serverLock = { owner := none, retrying := some c, waiting, state := .retrying })
    (delivered : ¬ s.Calls) : ∃ t, s.run (c, a) = some (.ok t) ∧ t.Inv := by
  have entry : s.server.getD .fresh = _ := same
  have silent : ¬ s.Asks := inv.not_asks (by simp [same])
  by_cases present : waiting.Nonempty
  · have returned : LockServerCache.acquire s.server c =
        .ok ({ owner := some c, retrying := none, waiting, state := .revoking }, .revoke c .ok .request) := by
      simp [LockServerCache.acquire, entry, apart, present]
    refine ⟨_, run_request asking returned, ?_⟩
    apply inv.answer head asking _ _ True (by simp [Pc.asks]) (.revoking c _ present apart) ⟨rfl, rfl⟩
    · simpa [ServerLock.standing] using Phase.won .asked
    · intro d state message front ρ different before
      simpa [LockSys.standing, ServerLock.standing, same, different.symm] using before
    all_goals simp [Pc.asks, Pc.target, same, silent, delivered]
  · have returned : LockServerCache.acquire s.server c =
        .ok ({ owner := some c, retrying := none, waiting, state := .locked }, .reply .ok) := by
      simp [LockServerCache.acquire, entry, apart, present]
    rw [Finset.not_nonempty_iff_eq_empty.mp present] at returned same
    refine ⟨_, run_request asking returned, ?_⟩
    apply inv.answer head asking _ _ s.Asks (by simp [Pc.asks]) (.locked c) ⟨rfl, rfl⟩
    · simpa [ServerLock.standing] using Phase.won .granted
    · intro d state message front ρ different before
      simpa [LockSys.standing, ServerLock.standing, same, different.symm] using before
    all_goals simp [Pc.asks, Pc.target, same, silent, delivered]

theorem Inv.serverAcquire (inv : s.Inv) (asking : s.pc (c, a) = .calling .request) :
    ∃ t, s.run (c, a) = some (.ok t) ∧ t.Inv := by
  obtain ⟨rest, head⟩ := inv.head (a := a) (c := c) (by simp [asking]) (by simp [asking])
  have phase := inv.phase c
  rw [front_cons head, asking] at phase
  obtain ⟨standing, -, -, -⟩ := phase.request
  have shape := inv.shape
  generalize same : s.serverLock = sv at shape
  have entry : s.server.getD .fresh = sv := same
  cases shape with
  | fresh =>
    have returned : LockServerCache.acquire s.server c =
        .ok ({ owner := some c, retrying := none, waiting := ∅, state := .locked }, .reply .ok) := by
      simp only [LockServerCache.acquire, entry]
    have silent : ¬ s.Asks := inv.not_asks (by simp [same])
    refine ⟨_, run_request asking returned, ?_⟩
    apply inv.answer head asking _ _ s.Asks (by simp [Pc.asks]) (.locked c) ⟨rfl, rfl⟩
    · simpa [ServerLock.standing] using Phase.won .granted
    · intro d state message front ρ different before
      simpa [LockSys.standing, ServerLock.standing, same, different, different.symm] using before
    all_goals simp [Pc.asks, Pc.target, same, silent]
  | locked owner =>
    have returned : LockServerCache.acquire s.server c =
        .ok ({ owner := some owner, retrying := none, waiting := insert c ∅, state := .revoking },
          .readOwner) := by
      simp only [LockServerCache.acquire, entry]
    have different : owner ≠ c := by
      intro equal
      simp [LockSys.standing, ServerLock.standing, same, equal] at standing
    have silent : ¬ s.Asks := inv.not_asks (by simp [same])
    refine ⟨_, run_request asking returned, ?_⟩
    apply inv.answer head asking _ _ True (by simp [Pc.asks])
      (.revoking owner _ (by simp) (by simpa using different)) ⟨rfl, rfl⟩
    · simpa [ServerLock.standing, different] using Phase.denied (.inl rfl) (.inl rfl)
    · intro d state message front ρ apart before
      by_cases owned : owner = d
      · subst owned
        have granted : s.standing owner = .granted := by
          simp [LockSys.standing, ServerLock.standing, same]
        rw [granted] at before
        simpa [ServerLock.standing] using before.contended
      · simpa [LockSys.standing, ServerLock.standing, same, apart, owned] using before
    all_goals simp [Pc.asks, Pc.target, same, silent]
  | revoking owner waiting present apart =>
    have returned : LockServerCache.acquire s.server c =
        .ok ({ owner := some owner, retrying := none, waiting := insert c waiting,
               state := .revoking }, .reply .retry) := by
      simp only [LockServerCache.acquire, entry]
    have different : owner ≠ c := by
      intro equal
      simp [LockSys.standing, ServerLock.standing, same, equal] at standing
      split at standing <;> simp at standing
    refine ⟨_, run_request asking returned, ?_⟩
    apply inv.answer head asking _ _ s.Asks (by simp [Pc.asks])
      (.revoking owner _ (by simp) (by simpa [different] using apart)) ⟨rfl, rfl⟩
    · simpa [ServerLock.standing, different] using Phase.denied (.inl rfl) (.inl rfl)
    · intro d state message front ρ apart before
      simpa [LockSys.standing, ServerLock.standing, same, apart, Pc.asks] using before
    all_goals simp [Pc.asks, Pc.target, same]
  | retrying next waiting apart =>
    have silent : ¬ s.Asks := inv.not_asks (by simp [same])
    by_cases chosen : next = c
    · subst chosen
      have delivered : ¬ s.Calls := by
        intro calls
        simp [LockSys.standing, ServerLock.standing, same, calls] at standing
      exact inv.acquireChosen head asking apart same delivered
    · have returned : LockServerCache.acquire s.server c =
          .ok ({ owner := none, retrying := some next, waiting := insert c waiting,
                 state := .retrying }, .reply .retry) := by
        simp [LockServerCache.acquire, entry, chosen]
      refine ⟨_, run_request asking returned, ?_⟩
      apply inv.answer head asking _ _ s.Asks (by simp [Pc.asks])
        (.retrying next _ (by simpa [chosen] using apart)) ⟨rfl, rfl⟩
      · simpa [ServerLock.standing, chosen] using Phase.denied (.inl rfl) (.inl rfl)
      · intro d state message front ρ different before
        simpa [LockSys.standing, ServerLock.standing, same, different] using before
      all_goals simp [Pc.asks, Pc.target, same, silent]

omit [DecidableEq Tid] in
/-- An owner that has been told to release is the owner of a contended lock, and
no revoke is under way. -/
theorem Inv.told (inv : s.Inv) (told : s.standing o = .told) :
    (∃ waiting : Finset Cid, waiting.Nonempty ∧ o ∉ waiting ∧
      s.serverLock = { owner := some o, retrying := none, waiting, state := .revoking }) ∧
    ¬ s.Asks := by
  have shape := inv.shape
  simp only [LockSys.standing, ServerLock.standing] at told
  generalize same : s.serverLock = sv at shape told
  cases shape with
  | fresh => simp at told
  | locked owner => simp at told; split at told <;> simp at told
  | revoking owner waiting present apart =>
    by_cases owned : owner = o
    · subst owned
      refine ⟨⟨waiting, present, apart, rfl⟩, ?_⟩
      intro asks
      simp [asks] at told
    · simp [owned] at told
      split at told <;> simp at told
  | retrying next waiting apart =>
    simp at told
    split at told
    · split at told <;> simp at told
    · split at told <;> simp at told

omit [LinearOrder Cid] [DecidableEq Tid] in
theorem server_of_state (contended : s.serverLock.state ≠ .none) : s.server = some s.serverLock := by
  cases found : s.server with
  | none => simp [serverLock, found, ServerLock.fresh] at contended
  | some sv => simp [serverLock, found]

/-- The unprotected read of `ls->owner` still sees the client that holds the lock. -/
theorem Inv.readOwner (inv : s.Inv) (reading : s.pc (c, a) = .calling .readOwner) :
    ∃ t, s.run (c, a) = some (.ok t) ∧ t.Inv := by
  obtain ⟨rest, head⟩ := inv.head (a := a) (c := c) (by simp [reading]) (by simp [reading])
  have revoking := inv.asksOwner (c, a) (by rw [reading]; rfl)
  have present := server_of_state (s := s) (by simp [revoking])
  obtain ⟨owner, owned⟩ : ∃ owner, s.serverLock.owner = some owner := by
    have shape := inv.shape
    generalize s.serverLock = sv at shape revoking
    cases shape <;> simp at revoking ⊢
  let p : Pc Cid := .calling (.revoke owner .retry .request)
  have asks := project_setPc (s := s) (x := (c, a)) (p := p) Pc.asks (by rw [reading]; rfl)
  have calls := project_setPc (s := s) (x := (c, a)) (p := p) Pc.calls (by rw [reading]; rfl)
  have background := project_setPc (s := s) (x := (c, a)) (p := p) Pc.background
    (by rw [reading]; rfl)
  refine ⟨s.setPc (c, a) p, ?_, inv.shape, queue_setPc inv.queue head, ?_, ?_, ?_, ?_, ?_, ?_, ?_⟩
  · simp [run, reading, stepAcquire, LockServerCache.readOwner, present, owned, p,
      bind, Except.bind, pure, Except.pure]
  · intro d
    have position : (s.setPc (c, a) p).front d = s.front d := by
      rw [front_setPc head]
      split
      · rename_i same
        rw [same, front_cons head, reading]
        rfl
      · rfl
    rw [position, background_congr background,
      standing_congr (t := s.setPc (c, a) p) (s := s) rfl (by simp only [Asks, asks, implies_true])
        (by simp only [Calls, calls, implies_true])]
    exact inv.phase d
  · simpa only [asks] using inv.asksOnce
  · simpa only [asks, serverLock_setPc] using inv.asksOwner
  · intro y d named
    by_cases same : y = (c, a)
    · subst y
      have target : owner = d := by simpa [setPc, p, Pc.target] using named
      rw [← target]
      exact owned
    · exact inv.targetOwner y d (by simpa [setPc, same] using named)
  · simpa only [calls] using inv.callsOnce
  · simpa only [calls, serverLock_setPc] using inv.callsChosen
  · simpa only [background] using inv.backgroundOnce

/-- The server's section of `release`, called for the owner `o` by a thread whose
position moves from `q` to `p`. -/
theorem Inv.serverRelease {rest : List Tid} (inv : s.Inv) (head : (s.lock c).threads = a :: rest)
    (position : s.pc (c, a) = q) (told : s.standing o = .told)
    (resume : ReleaseCall Cid → Pc Cid)
    (silent : q.asks = false ∧ q.target = none ∧ q.calls = none)
    (carries : ∀ next, (resume (.retry next)).asks = false ∧ (resume (.retry next)).target = none ∧
      (resume (.retry next)).calls = some next)
    (own : ∀ next, Phase .out (s.lock o).state (s.lock o).message
      ((s.setPc (c, a) (resume (.retry next))).front o)
      ((s.setPc (c, a) (resume (.retry next))).background o))
    (others : ∀ next d, d ≠ o → (s.setPc (c, a) (resume (.retry next))).front d = s.front d ∧
      (s.setPc (c, a) (resume (.retry next))).background d = s.background d)
    (once : ∀ next d, { y | ∃ handled,
      ((s.setPc (c, a) (resume (.retry next))).pc y).background = some (d, handled) }.Subsingleton) :
    ∃ t, s.stepRelease (c, a) resume .request = .ok t ∧ t.Inv := by
  obtain ⟨⟨waiting, present, apart, same⟩, quiet⟩ := inv.told told
  have found := server_of_state (s := s) (by simp [same])
  let next := waiting.min' present
  have chosen : next ∈ waiting := waiting.min'_mem present
  have different : next ≠ o := fun equal => apart (equal ▸ chosen)
  let sv : ServerLock Cid :=
    { owner := none, retrying := some next, waiting := waiting.erase next, state := .retrying }
  let p := resume (.retry next)
  have asks := project_setPc (s := s.setServer sv) (x := (c, a)) (p := p) Pc.asks
    (by simp [setServer, position, silent.1, p, (carries next).1])
  have target := project_setPc (s := s.setServer sv) (x := (c, a)) (p := p) Pc.target
    (by simp [setServer, position, silent.2.1, p, (carries next).2.1])
  have noCalls : ¬ ∃ y, ∃ d, (s.pc y).calls = some d := by
    rintro ⟨y, d, named⟩
    have retrying := inv.callsChosen y d named
    simp [same] at retrying
  have calling : (((s.setServer sv).setPc (c, a) p).pc (c, a)).calls = some next := by
    simp [setPc, p, (carries next).2.2]
  have standing (d) : ((s.setServer sv).setPc (c, a) p).standing d = sv.standing False True d := by
    apply standing_eq rfl
    · simpa only [Asks, asks, pc_setServer, iff_false] using quiet
    · simpa using ⟨(c, a), next, calling⟩
  refine ⟨(s.setServer sv).setPc (c, a) p, ?_, .retrying next _ (by simp),
    queue_setPc (s := s.setServer sv) inv.queue head, ?_, ?_, ?_, ?_, ?_, ?_, once next⟩
  · simp [stepRelease, found, same, LockServerCache.release, present, bind, Except.bind, pure,
      Except.pure, sv, p, next]
  · intro d
    rw [standing]
    by_cases owner : d = o
    · subst owner
      have out : sv.standing False True d = .out := by
        simp [ServerLock.standing, sv, different, apart]
      rw [out]
      exact own next
    · obtain ⟨front, background⟩ := others next d owner
      have before := inv.phase d
      change Phase _ (s.lock d).state (s.lock d).message ((s.setPc (c, a) p).front d)
        ((s.setPc (c, a) p).background d)
      rw [front, background]
      by_cases picked : d = next
      · have waits : s.standing d = .waiting := by
          simp [LockSys.standing, ServerLock.standing, same, picked, chosen]
          exact fun equal => absurd (picked.trans equal.symm) owner
        rw [waits] at before
        have called : sv.standing False True d = .called := by
          simp [ServerLock.standing, sv, picked]
        rw [called]
        exact before.chosen
      · have kept : sv.standing False True d = s.standing d := by
          simp [LockSys.standing, ServerLock.standing, same, sv, Ne.symm owner, picked,
            Ne.symm picked]
        rw [kept]
        exact before
  · simpa only [asks, pc_setServer] using inv.asksOnce
  · intro y carried
    rw [asks] at carried
    exact absurd ⟨y, carried⟩ quiet
  · intro y d named
    rw [target] at named
    exact absurd ⟨y, target_asks named⟩ quiet
  · exact once_setPc (s := s.setServer sv) (P := fun pc => ∃ d, pc.calls = some d) inv.callsOnce
      (fun _ => .inr noCalls)
  · intro y d named
    change some next = some d
    by_cases same : y = (c, a)
    · subst y
      rw [← calling, named]
    · have other : (s.pc y).calls = some d := by simpa [setPc, setServer, same] using named
      exact absurd ⟨y, d, other⟩ noCalls

theorem Inv.serverReleaseHead (inv : s.Inv) (yielding : s.pc (c, a) = .releasing .request) :
    ∃ t, s.run (c, a) = some (.ok t) ∧ t.Inv := by
  obtain ⟨rest, head⟩ := inv.head (a := a) (c := c) (by simp [yielding]) (by simp [yielding])
  have phase := inv.phase c
  rw [front_cons head, yielding] at phase
  have background (next) := project_setPc (s := s) (x := (c, a)) (p := .releasing (.retry next))
    Pc.background (by rw [yielding]; rfl)
  obtain ⟨t, returned, after⟩ := inv.serverRelease head yielding phase.yield.1 .releasing
    ⟨rfl, rfl, rfl⟩ (fun _ => ⟨rfl, rfl, rfl⟩)
    (fun next => by
      rw [front_setPc head, background_congr (background next), if_pos rfl]
      exact phase.yield.2)
    (fun next d different => by
      rw [front_setPc head, background_congr (background next), if_neg different]
      exact ⟨rfl, rfl⟩)
    (fun next d => by simpa only [background next] using inv.backgroundOnce d)
  exact ⟨t, by simp [run, yielding, returned], after⟩

omit [DecidableEq Tid] in
/-- A carrier of a background release call is the only one for that client. -/
theorem Inv.background_of (inv : s.Inv) (carried : (s.pc x).background = some (o, handled)) :
    s.background o = if handled then .done else .request := by
  cases handled with
  | false => simp [LockSys.background, show s.Releases o false from ⟨x, carried⟩]
  | true =>
    have absent : ¬ s.Releases o false := by
      rintro ⟨y, other⟩
      have same : y = x := inv.backgroundOnce o ⟨false, other⟩ ⟨true, carried⟩
      rw [same, carried] at other
      simp at other
    simp [LockSys.background, show s.Releases o true from ⟨x, carried⟩, absent]

/-- How the background releases change when their carrier for client `o` moves on. -/
theorem background_setPc {x : Cid × Tid} (handled : Bool)
    (once : { y | ∃ handled, (s.pc y).background = some (o, handled) }.Subsingleton)
    (carried : (s.pc x).background = some (o, handled)) :
    (s.setPc x p).background o =
      if p.background = some (o, false) then .request
      else if p.background = some (o, true) then .done else .none := by
  have others (b) : (s.setPc x p).Releases o b ↔ p.background = some (o, b) := by
    refine (exists_setPc (P := fun pc => pc.background = some (o, b))).trans ?_
    refine or_iff_left ?_
    rintro ⟨y, different, other⟩
    exact different (once ⟨b, other⟩ ⟨handled, carried⟩)
  simp only [LockSys.background, others]

theorem background_setPc_other {x : Cid × Tid} (before : ∀ b, (s.pc x).background ≠ some (d, b))
    (after : ∀ b, p.background ≠ some (d, b)) : (s.setPc x p).background d = s.background d := by
  have same : (s.setPc x p).Releases d = s.Releases d := by
    funext b
    apply propext
    refine (exists_setPc (P := fun pc => pc.background = some (d, b))).trans ?_
    constructor
    · rintro (own | ⟨y, _, other⟩)
      · exact absurd own (after b)
      · exact ⟨y, other⟩
    · rintro ⟨y, other⟩
      exact .inr ⟨y, fun equal => before b (equal ▸ other), other⟩
  rw [LockSys.background, LockSys.background, same]

theorem Inv.serverReleaseBackground (inv : s.Inv)
    (calling : s.pc (c, a) = .calling (.revoke o reply (.release .request))) :
    ∃ t, s.run (c, a) = some (.ok t) ∧ t.Inv := by
  obtain ⟨rest, head⟩ := inv.head (a := a) (c := c) (by simp [calling]) (by simp [calling])
  have carried : (s.pc (c, a)).background = some (o, false) := by rw [calling]; rfl
  have phase := inv.phase o
  rw [inv.background_of carried] at phase
  have front (next d) : (s.setPc (c, a)
      (.calling (.revoke o reply (.release (.retry next))))).front d = s.front d := by
    rw [front_setPc head]
    split
    · rename_i same
      rw [same, front_cons head, calling]
      cases reply <;> rfl
    · rfl
  obtain ⟨t, returned, after⟩ := inv.serverRelease head calling phase.backgroundRequest.1
    (fun call => .calling (.revoke o reply (.release call)))
    ⟨rfl, rfl, rfl⟩ (fun _ => ⟨rfl, rfl, rfl⟩)
    (fun next => by
      rw [front, background_setPc _ (inv.backgroundOnce o) carried]
      simpa [Pc.background] using phase.backgroundRequest.2)
    (fun next d different => by
      refine ⟨front next d, background_setPc_other ?_ ?_⟩
      · intro b equal
        rw [carried] at equal
        simp [Ne.symm different] at equal
      · intro b equal
        simp [Pc.background, Ne.symm different] at equal)
    (fun next d => by
      apply once_setPc (P := fun pc => ∃ handled, pc.background = some (d, handled))
        (inv.backgroundOnce d)
      rintro ⟨handled, equal⟩
      have same : o = d := by
        simp only [Pc.background, Option.some.injEq, Prod.mk.injEq] at equal
        exact equal.1
      exact .inl ⟨false, same ▸ carried⟩)
  exact ⟨t, by simp [run, calling, stepAcquire, returned], after⟩

section Callback

variable {ls : ClientLock Tid} {woken : Option Tid} {rest : List Tid}

theorem tokens_visit (y : Cid × Tid) :
    ((s.visit o ls woken).pc y).tokens = (s.pc y).tokens := tokens_signal woken y

@[simp] theorem serverLock_visit : (s.visit o ls woken).serverLock = s.serverLock :=
  serverLock_signal woken

@[simp] theorem pc_visit_none : (s.visit o ls none).pc = s.pc := rfl

theorem lock_visit_eq : (s.visit o ls woken).lock = Function.update s.lock o ls := by
  rw [visit, lock_signal, lock_setClient]

theorem lock_visit (woken : Option Tid) (kept : ls.threads = (s.lock o).threads) (d : Cid) :
    ((s.visit o ls woken).lock d).threads = (s.lock d).threads := by
  rw [lock_visit_eq]
  by_cases same : d = o
  · subst same
    simpa using kept
  · simp [same]

theorem pc_visit_other (different : d ≠ o) (b : Tid) :
    (s.visit o ls woken).pc (d, b) = s.pc (d, b) := by
  cases woken <;> simp [visit, signal, setPc, different]

/-- A callback handled at client `o` on behalf of a thread of client `c`, whose
own position in `c`'s queue does not change. It may consume messages and wake the
head of `o`'s queue. -/
theorem Inv.callback (inv : s.Inv) (ls : ClientLock Tid) (head : (s.lock c).threads = a :: rest)
    (kept : ls.threads = (s.lock o).threads)
    (wakes : woken = none ∨ woken = (s.lock o).threads.head?)
    (steady : p.front = (s.pc (c, a)).front)
    (dropped : p.asks = false ∧ p.target = none ∧ p.calls = none)
    (background : ∀ d b, p.background = some (d, b) →
      (∃ b', (s.pc (c, a)).background = some (d, b')) ∨
        ¬ ∃ y b', (s.pc y).background = some (d, b'))
    (own : Phase (((s.visit o ls woken).setPc (c, a) p).standing o)
      ls.state ls.message (((s.visit o ls woken).setPc (c, a) p).front o)
      (((s.visit o ls woken).setPc (c, a) p).background o))
    (others : ∀ d, d ≠ o →
      ((s.visit o ls woken).setPc (c, a) p).standing d = s.standing d ∧
      ((s.visit o ls woken).setPc (c, a) p).background d = s.background d) :
    ((s.visit o ls woken).setPc (c, a) p).Inv := by
  let v := s.visit o ls woken
  have same : ∀ y, (v.pc y).tokens = (s.pc y).tokens := tokens_visit
  have visited : (v.lock c).threads = a :: rest := (lock_visit _ kept c).trans head
  have queue : ∀ d, Queue (v.lock d).threads fun b => v.pc (d, b) := by
    have before : ∀ d, Queue ((s.setClient o ls).lock d).threads fun b => (s.setClient o ls).pc (d, b) := by
      intro d
      rw [show ((s.setClient o ls).lock d).threads = (s.lock d).threads from
        lock_visit none kept d]
      exact inv.queue d
    rcases wakes with none | front
    · subst none
      exact before
    · cases threads : (s.lock o).threads with
      | nil =>
        rw [threads] at front
        subst front
        exact before
      | cons b later =>
        rw [threads] at front
        subst front
        have first : ((s.setClient o ls).lock o).threads = b :: later :=
          (lock_visit none kept o).trans threads
        exact queue_setPc before first
  have pcs {P : Pc Cid → Prop} (drop : ¬ P p) {y} (carried : P ((v.setPc (c, a) p).pc y)) :
      P (v.pc y) := by
    by_cases equal : y = (c, a)
    · subst equal
      exact absurd (by simpa [setPc] using carried) drop
    · simpa [setPc, equal] using carried
  refine ⟨?_, queue_setPc queue visited, ?_, ?_, ?_, ?_, ?_, ?_, ?_⟩
  · simpa using inv.shape
  · intro d
    by_cases equal : d = o
    · subst equal
      have locked : (v.setPc (c, a) p).lock d = ls := by
        simp [v, lock_visit_eq]
      rw [locked]
      exact own
    · have locked : (v.setPc (c, a) p).lock d = s.lock d := by
        simp [v, lock_visit_eq, equal]
      have position : (v.setPc (c, a) p).front d = s.front d := by
        rw [front_setPc visited]
        split
        · rename_i at_
          rw [steady, at_, front_cons head]
        · exact front_congr (lock_visit _ kept d) (pc_visit_other equal)
      rw [locked, position, (others d equal).1, (others d equal).2]
      exact inv.phase d
  · intro y first z second
    have one := pcs (P := fun pc => pc.asks = true) (by simp [dropped.1]) first
    have two := pcs (P := fun pc => pc.asks = true) (by simp [dropped.1]) second
    rw [asks_congr same] at one two
    exact inv.asksOnce one two
  · intro y carried
    have before := pcs (P := fun pc => pc.asks = true) (by simp [dropped.1]) carried
    rw [asks_congr same] at before
    simpa using inv.asksOwner y before
  · intro y d named
    have before := pcs (P := fun pc => pc.target = some d) (by simp [dropped.2.1]) named
    rw [target_congr same] at before
    simpa using inv.targetOwner y d before
  · rintro y ⟨d, first⟩ z ⟨e, second⟩
    have one := pcs (P := fun pc => pc.calls = some d) (by simp [dropped.2.2]) first
    have two := pcs (P := fun pc => pc.calls = some e) (by simp [dropped.2.2]) second
    rw [calls_congr same] at one two
    exact inv.callsOnce ⟨d, one⟩ ⟨e, two⟩
  · intro y d named
    have before := pcs (P := fun pc => pc.calls = some d) (by simp [dropped.2.2]) named
    rw [calls_congr same] at before
    simpa using inv.callsChosen y d before
  · intro d
    apply once_setPc (s := v) (P := fun pc => ∃ handled, pc.background = some (d, handled))
    · simpa only [background_token_congr same] using inv.backgroundOnce d
    · rintro ⟨handled, equal⟩
      simpa only [background_token_congr same] using background d handled equal

omit [LinearOrder Cid] [DecidableEq Tid] in
theorem clients_of_state (used : (s.lock o).state ≠ .none) : s.clients o = some (s.lock o) := by
  cases found : s.clients o with
  | none => simp [lock, found, ClientLock.fresh] at used
  | some ls => simp [lock, found]

/-- Asking and calling after a callback, in terms of the state before it. -/
theorem asks_callback (kept : p.asks = (s.pc (c, a)).asks) :
    ((s.visit o ls woken).setPc (c, a) p).Asks ↔ s.Asks := by
  have same := asks_congr (s := s) (t := s.visit o ls woken) tokens_visit
  have moved := project_setPc (s := s.visit o ls woken) (x := (c, a)) (p := p)
    Pc.asks (by rw [same]; exact kept)
  simp only [Asks, moved, same]

theorem calls_callback (kept : p.calls = (s.pc (c, a)).calls) :
    ((s.visit o ls woken).setPc (c, a) p).Calls ↔ s.Calls := by
  have same := calls_congr (s := s) (t := s.visit o ls woken) tokens_visit
  have moved := project_setPc (s := s.visit o ls woken) (x := (c, a)) (p := p)
    Pc.calls (by rw [same]; exact kept)
  simp only [Calls, moved, same]

theorem background_callback (kept : p.background = (s.pc (c, a)).background) (d : Cid) :
    ((s.visit o ls woken).setPc (c, a) p).background d = s.background d := by
  have same := background_token_congr (s := s) (t := s.visit o ls woken) tokens_visit
  have moved := project_setPc (s := s.visit o ls woken) (x := (c, a)) (p := p)
    Pc.background (by rw [same]; exact kept)
  exact background_congr (fun y => (moved y).trans (same y)) d

theorem Inv.revokeHandler (inv : s.Inv)
    (calling : s.pc (c, a) = .calling (.revoke o reply .request)) :
    ∃ t, s.run (c, a) = some (.ok t) ∧ t.Inv := by
  obtain ⟨rest, head⟩ := inv.head (a := a) (c := c) (by simp [calling]) (by simp [calling])
  have carried : (s.pc (c, a)).asks = true := by rw [calling]; rfl
  have asks : s.Asks := ⟨(c, a), carried⟩
  have owned := inv.targetOwner (c, a) o (by rw [calling]; rfl)
  have revoking := inv.asksOwner (c, a) carried
  have asked : s.standing o = .asked := by
    simp [LockSys.standing, ServerLock.standing, owned, revoking, asks]
  have phase := inv.phase o
  rw [asked] at phase
  obtain ⟨used, idle, outcome⟩ := phase.revoke
  have entry := clients_of_state used
  have answered (q : Pc Cid) (ls : ClientLock Tid) (silent : q.asks = false) :
      ¬ ((s.visit o ls none).setPc (c, a) q).Asks := by
    apply not_exists_setPc (s := s.visit o ls none) (P := fun pc => pc.asks = true) inv.asksOnce carried
    simp [silent]
  have told (q : Pc Cid) (ls : ClientLock Tid) (silent : q.asks = false) :
      ((s.visit o ls none).setPc (c, a) q).standing o = .told := by
    have gone := answered q ls silent
    simp [LockSys.standing, ServerLock.standing, owned, revoking, gone]
  have others (q : Pc Cid) (ls : ClientLock Tid) (silent : q.calls = none) (d) (different : d ≠ o) :
      ((s.visit o ls none).setPc (c, a) q).standing d = s.standing d := by
    apply standing_congr (s := s) (t := (s.visit o ls none).setPc (c, a) q) rfl
    · intro other
      exact absurd (Option.some.inj (owned.symm.trans other)).symm different
    · intro _
      exact calls_callback (by rw [calling, silent]; rfl)
  have front (q : Pc Cid) (ls : ClientLock Tid) (kept : ls.threads = (s.lock o).threads)
      (steady : q.front = (s.pc (c, a)).front) :
      ((s.visit o ls none).setPc (c, a) q).front o = s.front o := by
    rw [front_setPc ((lock_visit _ kept c).trans head)]
    split
    · rename_i same
      rw [same, front_cons head, steady]
    · exact front_congr (lock_visit _ kept o) (fun _ => rfl)
  rcases outcome with ⟨free, after⟩ | ⟨busy, after⟩
  · let ls : ClientLock Tid := { s.lock o with state := .releasing }
    let p : Pc Cid := .calling (.revoke o reply (.release .request))
    have steady : p.front = (s.pc (c, a)).front := by rw [calling]; cases reply <;> rfl
    have nobody : ¬ ∃ y b, (s.pc y).background = some (o, b) := by
      rintro ⟨y, b, other⟩
      have present := inv.background_of other
      rw [idle] at present
      cases b <;> simp at present
    have request : ((s.visit o ls none).setPc (c, a) p).background o = .request := by
      have here : ((s.visit o ls none).setPc (c, a) p).Releases o false :=
        ⟨(c, a), by simp [setPc, p, Pc.background]⟩
      simp [LockSys.background, here]
    refine ⟨(s.visit o ls none).setPc (c, a) p, ?_, ?_⟩
    · simp [run, calling, stepAcquire, entry, LockClientCache.revokeHandler, free, ls, p,
        bind, Except.bind, pure, Except.pure]
    · apply inv.callback ls (o := o) (p := p) head rfl (.inl rfl) steady ⟨rfl, rfl, rfl⟩
      · intro d b equal
        have same : o = d := by
          simp only [p, Pc.background, Option.some.injEq, Prod.mk.injEq] at equal
          exact equal.1
        exact .inr (same ▸ nobody)
      · rw [told p ls rfl, front p ls rfl steady, request]
        exact after
      · intro d different
        refine ⟨others p ls rfl d different, background_setPc_other (s := s.visit o ls none) ?_ ?_⟩
        · simp [calling, Pc.background]
        · simp [p, Pc.background, Ne.symm different]
  · let ls : ClientLock Tid := { s.lock o with message := .revoke }
    let p : Pc Cid := .calling (.reply reply)
    have steady : p.front = (s.pc (c, a)).front := by rw [calling]; cases reply <;> rfl
    have kept (d) : ((s.visit o ls none).setPc (c, a) p).background d = s.background d :=
      background_callback (by rw [calling]; rfl) d
    refine ⟨(s.visit o ls none).setPc (c, a) p, ?_, ?_⟩
    · simp [run, calling, stepAcquire, entry, LockClientCache.revokeHandler, busy, ls, p,
        bind, Except.bind, pure, Except.pure]
    · apply inv.callback ls (o := o) (p := p) head rfl (.inl rfl) steady ⟨rfl, rfl, rfl⟩
      · intro d b equal
        cases equal
      · rw [told p ls rfl, front p ls rfl steady, kept]
        exact after
      · intro d different
        exact ⟨others p ls rfl d different, kept d⟩

omit [LinearOrder Cid] in
theorem signal_denied {pc : Pc Cid} (denied : pc.front = .denied) : pc.signal = pc := by
  revert denied
  rcases pc with _ | (_ | _) | (_ | _) | _ | (_ | _) | _ | (_ | _ | _) <;> simp [Pc.signal]

omit [LinearOrder Cid] in
theorem signal_sleeping {pc : Pc Cid} (sleeping : pc.front = .sleeping) :
    pc.signal.front = .rung := by
  revert sleeping
  rcases pc with _ | (_ | _) | (_ | _) | (_ | _ | ⟨_, _ | _, _⟩ | (_ | _)) | (_ | _) | _ |
    (_ | _ | _) <;> simp [Pc.signal]

omit [LinearOrder Cid] in
theorem signal_parked {pc : Pc Cid} (parked : pc.front = .parked) :
    pc.signal.front = .unparked := by
  revert parked
  rcases pc with _ | (_ | _) | (_ | _) | (_ | _ | ⟨_, _ | _, _⟩ | (_ | _)) | (_ | _) | _ |
    (_ | _ | _) <;> simp [Pc.signal]

omit [LinearOrder Cid] in
theorem calls_front {pc : Pc Cid} (named : pc.calls = some d) :
    pc.front = .denied ∨ pc.front = .won ∨ pc.front = .yielded := by
  revert named
  rcases pc with _ | (_ | _) | (_ | _) | (_ | _ | ⟨_, _ | _, _ | (_ | _ | _)⟩ | (_ | _)) | (_ | _) |
    _ | (_ | _ | _) <;> simp [Pc.calls]

/-- The head of the visited queue after its condition has been signalled. -/
theorem front_visit_head (kept : ls.threads = (s.lock o).threads)
    (threads : (s.lock o).threads = b :: rest) :
    (s.visit o ls (some b)).front o = (s.pc (o, b)).signal.front := by
  rw [front_cons ((lock_visit _ kept o).trans threads)]
  simp [visit, signal, setPc]

omit [DecidableEq Tid] in
theorem Inv.unowned (inv : s.Inv) (chosen : s.serverLock.retrying = some n) :
    s.serverLock.owner = none := by
  have shape := inv.shape
  generalize s.serverLock = sv at shape chosen
  cases shape <;> simp at chosen ⊢

omit [DecidableEq Tid] in
theorem Inv.called (inv : s.Inv) (named : (s.pc x).calls = some n) : s.standing n = .called := by
  have chosen := inv.callsChosen x n named
  simp [LockSys.standing, ServerLock.standing, inv.unowned chosen, chosen,
    show s.Calls from ⟨_, _, named⟩]

/-- The retry callback reaches the thread that waits for it at the head of the
chosen client's queue, before or after that thread has gone to sleep. -/
theorem Inv.retryHandler (inv : s.Inv) (head : (s.lock c).threads = a :: rest)
    (named : (s.pc (c, a)).calls = some n) (steady : p.front = (s.pc (c, a)).front)
    (dropped : p.asks = false ∧ p.target = none ∧ p.calls = none)
    (asking : (s.pc (c, a)).asks = false) (background : p.background = (s.pc (c, a)).background) :
    ∃ ls front, LockClientCache.retryHandler (s.clients n) = .ok (ls, front) ∧
      ((s.visit n ls (some front)).setPc (c, a) p).Inv := by
  have chosen := inv.callsChosen (c, a) n named
  have unowned := inv.unowned chosen
  have phase := inv.phase n
  rw [inv.called named] at phase
  obtain ⟨b, later, threads⟩ : ∃ b later, (s.lock n).threads = b :: later := by
    cases threads : (s.lock n).threads with
    | nil =>
      have empty : s.front n = .none := by simp only [front, threads]
      rw [empty] at phase
      rcases phase.retry with ⟨impossible, _⟩ | ⟨impossible, _⟩ <;> cases impossible
    | cons b later => exact ⟨b, later, rfl⟩
  let ls : ClientLock Tid := { s.lock n with message := .retry }
  have kept : ls.threads = (s.lock n).threads := rfl
  have gone : ¬ ((s.visit n ls (some b)).setPc (c, a) p).Calls := by
    have same := calls_congr (s := s) (t := s.visit n ls (some b)) tokens_visit
    apply not_exists_setPc (P := fun pc => ∃ d, pc.calls = some d)
    · simpa only [same] using inv.callsOnce
    · exact ⟨n, by rw [same]; exact named⟩
    · simp [dropped.2.2]
  have asks : ((s.visit n ls (some b)).setPc (c, a) p).Asks ↔ s.Asks :=
    asks_callback (by rw [dropped.1, asking])
  have heard : ((s.visit n ls (some b)).setPc (c, a) p).standing n = .heard := by
    simp [LockSys.standing, ServerLock.standing, unowned, chosen, gone]
  have released (d) : ((s.visit n ls (some b)).setPc (c, a) p).background d = s.background d :=
    background_callback background d
  have moved : ((s.visit n ls (some b)).setPc (c, a) p).front n =
      if n = c then p.front else (s.pc (n, b)).signal.front := by
    rw [front_setPc ((lock_visit _ kept c).trans head), front_visit_head kept threads]
  refine ⟨ls, b, ?_, ?_⟩
  · simp [LockClientCache.retryHandler, clients_of_head threads, threads, ls]
  · apply inv.callback _ head kept (.inr (by rw [threads]; rfl)) steady dropped
    · intro d handled equal
      exact .inl ⟨handled, background ▸ equal⟩
    · rw [heard, released, moved]
      have position := front_cons threads
      rcases phase.retry with ⟨denied, after⟩ | ⟨sleeping, after⟩
      · have front : (if n = c then p.front else (s.pc (n, b)).signal.front) = .denied := by
          split
          · rename_i same
            rw [steady, ← front_cons head, ← same, denied]
          · rw [signal_denied (position ▸ denied), ← position, denied]
        rw [front]
        exact after
      · have different : n ≠ c := by
          intro same
          have impossible := calls_front named
          rw [← front_cons head, ← same, sleeping] at impossible
          simp at impossible
        rw [if_neg different, signal_sleeping (position ▸ sleeping)]
        exact after
    · intro d different
      refine ⟨standing_congr (s := s) (t := (s.visit n ls (some b)).setPc (c, a) p)
        serverLock_visit ?_ ?_, released d⟩
      · exact fun _ => asks
      · intro other
        exact absurd (Option.some.inj (chosen.symm.trans other)).symm different

theorem Inv.retryHead (inv : s.Inv) (calling : s.pc (c, a) = .releasing (.retry n)) :
    ∃ t, s.run (c, a) = some (.ok t) ∧ t.Inv := by
  obtain ⟨rest, head⟩ := inv.head (a := a) (c := c) (by simp [calling]) (by simp [calling])
  obtain ⟨ls, front, returned, after⟩ := inv.retryHandler (p := .releasing .reply) head
    (by rw [calling]; rfl) (by rw [calling]; rfl) ⟨rfl, rfl, rfl⟩ (by rw [calling]; rfl)
    (by rw [calling]; rfl)
  refine ⟨_, ?_, after⟩
  simp [run, calling, stepRelease, returned, bind, Except.bind, pure, Except.pure]

theorem Inv.retryBackground (inv : s.Inv)
    (calling : s.pc (c, a) = .calling (.revoke o reply (.release (.retry n)))) :
    ∃ t, s.run (c, a) = some (.ok t) ∧ t.Inv := by
  obtain ⟨rest, head⟩ := inv.head (a := a) (c := c) (by simp [calling]) (by simp [calling])
  obtain ⟨ls, front, returned, after⟩ := inv.retryHandler
    (p := .calling (.revoke o reply (.release .reply))) head
    (by rw [calling]; rfl) (by rw [calling]; cases reply <;> rfl) ⟨rfl, rfl, rfl⟩
    (by rw [calling]; rfl) (by rw [calling]; rfl)
  refine ⟨_, ?_, after⟩
  simp [run, calling, stepAcquire, stepRelease, returned, bind, Except.bind, pure, Except.pure]

theorem Inv.revokeReturn (inv : s.Inv)
    (calling : s.pc (c, a) = .calling (.revoke o reply (.release .reply))) :
    ∃ t, s.run (c, a) = some (.ok t) ∧ t.Inv := by
  obtain ⟨rest, head⟩ := inv.head (a := a) (c := c) (by simp [calling]) (by simp [calling])
  have carried : (s.pc (c, a)).background = some (o, true) := by rw [calling]; rfl
  have phase := inv.phase o
  rw [inv.background_of carried] at phase
  obtain ⟨out, used, outcome⟩ := phase.backgroundReply
  have different : o ≠ c := by
    intro same
    rw [same, front_cons head, calling] at outcome
    cases reply <;> simp at outcome
  let ls : ClientLock Tid := { s.lock o with state := .none }
  let woken := (s.lock o).threads.head?
  let p : Pc Cid := .calling (.reply reply)
  have kept : ls.threads = (s.lock o).threads := rfl
  have asks : ((s.visit o ls woken).setPc (c, a) p).Asks ↔ s.Asks :=
    asks_callback (by rw [calling]; rfl)
  have calls : ((s.visit o ls woken).setPc (c, a) p).Calls ↔ s.Calls :=
    calls_callback (by rw [calling]; rfl)
  have standing (d) : ((s.visit o ls woken).setPc (c, a) p).standing d = s.standing d :=
    standing_congr (s := s) (t := (s.visit o ls woken).setPc (c, a) p) serverLock_visit
      (fun _ => asks) (fun _ => calls)
  have same := background_token_congr (s := s) (t := s.visit o ls woken) tokens_visit
  have cleared : ((s.visit o ls woken).setPc (c, a) p).background o = .none := by
    rw [background_setPc true (by simpa only [same] using inv.backgroundOnce o)
      (by rw [same]; exact carried)]
    simp [p, Pc.background]
  refine ⟨(s.visit o ls woken).setPc (c, a) p, ?_, ?_⟩
  · simp [run, calling, stepAcquire, deref, clients_of_state used, LockClientCache.revokeReturn, ls,
      woken, p, bind, Except.bind, pure, Except.pure]
  · apply inv.callback _ head kept (.inr rfl) (by rw [calling]; cases reply <;> rfl) ⟨rfl, rfl, rfl⟩
    · intro d handled equal
      cases equal
    · rw [standing, cleared, front_setPc ((lock_visit _ kept c).trans head), if_neg different, out]
      rcases outcome with ⟨empty, after⟩ | ⟨parked, after⟩
      · have position : (s.visit o ls woken).front o = .none := by
          cases threads : (s.lock o).threads with
          | nil => simp only [front, lock_visit _ kept o, threads]
          | cons b later =>
            have stray := front_cons threads
            rw [empty] at stray
            rcases pc : s.pc (o, b) with _ | (_ | _) | (_ | _) |
              (_ | _ | ⟨_, _ | _, _⟩ | (_ | _)) | (_ | _) | _ | (_ | _ | _) <;>
              simp [pc] at stray
        rw [position]
        exact after
      · have position : (s.visit o ls woken).front o = .unparked := by
          cases threads : (s.lock o).threads with
          | nil => simp [front, threads] at parked
          | cons b later =>
            have head : woken = some b := by simp [woken, threads]
            rw [head, front_visit_head kept threads]
            exact signal_parked (by rw [← front_cons threads, parked])
        rw [position]
        exact after
    · intro d other
      refine ⟨standing d, ?_⟩
      rw [background_setPc_other]
      · exact background_congr same d
      · intro b
        rw [same, carried]
        simp [Ne.symm other]
      · intro b
        simp [p, Pc.background]

end Callback

end Yfs.Lock.LockSys
