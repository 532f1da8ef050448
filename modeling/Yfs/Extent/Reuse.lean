import Yfs.Extent.Calls
import Yfs.Extent.Runs

/-! What is left of a removed extent when its id is given out again. -/

namespace Yfs.Extent

open Yfs.Lib Yfs.Store

variable {Cid : Type} [DecidableEq Cid]

namespace View

variable {v v' : View Cid} {cid : Cid} {k : Nat} {env : Env} {buf : List UInt8}

omit [DecidableEq Cid] in
/-- Nobody but the client in `owner_map` owns the extent, and only while it is there. -/
def Owned (v : View Cid) : Prop :=
  ∀ c b, v.data c = some ⟨.own, b⟩ → v.owner = some c ∧ v.file ≠ none

theorem Owned.fetched (owned : v.Owned) (fetched : Fetched env cid v buf v') : v'.Owned := by
  intro c b own
  cases fetched with
  | fresh unowned live known =>
    by_cases same : c = cid
    · simp [same]
    · have old := owned c b (by simpa [same] using own)
      simp [unowned] at old
  | @taken o _ i f a owner other cached described live known =>
    by_cases same : c = cid
    · simp [same]
    · by_cases before : c = o
      · simp [before, other] at own
      · have old := owned c b (by simpa [same, before] using own)
        rw [owner] at old
        exact absurd (Option.some.inj old.1).symm before

theorem Owned.filled (owned : v.Owned) (own : v.data cid = some ⟨.own, buf⟩) (new : List UInt8) :
    (filled env cid v new).Owned := by
  intro c b owns
  by_cases same : c = cid
  · subst same
    exact owned c buf own
  · exact owned c b (by simpa [View.filled, same] using owns)

theorem Fetched.own (fetched : Fetched env cid v buf v') : v'.data cid = some ⟨.own, buf⟩ := by
  cases fetched with
  | fresh => simp
  | taken => simp

/-- Once the owner has been asked to give the extent up, nobody owns it. -/
theorem Owned.flushed {now : Clock} (owned : v.Owned) (flushed : Flushed now v v') :
    ∀ c b, v'.data c ≠ some ⟨.own, b⟩ := by
  intro c b own
  cases flushed with
  | unowned free =>
    have old := owned c b own
    simp [free] at old
  | @owned o bytes i f owner cached described live =>
    by_cases same : c = o
    · simp [same] at own
    · have old := owned c b (by simpa [same] using own)
      rw [owner] at old
      exact same (Option.some.inj old.1).symm

theorem Owned.move {call : Call} {answer : Answer} (owned : v.Owned)
    (move : Move cid k call answer v v') : v'.Owned := by
  cases move with
  | created dead =>
    intro c b own
    exact absurd dead (owned c b own).2
  | other => exact owned
  | got got =>
    cases got with
    | root => exact owned
    | cached => exact owned
    | fetched _ fetched => exact owned.fetched fetched
  | put put =>
    cases put with
    | owned own => exact owned.filled own _
    | fetched _ fetched => exact (owned.fetched fetched).filled fetched.own _
  | asked asked =>
    cases asked with
    | cached => exact owned
    | asked => exact owned
  | removed _ removed =>
    intro c b own
    cases removed with
    | unowned free =>
      have old := owned c b own
      simp [free] at old
    | @owned o cache i owner cached described live =>
      by_cases same : c = o
      · simp [same] at own
      · have old := owned c b (by simpa [same] using own)
        rw [owner] at old
        exact absurd (Option.some.inj old.1).symm same
  | aliased _ _ served =>
    obtain ⟨u, f, flushed, live, rfl, rfl⟩ := served
    intro c b own
    exact absurd own (owned.flushed flushed c b)
  | idle => exact owned

omit [DecidableEq Cid] in
/-- The attributes of a new extent, whatever its times are. -/
def Blank (type : UInt32) (a : Attr) : Prop := a.type = type ∧ a.size = 0

omit [DecidableEq Cid] in
/-- No client trusts other attributes than those of a new extent, and neither does the
server ask a client that remembers others. -/
structure Clean (type : UInt32) (v : View Cid) : Prop where
  cached : ∀ c a, v.info c = some ⟨.own, a⟩ → Blank type a
  owner : ∀ o, v.owner = some o → ∃ i, v.info o = some i ∧ Blank type i.metadata

omit [DecidableEq Cid] in
/-- A new extent that nobody has written to. -/
structure Fresh (type : UInt32) (v : View Cid) : Prop extends Clean type v where
  file : ∃ f, v.file = some f ∧ f.type = type ∧ f.bytes = []
  data : ∀ c b, v.data c = some ⟨.own, b⟩ → b = []

variable {type : UInt32} {a : Attr}

omit [DecidableEq Cid] in
theorem blank_attr {f : File} (typed : f.type = type) (empty : f.bytes = []) : Blank type f.attr := by
  constructor
  · exact typed
  · simp [File.attr, empty]

/-- What the server answers for a new extent, the asking client having looked its own
entry up first. -/
theorem Fresh.served {memory : Attr} (fresh : v.Fresh type)
    (served : (v.setInfo cid (v.noted memory cid)).Serves a) : Blank type a := by
  rcases serves_iff.mp served with ⟨_, rfl⟩ | ⟨o, i, owned, known, rfl⟩
  · obtain ⟨f, live, typed, empty⟩ := fresh.file
    simpa [live] using blank_attr typed empty
  · obtain ⟨j, remembered, blank⟩ := fresh.owner o owned
    by_cases same : o = cid
    · have noted : i = j := by
        subst same
        simpa [noted, remembered] using known.symm
      rw [noted]
      exact blank
    · have kept : i = j := by
        rw [setInfo_info, if_neg same, remembered] at known
        exact (Option.some.inj known).symm
      rw [kept]
      exact blank

theorem Fresh.asked {memory : Attr} (fresh : v.Fresh type) (asked : Getattr memory cid v a v') :
    Blank type a ∧ v'.Fresh type := by
  obtain ⟨rfl, answered⟩ := getattr_iff.mp asked
  have blank : Blank type a := by
    rcases answered with own | ⟨_, served⟩
    · exact fresh.cached cid a own
    · exact fresh.served served
  refine ⟨blank, ⟨⟨?_, ?_⟩, fresh.file, fresh.data⟩⟩
  · intro c b known
    by_cases same : c = cid
    · have remembered : b = a := by simpa [same] using known.symm
      rw [remembered]
      exact blank
    · exact fresh.cached c b (by simpa [same] using known)
  · intro o owned
    by_cases same : o = cid
    · exact ⟨⟨.own, a⟩, by simp [same], blank⟩
    · simpa [same] using fresh.owner o owned

omit [DecidableEq Cid] in
theorem Fresh.knows {served : Attr} (fresh : v.Fresh type) (known : v.Knows cid served a)
    (blank : Blank type served) : Blank type a := by
  rcases known with own | ⟨_, rfl⟩
  · exact fresh.cached cid a own
  · exact blank

theorem Fresh.fetched (fresh : v.Fresh type) (fetched : Fetched env cid v buf v') :
    buf = [] ∧ v'.Fresh type := by
  obtain ⟨g, there, typed, empty⟩ := fresh.file
  cases fetched with
  | @fresh f a unowned live known =>
    cases there.symm.trans live
    have blank := fresh.knows known (blank_attr typed empty)
    refine ⟨empty, ⟨⟨?_, ?_⟩, ?_, ?_⟩⟩
    · intro c b info
      by_cases same : c = cid
      · have remembered : b = a := by simpa [same] using info.symm
        rw [remembered]
        exact blank
      · exact fresh.cached c b (by simpa [same] using info)
    · intro o owned
      have same : o = cid := by simpa using owned.symm
      exact ⟨⟨.own, a⟩, by simp [same], blank⟩
    · exact ⟨_, rfl, typed, empty⟩
    · intro c b own
      by_cases same : c = cid
      · have kept : b = g.bytes := by simpa [same] using own.symm
        rw [kept, empty]
      · exact fresh.data c b (by simpa [same] using own)
  | @taken o bytes i f a owner other cached described live known =>
    cases there.symm.trans live
    obtain ⟨j, remembered, blankOwner⟩ := fresh.owner o owner
    cases described.symm.trans remembered
    have none := fresh.data o _ cached
    have blank := fresh.knows known blankOwner
    refine ⟨none, ⟨⟨?_, ?_⟩, ?_, ?_⟩⟩
    · intro c b info
      by_cases before : c = o
      · simp [before] at info
      · by_cases same : c = cid
        · have remembered : b = a := by simpa [same, Ne.symm other] using info.symm
          rw [remembered]
          exact blank
        · exact fresh.cached c b (by simpa [same, before] using info)
    · intro c owned
      have same : c = cid := by simpa using owned.symm
      exact ⟨⟨.own, a⟩, by simp [same, Ne.symm other], blank⟩
    · exact ⟨_, rfl, typed, none⟩
    · intro c b own
      by_cases same : c = cid
      · have kept : b = buf := by simpa [same] using own.symm
        rw [kept, none]
      · by_cases before : c = o
        · simp [before, other] at own
        · exact fresh.data c b (by simpa [same, before] using own)

theorem Fresh.got (fresh : v.Fresh type) (got : Get env cid k v buf v') :
    buf = [] ∧ v'.Fresh type := by
  cases got with
  | root own _ => exact ⟨fresh.data cid buf own, fresh⟩
  | @cached i own _ described =>
    -- Only the access time of the cached attributes changes.
    refine ⟨fresh.data cid buf own, ⟨⟨?_, ?_⟩, fresh.file, fresh.data⟩⟩
    · intro c a known
      by_cases same : c = cid
      · subst same
        obtain ⟨stat, rfl⟩ : i.stat = .own ∧ { i.metadata with atime := env.client.atime } = a := by
          simpa using known
        exact fresh.cached c i.metadata (by rw [described, ← stat])
      · exact fresh.cached c a (by simpa [same] using known)
    · intro o owned
      by_cases same : o = cid
      · subst same
        obtain ⟨j, remembered, blank⟩ := fresh.owner o owned
        cases described.symm.trans remembered
        exact ⟨{ i with metadata := { i.metadata with atime := env.client.atime } }, by simp, blank⟩
      · simpa [same] using fresh.owner o owned
  | fetched _ fetched => exact fresh.fetched fetched

end View

/-- The call neither writes nor removes `id`, under this or another id that the server
masks to it. -/
def Event.Quiet (id : Nat) (e : Event Cid) : Prop :=
  match e.call with
  | .create _ => True
  | .request r => mask r.eid = id → r = .get id ∨ r = .getattr id

namespace World

variable {start W W' : World Cid} {log : List (Event Cid)} {id : Nat} {type : UInt32} {cid : Cid}

/-- Whatever client asks, `getattr` reports a new extent and `get` returns no bytes. -/
def Reports (W : World Cid) (id : Nat) (type : UInt32) : Prop :=
  (∀ env c a W₁, Act.Returns (Client.getattr env c id) W a W₁ → View.Blank type a) ∧
    ∀ env c buf W₁, Act.Returns (Client.get env c id) W buf W₁ → buf = []

omit [DecidableEq Cid] in
theorem Initial.owned (initial : start.Initial) (k : Nat) : (start.view k).Owned := by
  intro c b own
  have none : (start.clients c).dataMap k = none := initial.dataMap c k
  exact absurd (none.symm.trans own) (by simp)

theorem Run.owned (initial : start.Initial) (run : start.Run log W) {k : Nat} (masked : mask k = k) :
    (W.view k).Owned := by
  induction run with
  | nil => exact initial.owned k
  | cons _ step ih => exact ih.move (step.move masked)

/-- A call that leaves a new extent alone keeps it new. -/
theorem fresh_step {call : Call} {answer : Answer} (masked : mask id = id)
    (fresh : (W.view id).Fresh type) (step : W.Step cid call answer W')
    (quiet : Event.Quiet id ⟨W, cid, call, answer⟩) : (W'.view id).Fresh type := by
  have move := step.move masked
  generalize W'.view id = v' at move
  cases move with
  | created dead =>
    obtain ⟨f, live, -⟩ := fresh.file
    simp [dead] at live
  | other => exact fresh
  | got got => exact (fresh.got got).2
  | put =>
    rcases quiet masked with impossible | impossible <;> cases impossible
  | asked asked => exact (fresh.asked asked).2
  | removed same =>
    rcases quiet same with impossible | impossible <;> cases impossible
  | aliased same other =>
    rcases quiet same with rfl | rfl <;> exact absurd rfl other
  | idle => exact fresh

theorem fresh_run (masked : mask id = id) (fresh : (W.view id).Fresh type) (run : W.Run log W')
    (quiet : ∀ e ∈ log, e.Quiet id) : (W'.view id).Fresh type := by
  induction run with
  | nil => exact fresh
  | cons _ step ih =>
    rw [List.forall_mem_cons] at quiet
    exact fresh_step masked (ih quiet.2) step quiet.1

theorem fresh_reports (masked : mask id = id) (fresh : (W.view id).Fresh type) : W.Reports id type := by
  constructor
  · intro env c a W₁ asked
    obtain ⟨v, answered, -⟩ := (returns_getattr_iff masked).mp asked
    exact (fresh.asked answered).1
  · intro env c buf W₁ got
    obtain ⟨v, answered, -⟩ := (returns_get_iff masked).mp got
    exact (fresh.got answered).1

/-- What a client remembers of the id it tells itself, and what the client in `owner_map`
remembers it is told by the server. -/
theorem clean_of_reports (masked : mask id = id) (reports : W.Reports id type) :
    (W.view id).Clean type := by
  have cached : ∀ c a, (W.view id).info c = some ⟨.own, a⟩ → View.Blank type a := by
    intro c a known
    exact reports.1 .still c a W (returns_getattr.mpr (.inl ⟨known, rfl⟩))
  refine ⟨cached, ?_⟩
  intro o owned
  -- Whatever memory a missing entry is made over, its owner is told what is in it.
  have told (memory : Attr) (stale : ∀ a, (W.view id).info o ≠ some ⟨.own, a⟩) :
      View.Blank type ((W.view id).noted memory o).metadata := by
    refine reports.1 { Env.still with memory } o _ _
      ((returns_getattr_iff masked).mpr ⟨_, .asked stale (.synced (o := o) owned ?_), rfl⟩)
    simp
  rcases known : (W.view id).info o with _ | ⟨stat, a⟩
  · have garbage := told ⟨type + 1, 0, 0, 0, 0⟩ (by simp [known])
    simp [View.noted, known, View.Blank] at garbage
  · cases stat with
    | own => exact ⟨_, rfl, cached o a known⟩
    | none =>
      have blank := told ⟨0, 0, 0, 0, 0⟩ (by simp [known])
      exact ⟨_, rfl, by simpa [View.noted, known] using blank⟩

/-- An id that `create` returns is that of a new extent to every client, until it is put
or removed, if and only if no client caches other attributes for it than those of a new
extent of the type, and the client that `owner_map` still names remembers these. -/
theorem Run.reuse_iff_clean (initial : start.Initial) (run : start.Run log W)
    (create : W.Step cid (.create type) (.id id) W') (found : id ≠ 0) :
    (∀ later W₁, W'.Run later W₁ → (∀ e ∈ later, e.Quiet id) → W₁.Reports id type) ↔
      (W.view id).Clean type := by
  cases create with
  | @create _ memory now _ files alloc =>
    rcases FileTable.alloc_cases alloc with ⟨zero, _⟩ | ⟨dead, small, rfl⟩
    · exact absurd zero found
    · have masked := mask_of_lt small
      have owned := run.owned initial masked
      have view : (W.setFiles (Function.update W.server.files id (some (.new type now)))).view id =
          (W.view id).setFile (some (.new type now)) := by
        rw [setFiles_eq, view_setView]
      constructor
      · intro reports
        have clean := clean_of_reports masked (reports [] _ .nil (by simp))
        rw [view] at clean
        exact ⟨clean.cached, clean.owner⟩
      · intro clean later W₁ runs quiet
        refine fresh_reports masked (fresh_run masked ?_ runs quiet)
        rw [view]
        refine ⟨⟨clean.cached, clean.owner⟩, ⟨_, rfl, rfl, rfl⟩, ?_⟩
        intro c b own
        exact absurd dead (owned c b own).2

private def morning : Clock := ⟨0, 0, 0⟩

private def grown (W : World Nat) (id : Nat) : World Nat :=
  W.setFiles (Function.update W.server.files id (some (.new T_FILE morning)))

private def made : World Nat := grown (boot morning) 2

/-- Client 1 has looked at the file. -/
private def looked : World Nat := made.next .still 1 (.getattr 2)

/-- Client 0 has removed it, and then created as many files as the numbers behind it allow. -/
private def wrapped : Nat → World Nat
  | 0 => looked.next .still 0 (.remove 2)
  | n + 1 => grown (wrapped n) (n + 3)

private def wrapping : Nat → List (Event Nat)
  | 0 => [⟨looked, 0, .request (.remove 2), .done⟩,
      ⟨made, 1, .request (.getattr 2), .attr ⟨T_FILE, 0, 0, 0, 0⟩⟩, ⟨boot morning, 0, .create T_FILE, .id 2⟩]
  | n + 1 => ⟨wrapped n, 0, .create T_FILE, .id (n + 3)⟩ :: wrapping n

private theorem grown_step {W : World Nat} {cid id : Nat} (dead : W.server.files id = none)
    (range : 1 ≤ id ∧ id < INODE_NUM) : W.Step cid (.create T_FILE) (.id id) (grown W id) := by
  have alloc : W.server.files.Step (.alloc T_FILE ⟨0, 0, 0, 0, 0, fun _ => 0⟩ morning) (.inum id) _ :=
    .alloc dead range
  exact .create alloc

private theorem wrapped_dead {n id : Nat} (dead : id = 2 ∨ n + 3 ≤ id) :
    (wrapped n).server.files id = none := by
  induction n with
  | zero =>
    have other : id ≠ 1 := by omega
    by_cases same : id = 2
    · subst same
      rfl
    · change Function.update (grown (boot morning) 2).server.files 2 none id = none
      simp [grown, boot, same, other]
  | succ n ih =>
    have other : id ≠ n + 3 := by omega
    have before := ih (by omega)
    simpa [wrapped, grown, other] using before

private theorem wrapped_run {n : Nat} (room : n + 2 < INODE_NUM) :
    (boot morning).Run (wrapping n) (wrapped n) := by
  induction n with
  | zero =>
    have asked : ((Request.getattr 2).run .still 1 made).2 = .ok (.attr ⟨T_FILE, 0, 0, 0, 0⟩, looked) := rfl
    have removed : ((Request.remove 2).run .still 0 looked).2 = .ok (.done, wrapped 0) := rfl
    exact .cons (.cons (.cons .nil (grown_step rfl (by decide))) (.request asked)) (.request removed)
  | succ n ih => exact .cons (ih (by omega)) (grown_step (wrapped_dead (.inr le_rfl)) (by omega))

private theorem wrapped_clients (n : Nat) : (wrapped n).clients = looked.clients := by
  induction n with
  | zero => rfl
  | succ n ih => exact ih

private theorem wrapped_owner (n : Nat) : (wrapped n).server.ownerMap 2 = none := by
  induction n with
  | zero => rfl
  | succ n ih => exact ih

private theorem wrapped_info (n c : Nat) : ((wrapped n).view 2).info c =
    if c = 1 then some ⟨.own, ⟨T_FILE, 0, 0, 0, 0⟩⟩ else none := by
  change ((wrapped n).clients c).metadataMap 2 = _
  rw [wrapped_clients]
  by_cases same : c = 1
  · subst same
    rfl
  · rw [if_neg same]
    change ((Function.update (Function.update made.clients 1 _) 1 _ c).metadataMap 2) = none
    simp only [Function.update_of_ne same]
    rfl

private theorem wrapped_clean (n : Nat) : ((wrapped n).view 2).Clean T_FILE := by
  constructor
  · intro c a known
    rw [wrapped_info] at known
    split at known
    · cases known
      exact ⟨rfl, rfl⟩
    · cases known
  · intro o owned
    have free : ((wrapped n).view 2).owner = none := wrapped_owner n
    rw [free] at owned
    cases owned

/-- The directory that `create` makes of the number of the removed file. -/
private def reused (n : Nat) : World Nat :=
  (wrapped n).setFiles (Function.update (wrapped n).server.files 2 (some (.new T_DIR morning)))

private theorem reused_step (n : Nat) : (wrapped n).Step 0 (.create T_DIR) (.id 2) (reused n) := by
  have alloc : (wrapped n).server.files.Step
      (.alloc T_DIR ⟨0, 0, 0, 0, 0, fun _ => 0⟩ morning) (.inum 2) _ :=
    .alloc (wrapped_dead (.inl rfl)) (by decide)
  exact .create alloc

private theorem reused_told (n : Nat) :
    Act.Returns (Client.getattr .still 1 2) (reused n) ⟨T_FILE, 0, 0, 0, 0⟩ (reused n) :=
  returns_getattr.mpr (.inl ⟨wrapped_info n 1, rfl⟩)

private theorem removal_mem (n : Nat) :
    ⟨looked, 0, .request (.remove 2), .done⟩ ∈ wrapping n := by
  induction n with
  | zero => exact List.mem_cons_self
  | succ n ih => exact List.mem_cons_of_mem _ ih

theorem Run.reuse_iff_clean_wrapped : ((wrapped 1021).view 2).Clean T_FILE ∧
    ((∀ later W₁, (grown (wrapped 1021) 2).Run later W₁ → (∀ e ∈ later, e.Quiet 2) →
      W₁.Reports 2 T_FILE) ↔ ((wrapped 1021).view 2).Clean T_FILE) := by
  have create : (wrapped 1021).Step 0 (.create T_FILE) (.id 2) (grown (wrapped 1021) 2) :=
    grown_step (wrapped_dead (.inl rfl)) (by decide)
  exact ⟨wrapped_clean 1021,
    Run.reuse_iff_clean (boot_initial morning) (wrapped_run (by decide)) create (by decide)⟩

/-- The number of a removed file becomes that of a directory, and a client that has
looked at the file is still told that it is a file. -/
theorem Run.reuse_keeps_attributes :
    (boot morning : World Nat).Initial ∧ (boot morning).Run (wrapping 1021) (wrapped 1021) ∧
      ⟨looked, 0, .request (.remove 2), .done⟩ ∈ wrapping 1021 ∧
      (wrapped 1021).Step 0 (.create T_DIR) (.id 2) (reused 1021) ∧
      Act.Returns (Client.getattr .still 1 2) (reused 1021) ⟨T_FILE, 0, 0, 0, 0⟩ (reused 1021) ∧
      ¬ (reused 1021).Reports 2 T_DIR := by
  refine ⟨(boot_initial morning), wrapped_run (by decide), removal_mem 1021, reused_step 1021,
    reused_told 1021, ?_⟩
  intro reports
  have told : View.Blank T_DIR ⟨T_FILE, 0, 0, 0, 0⟩ := reports.1 .still 1 _ _ (reused_told 1021)
  exact absurd told.1 (by decide)

end World

end Yfs.Extent
