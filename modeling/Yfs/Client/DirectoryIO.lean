import Yfs.Client.Extents
import Yfs.Client.Directory

/-! Concurrent operations on one directory behave like operations on a finite ordered
map from names to inums. -/

namespace Yfs.Client

open Yfs.Lib Yfs.Store Program

/-- The operations on a directory, with the stack memory they use. -/
inductive DirOp where
  | create (name : Name) (memory : Entry)
  | mkdir (name : Name) (memory : Entry)
  | symlink (name : Name) (link : List UInt8) (memory : Entry)
  | unlink (name : Name) (memory : Nat → Entry)
  | lookup (name : Name)
  | readdir

inductive DirResult where
  | made (r : Status) (ino : Option Nat)
  | status (r : Status)
  | found (r : Status) (ino : Option Nat)
  | list (r : Status) (entries : List (List UInt8 × Nat))
  deriving DecidableEq, Repr

namespace DirOp

def program (d : Nat) : DirOp → Prog DirResult
  | .create name memory => do
    let (r, ino) ← Client.create d name.bytes memory
    return .made r ino
  | .mkdir name memory => do
    let (r, ino) ← Client.mkdir d name.bytes memory
    return .made r ino
  | .symlink name link memory => do
    let (r, ino) ← Client.symlink d name.bytes link memory
    return .made r ino
  | .unlink name memory => return .status (← Client.unlink d name.bytes memory)
  | .lookup name => do
    let (r, ino) ← Client.lookup d name.bytes
    return .found r ino
  | .readdir => do
    let (r, list) ← Client.readdir d
    return .list r list

/-- Add a name to a map, for the inum `i`. -/
def make (name : Name) (i : Nat) (m : List (List UInt8 × Nat)) :
    DirResult × List (List UInt8 × Nat) :=
  match m.lookup name.bytes with
  | some _ => (.made EXIST none, m)
  | none => (.made OK (some i), m ++ [(name.bytes, i)])

/-- What an operation does to a map from names to inums; `i` is the inum that a new entry
gets. -/
def apply : DirOp → Nat → List (List UInt8 × Nat) → DirResult × List (List UInt8 × Nat)
  | .create name _, i, m => make name i m
  | .mkdir name _, i, m => make name i m
  | .symlink name _ _, i, m => make name i m
  | .unlink name _, _, m =>
    match m.lookup name.bytes with
    | some _ => (.status OK, m.filter (·.1 ≠ name.bytes))
    | none => (.status NOENT, m)
  | .lookup name, _, m =>
    match m.lookup name.bytes with
    | some i => (.found EXIST (some i), m)
    | none => (.found OK none, m)
  | .readdir, _, m => (.list OK m, m)

/-- The results of operations one after the other, and the map in the end. -/
def replay : List (DirOp × Nat) → List (List UInt8 × Nat) →
    List DirResult × List (List UInt8 × Nat)
  | [], m => ([], m)
  | (op, i) :: ops, m =>
    ((op.apply i m).1 :: (replay ops (op.apply i m).2).1, (replay ops (op.apply i m).2).2)

/-- The operations that make an entry for `name`. -/
def Makes (name : List UInt8) : DirOp → Prop
  | .create n _ | .mkdir n _ | .symlink n _ _ => n.bytes = name
  | _ => False

def Unlinks (name : List UInt8) : DirOp → Prop
  | .unlink n _ => n.bytes = name
  | _ => False

theorem calls_readdir (d : Nat) : (__readdir d).Calls fun _ => True := by
  simp only [__readdir, call, done_bind, call_bind, pure_eq]
  intro r
  beta_reduce
  split
  · trivial
  · intro attr
    beta_reduce
    split <;> trivial

theorem calls_lookup (d : Nat) (name : List UInt8) : (__lookup d name).Calls fun _ => True := by
  refine Calls.bind ((calls_readdir d).mono fun list _ => ?_)
  split <;> trivial

theorem guarded_createNode (type : UInt32) (d : Nat) (name : List UInt8) (memory : Entry)
    (f : Status × Option Nat → DirResult) : (do return f (← createNode type d name memory)).Guarded d := by
  simp only [createNode, acquire, release, call, acquire_bind, release_bind, done_bind, call_bind,
    pure_eq, bind_assoc]
  refine ⟨_, rfl, Calls.inside ((calls_lookup d name).mono fun found _ => ?_)⟩
  split
  · exact ⟨rfl, _, rfl⟩
  · intro ino r
    beta_reduce
    split
    · trivial
    · exact fun _ => ⟨rfl, _, rfl⟩

theorem guarded (d : Nat) (op : DirOp) : (op.program d).Guarded d := by
  cases op with
  | create name memory => exact guarded_createNode T_FILE d name.bytes memory fun p => .made p.1 p.2
  | mkdir name memory => exact guarded_createNode T_DIR d name.bytes memory fun p => .made p.1 p.2
  | symlink name link memory =>
    simp only [program, Client.symlink, acquire, release, call, acquire_bind, release_bind, done_bind,
      call_bind, pure_eq, bind_assoc]
    refine ⟨_, rfl, fun r => Calls.inside ((calls_lookup d name.bytes).mono fun found _ => ?_)⟩
    split
    · exact ⟨rfl, _, rfl⟩
    · exact fun _ _ _ => ⟨rfl, _, rfl⟩
  | unlink name memory =>
    simp only [program, Client.unlink, acquire, release, call, acquire_bind, release_bind, done_bind,
      call_bind, pure_eq, bind_assoc]
    refine ⟨_, rfl, Calls.inside ((calls_readdir d).mono fun list _ => ?_)⟩
    split
    · exact ⟨rfl, _, rfl⟩
    · exact fun _ _ => ⟨rfl, _, rfl⟩
  | lookup name =>
    simp only [program, Client.lookup, acquire, release, acquire_bind, release_bind, done_bind,
      pure_eq, bind_assoc]
    exact ⟨_, rfl, Calls.inside ((calls_lookup d name.bytes).mono fun found _ => ⟨rfl, _, rfl⟩)⟩
  | readdir =>
    simp only [program, Client.readdir, acquire, release, acquire_bind, release_bind, done_bind,
      pure_eq, bind_assoc]
    exact ⟨_, rfl, Calls.inside ((calls_readdir d).mono fun list _ => ⟨rfl, _, rfl⟩)⟩

/-- `d` is a directory with an orderly content. -/
def Good (d : Nat) (E : Extents) : Prop := ∃ buf, E d = some ⟨T_DIR, buf⟩ ∧ Orderly d buf

/-- What an operation on the directory does to the extents. -/
def Spec (d : Nat) (op : DirOp) (E : Extents) (a : DirResult) (E' : Extents) : Prop :=
  ∃ i buf buf', E d = some ⟨T_DIR, buf⟩ ∧ E' d = some ⟨T_DIR, buf'⟩ ∧
    op.apply i (listing buf) = (a, listing buf')

section Runs

variable {d : Nat} {E : Extents} {buf : List UInt8} (found : E d = some ⟨T_DIR, buf⟩)
  (orderly : Orderly d buf)
include found orderly

theorem runs_readdir {Q : List Entry → Extents → Prop} (holds : Q (entries buf) E) :
    (__readdir d).Runs answers (Good d) Q E := by
  have good : Good d E := ⟨buf, found, orderly⟩
  simp only [__readdir, call, done_bind, call_bind, pure_eq, Runs]
  rintro r E' ⟨x, hit, rfl, rfl⟩
  cases found.symm.trans hit
  refine ⟨good, ?_⟩
  rw [if_neg (by simp)]
  rintro ⟨r, attr⟩ E' ⟨x, hit, _, type, rfl⟩
  cases found.symm.trans hit
  refine ⟨good, ?_⟩
  dsimp only
  rw [if_neg (by simpa using type)]
  exact holds

omit found orderly in
theorem find?_lookup (list : List Entry) (name : List UInt8) :
    (list.find? (·.name = name)).map Entry.inum =
      (list.map fun e => (e.name, e.inum)).lookup name := by
  induction list with
  | nil => rfl
  | cons e list ih =>
    by_cases same : e.name = name
    · simp [same]
    · have other : (name == e.name) = false := by simpa using Ne.symm same
      simp [same, List.lookup_cons, other, ih]

theorem runs_lookup {name : List UInt8} {Q : Status × Option Nat → Extents → Prop}
    (present : ∀ i, (listing buf).lookup name = some i → Q (EXIST, some i) E)
    (absent : (listing buf).lookup name = none → Q (OK, none) E) :
    (__lookup d name).Runs answers (Good d) Q E := by
  refine Runs.bind (runs_readdir found orderly ?_)
  have looked := find?_lookup (entries buf) name
  split
  · rename_i it hit
    rw [hit] at looked
    exact present _ looked.symm
  · rename_i miss
    rw [miss] at looked
    exact absent looked.symm

omit found orderly in
theorem lookup_eq_none {m : List (List UInt8 × Nat)} {name : List UInt8} :
    m.lookup name = none ↔ name ∉ m.map Prod.fst := by
  rw [List.lookup_eq_none_iff, List.mem_map]
  constructor
  · rintro absent ⟨p, listed, rfl⟩
    simpa using absent p listed
  · intro absent p listed
    simpa using fun same : name = p.1 => absent ⟨p, listed, same.symm⟩

variable {name : Name} {Q : Status × Option Nat → Extents → Prop}
  (exist : ∀ i, (listing buf).lookup name.bytes = some i → Q (EXIST, none) E)
  (made : ∀ i buf' E', (listing buf).lookup name.bytes = none → E' d = some ⟨T_DIR, buf'⟩ →
    listing buf' = listing buf ++ [(name.bytes, i)] → Q (OK, some i) E')
include exist made

theorem runs_createNode (type : UInt32) (memory : Entry) :
    (createNode type d name.bytes memory).Runs answers (Good d) Q E := by
  simp only [createNode, acquire, release, call, acquire_bind, release_bind, done_bind, call_bind,
    pure_eq, Runs]
  refine Runs.bind (runs_lookup found orderly (fun i listed => ?_) fun missing => ?_)
  · exact exist i listed
  · rintro ⟨r, i⟩ E' ⟨dead, small, _, rfl⟩
    have apart : i ≠ d := by
      rintro rfl
      simp [found] at dead
    have still : Function.update E i (some ⟨type, []⟩) d = some ⟨T_DIR, buf⟩ := by
      rw [Function.update_of_ne (Ne.symm apart), found]
    refine ⟨⟨buf, still, orderly⟩, ?_⟩
    rintro r E' ⟨x, hit, rfl, rfl⟩
    cases still.symm.trans hit
    refine ⟨⟨buf, still, orderly⟩, ?_⟩
    dsimp only
    rw [if_neg (by simp)]
    rintro r E' ⟨x, hit, rfl, rfl⟩
    cases still.symm.trans hit
    refine ⟨⟨_, Function.update_self .., ?_⟩, ?_⟩
    · exact orderly.append memory small apart (lookup_eq_none.mp missing)
    · exact made i _ _ missing (Function.update_self ..) (listing_append orderly.whole memory name small)

theorem runs_symlink (link : List UInt8) (memory : Entry) :
    (Client.symlink d name.bytes link memory).Runs answers (Good d) Q E := by
  simp only [Client.symlink, acquire, release, call, acquire_bind, release_bind, done_bind, call_bind,
    pure_eq, Runs]
  rintro r E' ⟨x, hit, rfl, rfl⟩
  cases found.symm.trans hit
  refine ⟨⟨buf, found, orderly⟩, ?_⟩
  refine Runs.bind (runs_lookup found orderly (fun i listed => ?_) fun missing => ?_)
  · exact exist i listed
  · rintro ⟨r, i⟩ E₁ ⟨dead, small, _, rfl⟩
    have apart : i ≠ d := by
      rintro rfl
      simp [found] at dead
    have still : Function.update E' i (some ⟨T_SYMLINK, []⟩) d = some ⟨T_DIR, buf⟩ := by
      rw [Function.update_of_ne (Ne.symm apart), found]
    refine ⟨⟨buf, still, orderly⟩, ?_⟩
    rintro r E₂ ⟨x, _, rfl, rfl⟩
    have linked : Function.update (Function.update E' i (some ⟨T_SYMLINK, []⟩)) i
        (some { x with bytes := link }) d = some ⟨T_DIR, buf⟩ := by
      rw [Function.update_of_ne (Ne.symm apart), still]
    refine ⟨⟨buf, linked, orderly⟩, ?_⟩
    rintro r E₃ ⟨x, hit, rfl, rfl⟩
    cases linked.symm.trans hit
    refine ⟨⟨_, Function.update_self .., ?_⟩, ?_⟩
    · exact orderly.append memory small apart (lookup_eq_none.mp missing)
    · exact made i _ _ missing (Function.update_self ..) (listing_append orderly.whole memory name small)

end Runs

/-- Where no name is twice, the first entry of a name is the only one. -/
theorem eraseP_eq_filter {m : List (List UInt8 × Nat)} (nodup : (m.map Prod.fst).Nodup)
    (name : List UInt8) : m.eraseP (·.1 = name) = m.filter (·.1 ≠ name) := by
  induction m with
  | nil => rfl
  | cons p m ih =>
    rw [List.map_cons, List.nodup_cons] at nodup
    by_cases same : p.1 = name
    · have others : ∀ q ∈ m, q.1 ≠ name := by
        rintro q member rfl
        exact nodup.1 (same ▸ List.mem_map_of_mem member)
      rw [List.eraseP_cons_of_pos (by simpa using same), List.filter_cons_of_neg (by simpa using same),
        List.filter_eq_self.mpr (by simpa using others)]
    · rw [List.eraseP_cons_of_neg (by simpa using same), List.filter_cons_of_pos (by simpa using same),
        ih nodup.2]

theorem runs_unlink {d : Nat} {E : Extents} {buf : List UInt8} {name : List UInt8}
    {Q : Status → Extents → Prop} (found : E d = some ⟨T_DIR, buf⟩) (orderly : Orderly d buf)
    (memory : Nat → Entry) (absent : (listing buf).lookup name = none → Q NOENT E)
    (removed : ∀ i buf' E', (listing buf).lookup name = some i → E' d = some ⟨T_DIR, buf'⟩ →
      listing buf' = (listing buf).filter (·.1 ≠ name) → Q OK E') :
    (Client.unlink d name memory).Runs answers (Good d) Q E := by
  simp only [Client.unlink, acquire, release, call, acquire_bind, release_bind, done_bind, call_bind,
    pure_eq, Runs]
  refine Runs.bind (runs_readdir found orderly ?_)
  have looked := find?_lookup (entries buf) name
  split
  · rename_i miss
    rw [miss] at looked
    exact absent looked.symm
  · rename_i it hit
    rw [hit] at looked
    have member : (it.name, it.inum) ∈ listing buf :=
      List.mem_map_of_mem (f := fun e : Entry => (e.name, e.inum)) (List.mem_of_find?_eq_some hit)
    have apart : it.inum ≠ d := orderly.elsewhere (it.name, it.inum) member
    have kept : ((entries buf).eraseP (·.name = name)).Sublist (entries buf) := List.eraseP_sublist
    rintro r E₁ ⟨rfl, rfl⟩
    have still : Function.update E it.inum none d = some ⟨T_DIR, buf⟩ := by
      rw [Function.update_of_ne (Ne.symm apart), found]
    refine ⟨⟨buf, still, orderly⟩, ?_⟩
    rintro r E₂ ⟨x, hit, rfl, rfl⟩
    cases still.symm.trans hit
    refine ⟨⟨_, Function.update_self .., orderly.rewrite memory kept⟩, ?_⟩
    refine removed it.inum _ _ looked.symm (Function.update_self ..) ?_
    have short : ∀ e ∈ (entries buf).eraseP (·.name = name), e.nameLength ≤ MAX_LENGTH :=
      fun e member => orderly.short e (kept.subset member)
    rw [(listing_rewrite short memory).1, ← eraseP_eq_filter orderly.nodup, listing, List.eraseP_map]
    rfl

theorem runs (d : Nat) (op : DirOp) (E : Extents) (good : Good d E) :
    (op.program d).Runs answers (Good d) (Spec d op E) E := by
  obtain ⟨buf, found, orderly⟩ := good
  -- The three operations that make an entry.
  have exist : ∀ (name : Name) i, (listing buf).lookup name.bytes = some i →
      make name 0 (listing buf) = (.made EXIST none, listing buf) := by
    intro name i listed
    simp [make, listed]
  have made : ∀ (name : Name) i buf', (listing buf).lookup name.bytes = none →
      listing buf' = listing buf ++ [(name.bytes, i)] →
      make name i (listing buf) = (.made OK (some i), listing buf') := by
    intro name i buf' missing listed
    simp [make, missing, listed]
  cases op with
  | create name memory =>
    refine Runs.bind (runs_createNode found orderly ?_ ?_ T_FILE memory)
    · exact fun i listed => ⟨0, buf, buf, found, found, exist name i listed⟩
    · exact fun i buf' E' missing after listed =>
        ⟨i, buf, buf', found, after, made name i buf' missing listed⟩
  | mkdir name memory =>
    refine Runs.bind (runs_createNode found orderly ?_ ?_ T_DIR memory)
    · exact fun i listed => ⟨0, buf, buf, found, found, exist name i listed⟩
    · exact fun i buf' E' missing after listed =>
        ⟨i, buf, buf', found, after, made name i buf' missing listed⟩
  | symlink name link memory =>
    refine Runs.bind (runs_symlink found orderly ?_ ?_ link memory)
    · exact fun i listed => ⟨0, buf, buf, found, found, exist name i listed⟩
    · exact fun i buf' E' missing after listed =>
        ⟨i, buf, buf', found, after, made name i buf' missing listed⟩
  | unlink name memory =>
    refine Runs.bind (runs_unlink found orderly memory ?_ ?_)
    · exact fun missing => ⟨0, buf, buf, found, found, by simp [apply, missing]⟩
    · exact fun i buf' E' listed after removed =>
        ⟨0, buf, buf', found, after, by simp [apply, listed, removed]⟩
  | lookup name =>
    simp only [program, Client.lookup, acquire, release, acquire_bind, release_bind, done_bind,
      pure_eq, bind_assoc, Runs]
    refine Runs.bind (runs_lookup found orderly ?_ ?_)
    · exact fun i listed => ⟨0, buf, buf, found, found, by simp [apply, listed]⟩
    · exact fun missing => ⟨0, buf, buf, found, found, by simp [apply, missing]⟩
  | readdir =>
    simp only [program, Client.readdir, acquire, release, acquire_bind, release_bind, done_bind,
      pure_eq, bind_assoc, Runs]
    refine Runs.bind (runs_readdir found orderly ?_)
    exact ⟨0, buf, buf, found, found, rfl⟩

theorem replay_append (ops more : List (DirOp × Nat)) : ∀ m, replay (ops ++ more) m =
    ((replay ops m).1 ++ (replay more (replay ops m).2).1, (replay more (replay ops m).2).2) := by
  induction ops with
  | nil => exact fun _ => rfl
  | cons op ops ih =>
    intro m
    rw [List.cons_append, replay, ih, replay]
    rfl

/-- A serial history is a replay, for some choice of the new inums. -/
theorem replay_of_serial {d : Nat} {E₀ E : Extents} {buf₀ : List UInt8}
    {h : List (DirOp × DirResult)} (found : E₀ d = some ⟨T_DIR, buf₀⟩)
    (serial : Serial (Spec d) E₀ h E) :
    ∃ picks buf, picks.length = h.length ∧ E d = some ⟨T_DIR, buf⟩ ∧
      replay ((h.map Prod.fst).zip picks) (listing buf₀) = (h.map Prod.snd, listing buf) := by
  induction serial with
  | nil => exact ⟨[], buf₀, rfl, found, rfl⟩
  | snoc _ done ih =>
    obtain ⟨picks, buf, length, content, replayed⟩ := ih
    obtain ⟨i, buf', buf'', before, after, applied⟩ := done
    cases content.symm.trans before
    refine ⟨picks ++ [i], buf'', by simp [length], after, ?_⟩
    rw [List.map_append, List.zip_append (by simp [length]), replay_append, replayed]
    simp [replay, applied]

theorem mem_keys_make {n : Name} {i : Nat} {m : List (List UInt8 × Nat)} {name : List UInt8} :
    name ∈ (make n i m).2.map Prod.fst ↔ name ∈ m.map Prod.fst ∨ n.bytes = name := by
  unfold make
  split
  · rename_i j listed
    have present : n.bytes ∈ m.map Prod.fst := by
      by_contra absent
      rw [lookup_eq_none.mpr absent] at listed
      cases listed
    constructor
    · exact Or.inl
    · rintro (old | rfl)
      · exact old
      · exact present
  · rw [List.map_append, List.mem_append, List.map_singleton, List.mem_singleton, eq_comm]

/-- Where `name` is not unlinked, it is listed from the time on that it is made. -/
theorem mem_keys_apply {op : DirOp} {i : Nat} {m : List (List UInt8 × Nat)} {name : List UInt8}
    (kept : ¬ op.Unlinks name) :
    name ∈ (op.apply i m).2.map Prod.fst ↔ name ∈ m.map Prod.fst ∨ op.Makes name := by
  cases op with
  | create n memory => exact mem_keys_make
  | mkdir n memory => exact mem_keys_make
  | symlink n link memory => exact mem_keys_make
  | unlink n memory =>
    have other : name ≠ n.bytes := fun same => kept same.symm
    rcases listed : m.lookup n.bytes with _ | j
    · simp [apply, listed, Makes]
    · simp [apply, listed, Makes, other]
  | lookup n =>
    rcases listed : m.lookup n.bytes with _ | j <;> simp [apply, listed, Makes]
  | readdir => simp [apply, Makes]

theorem mem_keys_replay {name : List UInt8} (ops : List (DirOp × Nat)) :
    (∀ p ∈ ops, ¬ p.1.Unlinks name) → ∀ m, name ∈ (replay ops m).2.map Prod.fst ↔
      name ∈ m.map Prod.fst ∨ ∃ p ∈ ops, p.1.Makes name := by
  induction ops with
  | nil => simp [replay]
  | cons p ops ih =>
    intro kept m
    rw [List.forall_mem_cons] at kept
    rw [replay, ih kept.2, mem_keys_apply kept.1, or_assoc, List.exists_mem_cons_iff]

/-- The result of one operation of a replay. -/
theorem replay_getElem? {op : DirOp} {i : Nat} (ops : List (DirOp × Nat)) :
    ∀ {n}, ops[n]? = some (op, i) → ∀ m,
      (replay ops m).1[n]? = some (op.apply i (replay (ops.take n) m).2).1 := by
  induction ops with
  | nil => simp
  | cons p ops ih =>
    intro n entry m
    cases n with
    | zero =>
      cases entry
      rfl
    | succ n => exact ih entry (p.1.apply p.2 m).2

/-- Of the operations that make an entry for an absent name, the first makes it. -/
theorem replay_makes {name : List UInt8} {ops : List (DirOp × Nat)} {n : Nat} {op : DirOp} {i : Nat}
    {m : List (List UInt8 × Nat)} (absent : name ∉ m.map Prod.fst)
    (kept : ∀ p ∈ ops, ¬ p.1.Unlinks name) (entry : ops[n]? = some (op, i)) (makes : op.Makes name) :
    ((∃ p ∈ ops.take n, p.1.Makes name) → (replay ops m).1[n]? = some (.made EXIST none)) ∧
      ((∀ p ∈ ops.take n, ¬ p.1.Makes name) → (replay ops m).1[n]? = some (.made OK (some i))) := by
  have listed := mem_keys_replay (ops.take n) (fun p member => kept p (List.mem_of_mem_take member)) m
  have applied : ∃ target : Name, target.bytes = name ∧ ∀ m, op.apply i m = make target i m := by
    cases op with
    | create target memory => exact ⟨target, makes, fun _ => rfl⟩
    | mkdir target memory => exact ⟨target, makes, fun _ => rfl⟩
    | symlink target link memory => exact ⟨target, makes, fun _ => rfl⟩
    | unlink target memory => exact makes.elim
    | lookup target => exact makes.elim
    | readdir => exact makes.elim
  obtain ⟨target, rfl, same⟩ := applied
  rw [replay_getElem? ops entry, same]
  constructor
  · intro earlier
    have present := listed.mpr (.inr earlier)
    unfold make
    split
    · rfl
    · exact absurd present (lookup_eq_none.mp ‹_›)
  · intro first
    have missing : target.bytes ∉ (replay (ops.take n) m).2.map Prod.fst := by
      rw [listed]
      rintro (old | ⟨p, member, made⟩)
      · exact absent old
      · exact first p member made
    rw [make, lookup_eq_none.mpr missing]

/-- Any number of threads that work on one directory get the results, and leave the
entries, of doing so one at a time in the order of their locks on a finite ordered map.
At no time is a name listed twice. Of the operations that make an absent name which is
not unlinked, the first to get the lock makes it and the others find it there. -/
theorem directory_serialised {Tid : Type} [DecidableEq Tid] {d : Nat} {E₀ : Extents} {buf₀ : List UInt8}
    (found : E₀ d = some ⟨T_DIR, buf₀⟩) (orderly : Orderly d buf₀)
    {K : Pool Nat Call Call.Reply DirResult Tid DirOp Extents}
    (reach : Pool.Reachable (program d) answers E₀ K) :
    (∃ picks : List Nat, picks.length = K.order.length ∧
      (∀ n a, (n, a) ∈ K.results → (replay (K.order.zip picks) (listing buf₀)).1[n]? = some a) ∧
      (K.Idle d → ∃ buf, K.store d = some ⟨T_DIR, buf⟩ ∧
        listing buf = (replay (K.order.zip picks) (listing buf₀)).2)) ∧
    (∃ buf, K.store d = some ⟨T_DIR, buf⟩ ∧ ((listing buf).map Prod.fst).Nodup) ∧
    (∀ name, name ∉ (listing buf₀).map Prod.fst → (∀ op ∈ K.order, ¬ op.Unlinks name) →
      ∀ n a op, (n, a) ∈ K.results → K.order[n]? = some op → op.Makes name →
        ((∃ op' ∈ K.order.take n, op'.Makes name) → a = .made EXIST none) ∧
        ((∀ op' ∈ K.order.take n, ¬ op'.Makes name) → ∃ i, a = .made OK (some i))) ∧
    ∀ i th, K.threads i = some th → th.rest ≠ .abort := by
  obtain ⟨⟨buf, content, neat⟩, h, E, serial, results, ⟨more, order⟩, idle, noAbort⟩ :=
    reach.serialised (guarded d) (runs d) ⟨buf₀, found, orderly⟩
  obtain ⟨picks, buf', length, after, replayed⟩ := replay_of_serial found serial
  -- An operation that is still inside gets an inum that no result depends on.
  have zipped : K.order.zip (picks ++ List.replicate more.length 0) =
      (h.map Prod.fst).zip picks ++ more.zip (List.replicate more.length 0) := by
    rw [← order, List.zip_append (by simp [length])]
  have all : (picks ++ List.replicate more.length 0).length = K.order.length := by
    simp [← order, length]
  generalize picks ++ List.replicate more.length 0 = choice at zipped all
  have answered : ∀ n a, (n, a) ∈ K.results →
      (replay (K.order.zip choice) (listing buf₀)).1[n]? = some a := by
    intro n a finished
    obtain ⟨op, entry⟩ := results n a finished
    have small := (List.getElem?_eq_some_iff.mp entry).1
    rw [zipped, replay_append, replayed, List.getElem?_append_left (by simpa using small)]
    simp [entry]
  refine ⟨⟨choice, all, answered, ?_⟩, ⟨buf, content, neat.nodup⟩, ?_, noAbort⟩
  · intro quiet
    obtain ⟨complete, store⟩ := idle quiet
    have none : more = [] := by simpa [complete] using order
    subst none
    refine ⟨buf', by rw [store, after], ?_⟩
    rw [zipped, List.zip_nil_left, List.append_nil, replayed]
  · intro name absent kept n a op finished entry makes
    have jobs : (K.order.zip choice).map Prod.fst = K.order := List.map_fst_zip (by omega)
    have earlier : ((K.order.zip choice).take n).map Prod.fst = K.order.take n := by
      rw [List.map_take, jobs]
    have small := (List.getElem?_eq_some_iff.mp entry).1
    have paired : (K.order.zip choice)[n]? = some (op, choice.getD n 0) := by
      rw [List.getElem?_zip_eq_some]
      exact ⟨entry, by simp [show n < choice.length by omega]⟩
    have spared : ∀ p ∈ K.order.zip choice, ¬ p.1.Unlinks name := fun p member =>
      kept p.1 (jobs ▸ List.mem_map_of_mem member)
    obtain ⟨exist, made⟩ := replay_makes absent spared paired makes
    rw [answered n a finished] at exist made
    rw [← earlier]
    constructor
    · rintro ⟨op', member, making⟩
      obtain ⟨p, taken, rfl⟩ := List.mem_map.mp member
      exact Option.some.inj (exist ⟨p, taken, making⟩)
    · intro first
      have none : ∀ p ∈ (K.order.zip choice).take n, ¬ p.1.Makes name :=
        fun p taken => first p.1 (List.mem_map_of_mem taken)
      exact ⟨_, Option.some.inj (made none)⟩

private def notes : Name := ⟨[110], by decide, by decide, by decide⟩

private def touch : DirOp := .create notes fun _ => 0

private def emptyDir : Extents := fun id => if id = 1 then some ⟨T_DIR, []⟩ else none

/-- Two threads create the same name, and the second one waits for the lock. -/
theorem directory_serialised_touched : ∃ picks : List Nat, picks.length = 2 ∧
    (replay ([touch, touch].zip picks) []).1[0]? = some (.made OK (some 2)) ∧
    (replay ([touch, touch].zip picks) []).1[1]? = some (.made EXIST none) := by
  have orderly : Orderly 1 [] := ⟨Nat.dvd_zero _, by simp [entries_nil], by simp [listing, entries_nil],
    by simp [listing, entries_nil]⟩
  have starts {K : Pool Nat Call Call.Reply DirResult Nat DirOp Extents} (i : Nat)
      (reach : Pool.Reachable (program 1) answers emptyDir K) (idle : K.threads i = none) :
      Pool.Reachable (program 1) answers emptyDir (K.setThread i (some ⟨touch, program 1 touch, 0⟩)) :=
    reach.step (.start idle)
  have both := starts 1 (starts 0 .init rfl) rfl
  have locked := both.step (.acquire (i := 0) rfl rfl)
  have got := locked.step (.call (i := 0) rfl ⟨⟨T_DIR, []⟩, rfl, rfl, rfl⟩)
  have typed := got.step (.call (i := 0) (r := (OK, ⟨T_DIR, 0, 0, 0, 0⟩)) rfl
    ⟨⟨T_DIR, []⟩, rfl, rfl, rfl, rfl⟩)
  have created := typed.step (.call (i := 0) (r := (OK, 2)) rfl ⟨rfl, by decide, rfl, rfl⟩)
  have again := created.step (.call (i := 0) rfl ⟨⟨T_DIR, []⟩, rfl, rfl, rfl⟩)
  have put := again.step (.call (i := 0) rfl ⟨⟨T_DIR, []⟩, rfl, rfl, rfl⟩)
  have first := (put.step (.release (i := 0) rfl)).step (.finish (i := 0) rfl)
  have locked := first.step (.acquire (i := 1) rfl rfl)
  have got := locked.step (.call (i := 1) rfl ⟨⟨T_DIR, _⟩, rfl, rfl, rfl⟩)
  have typed := got.step (.call (i := 1) (r := (OK, ⟨T_DIR, 0, 0, 0, 0⟩)) rfl
    ⟨⟨T_DIR, _⟩, rfl, rfl, rfl, rfl⟩)
  have second := (typed.step (.release (i := 1) (l := 1) rfl)).step (.finish (i := 1) rfl)
  have found : emptyDir 1 = some ⟨T_DIR, []⟩ := rfl
  obtain ⟨picks, length, results, _⟩ := (directory_serialised found orderly second).1
  have made := results 0 (.made OK (some 2)) (.tail _ (.head _))
  exact ⟨picks, length, made, results 1 (.made EXIST none) (.head _)⟩

end DirOp

end Yfs.Client
