import Yfs.Client.Tree

/-! Names in the directory format. FUSE passes names of up to 255 bytes, while an entry
has room for `MAX_LENGTH`. -/

namespace Yfs.Client

open Yfs.Lib Yfs.Store Program

/-- The bytes from `off` on lie in the `name` of an `entry_t`. -/
def Entry.InName (off length : Nat) : Prop := 8 ≤ off ∧ off + length ≤ 8 + MAX_LENGTH

/-- What is to hold of a creation that has returned: one record with the name is behind
the records there were, `lookup` and `readdir` find it, and it outlives the `unlink` of
another name. -/
structure Survives (m : Making) (ino : Nat) (E E' : Extents) : Prop where
  record : ∃ buf, ∃ e : Entry, E m.parent = some ⟨T_DIR, buf⟩ ∧
    E' m.parent = some ⟨T_DIR, buf ++ e.bytes⟩ ∧ Entry.InName 8 m.name.bytes.length ∧
    e.nameLength = m.name.bytes.length
  decoded : ∃ buf buf' e, E m.parent = some ⟨T_DIR, buf⟩ ∧ E' m.parent = some ⟨T_DIR, buf'⟩ ∧
    entries buf' = entries buf ++ [e] ∧ e.name = m.name.bytes ∧ e.inum = ino
  found : (lookup m.parent m.name.bytes).Achieves answers
    (fun r t => r = (EXIST, some ino) ∧ t = E') E'
  listed : (readdir m.parent).Achieves answers (fun r t => r.1 = OK ∧
    r.2.filter (·.1 = m.name.bytes) = [(m.name.bytes, ino)] ∧ t = E') E'
  kept : ∀ (other : Component) memory E'', other.bytes ≠ m.name.bytes →
    Returns answers (unlink m.parent other.bytes memory) E' OK E'' →
    ∃ buf rest e, E'' m.parent = some ⟨T_DIR, buf⟩ ∧ entries buf = rest ++ [e] ∧
      e.name = m.name.bytes ∧ e.inum = ino

section Whole

variable {E E' : Extents} {op : TreeOp} {r : Status × Option Nat} {log : List TreeEvent}

/-- The content of every directory is made of whole records. -/
def Whole (E : Extents) : Prop := ∀ d buf, E d = some ⟨T_DIR, buf⟩ → ENTRY_SIZE ∣ buf.length

theorem Whole.made {m : Making} {buf : List UInt8} (whole : Whole E) (making : op.making = some m)
    (found : E m.parent = some ⟨T_DIR, buf⟩) (ino : Nat) : Whole (m.apply ino buf E) := by
  refine Making.apply_directories whole making ?_ (Nat.dvd_zero _)
  rw [List.length_append, Entry.bytes_length]
  exact Nat.dvd_add (whole _ _ found) (Nat.dvd_refl _)

theorem Whole.step (whole : Whole E) (step : op.Step E r E') : Whole E' := by
  cases step.effect with
  | exist => exact whole
  | made making found => exact whole.made making found _
  | absent => exact whole
  | unlinked => exact unlinked_directories whole (whole_rewrite _ _)
  | written _ _ file => exact written_directories whole file

theorem TreeRun.whole (run : TreeRun log E) : Whole E := by
  induction run with
  | nil => exact emptyRoot_directories (Nat.dvd_zero _)
  | cons _ step ih => exact ih.step step

end Whole

section Made

variable {E : Extents} {d : Nat} {buf : List UInt8}

theorem achieves_readdir {Q : List Entry → Extents → Prop} (found : E d = some ⟨T_DIR, buf⟩)
    (holds : Q (entries buf) E) : (__readdir d).Achieves answers Q E := by
  simp only [__readdir, call, done_bind, call_bind, pure_eq]
  refine .call ⟨(OK, buf), E, _, found, rfl, rfl⟩ ?_
  rintro r E₁ ⟨x, hit, rfl, rfl⟩
  cases found.symm.trans hit
  rw [if_neg (by simp)]
  refine .call ⟨(OK, ⟨T_DIR, 0, 0, 0, 0⟩), E₁, _, found, rfl, rfl, rfl⟩ ?_
  rintro ⟨r, a⟩ E₂ ⟨x, hit, _, type, rfl⟩
  cases found.symm.trans hit
  dsimp only at type ⊢
  rw [if_neg (by simp [type])]
  exact achieves_done.mpr holds

/-- `unlink` of another name writes the last entry anew. -/
theorem unlink_keeps_last {E' : Extents} {front : List Entry} {last : Entry} {other : List UInt8}
    {memory : Nat → Entry} (found : E d = some ⟨T_DIR, buf⟩) (split : entries buf = front ++ [last])
    (fits : last.nameLength ≤ MAX_LENGTH) (different : last.name ≠ other)
    (returned : Returns answers (unlink d other memory) E OK E') :
    ∃ buf' rest it, E' d = some ⟨T_DIR, buf'⟩ ∧ entries buf' = rest ++ [it] ∧
      it.name = last.name ∧ it.inum = last.inum := by
  obtain ⟨buf₀, found₀, ⟨_, impossible, _⟩ | ⟨gone, hit, _, _, rfl⟩⟩ := returns_unlink agrees_answers returned
  · cases impossible
  · cases found.symm.trans found₀
    obtain ⟨rest, erased⟩ : ∃ rest, (entries buf).eraseP (·.name = other) = rest ++ [last] := by
      rw [split, List.eraseP_append]
      split
      · exact ⟨_, rfl⟩
      · exact ⟨front, by rw [List.eraseP_cons_of_neg (by simpa using different), List.eraseP_nil]⟩
    have written : entries (rewrite memory (rest ++ [last])) =
        (rest.mapIdx fun k it => (again (memory k) it).reread) ++
          [(again (memory rest.length) last).reread] := by
      rw [entries_rewrite, List.mapIdx_concat]
    obtain ⟨named, numbered, -⟩ := again_reread (memory rest.length) fits
    exact ⟨_, _, _, by simp [unlinked, erased], written, named, numbered⟩

theorem survives_of_short {m : Making} {ino : Nat} (whole : Whole E)
    (found : E m.parent = some ⟨T_DIR, buf⟩)
    (miss : (entries buf).find? (·.name = m.name.bytes) = none) (small : ino < 2 ^ 64)
    (short : m.name.bytes.length ≤ MAX_LENGTH) : Survives m ino E (m.apply ino buf E) := by
  let e : Entry := newEntry m.memory ino m.name.bytes
  have after : m.apply ino buf E m.parent = some ⟨T_DIR, buf ++ e.bytes⟩ := by simp [Making.apply, e]
  have decoded : entries (buf ++ e.bytes) = entries buf ++ [e.reread] :=
    entries_append (whole _ _ found) e
  have name : e.reread.name = m.name.bytes := @name_newEntry m.memory ino (m.name.toName short)
  have inum : e.reread.inum = ino := @inum_newEntry m.memory ino (m.name.toName short) small
  have length : e.nameLength = m.name.bytes.length := Entry.nameLength_make short
  have absent : ∀ it ∈ entries buf, it.name ≠ m.name.bytes := by
    simpa [List.find?_eq_none] using miss
  constructor
  · exact ⟨buf, e, found, after, ⟨Nat.le_refl _, Nat.add_le_add_left short 8⟩, length⟩
  · exact ⟨buf, _, e.reread, found, after, decoded, name, inum⟩
  · simp only [Client.lookup, acquire, release, acquire_bind, release_bind, done_bind, pure_eq,
      achieves_acquire]
    refine Achieves.bind (Achieves.bind (achieves_readdir after ?_))
    rw [decoded, List.find?_append, miss, Option.none_or, List.find?_cons_of_pos (by simpa using name)]
    simp [inum]
  · simp only [Client.readdir, acquire, release, acquire_bind, release_bind, done_bind, pure_eq,
      achieves_acquire]
    refine Achieves.bind (achieves_readdir after ?_)
    rw [decoded, List.map_append, List.map_singleton, name, inum]
    simpa [List.filter_append] using absent
  · intro other memory E'' different returned
    have fits : e.reread.nameLength ≤ MAX_LENGTH := by
      rw [Entry.nameLength_reread, length]
      exact short
    obtain ⟨buf', rest, it, found', split, named, numbered⟩ :=
      unlink_keeps_last after decoded fits (by simp [name, Ne.symm different]) returned
    exact ⟨buf', rest, it, found', split, named.trans name, numbered.trans inum⟩

/-- In every run, every creation that returns OK puts its name in the directory for good
if and only if every name it makes an entry for has at most `MAX_LENGTH` bytes. -/
theorem TreeRun.survive_iff_short {log : List TreeEvent} (run : TreeRun log E) :
    (∀ e ∈ log, ∀ m ino, e.op.making = some m → e.result = (OK, some ino) →
      Survives m ino e.before e.after) ↔
    (∀ e ∈ log, ∀ m ino, e.op.making = some m → e.result = (OK, some ino) →
      m.name.bytes.length ≤ MAX_LENGTH) := by
  constructor
  · intro survive e member m ino making result
    obtain ⟨buf, it, -, -, ⟨-, inside⟩, -⟩ := (survive e member m ino making result).record
    exact Nat.le_of_add_le_add_left inside
  · intro short
    induction run with
    | nil => simp
    | cons run step ih =>
      rw [List.forall_mem_cons] at short ⊢
      refine ⟨?_, ih short.2⟩
      intro m ino making result
      have fits := short.1 m ino making result
      dsimp only at making result fits ⊢
      cases step.effect with
      | made making' found miss dead small =>
        cases making.symm.trans making'
        cases result
        exact survives_of_short run.whole found miss small fits
      | exist => cases result
      | absent => cases making
      | unlinked => cases making
      | written => cases result

end Made

section Long

private def zeroes : Entry := fun _ => 0

private def shortName : Component := ⟨[115], by decide, by decide, by decide, by decide⟩

private def shortMade : Extents := Making.apply ⟨1, shortName, zeroes, T_FILE, []⟩ 2 [] emptyRoot

theorem TreeRun.survive_iff_short_one :
    Survives ⟨1, shortName, zeroes, T_FILE, []⟩ 2 emptyRoot shortMade := by
  have run : TreeRun [⟨emptyRoot, .create 1 shortName zeroes, (OK, some 2), shortMade⟩] shortMade := by
    have root : emptyRoot 1 = some ⟨T_DIR, []⟩ := rfl
    refine .cons .nil ⟨by simp [TreeOp.target], ?_⟩
    exact createNode_returns root T_FILE zeroes rfl rfl (by decide)
  refine run.survive_iff_short.mpr ?_ _ (List.mem_singleton_self _) _ 2 rfl rfl
  intro e member m ino making result
  rw [List.mem_singleton.mp member] at making
  cases making
  decide

/-- A name of 65 bytes. -/
private def longName : Component :=
  ⟨List.replicate 65 97, by decide, by decide, by decide, by decide⟩

private def longMade : Extents := Making.apply ⟨1, longName, zeroes, T_FILE, []⟩ 2 [] emptyRoot

/-- The last byte of the name becomes the `name_length` of its entry, and `lookup` does
not find the file that has been created. -/
theorem TreeRun.long_name_lost :
    TreeRun [⟨emptyRoot, .create 1 longName zeroes, (OK, some 2), longMade⟩] longMade ∧
    ¬ Survives ⟨1, longName, zeroes, T_FILE, []⟩ 2 emptyRoot longMade ∧
    Returns answers (__lookup 1 longName.bytes) longMade (OK, none) longMade := by
  let e : Entry := newEntry zeroes 2 longName.bytes
  have found : longMade 1 = some ⟨T_DIR, [] ++ e.bytes⟩ := rfl
  have length : e.reread.nameLength = 97 := by
    rw [Entry.nameLength_reread]
    decide
  have different : e.reread.name ≠ longName.bytes := by
    intro same
    have lengths := congrArg List.length same
    simp [Entry.name, length, longName] at lengths
  have miss : (entries ([] ++ e.bytes)).find? (·.name = longName.bytes) = none := by
    rw [entries_append (by decide)]
    simpa [List.find?_eq_none, entries_nil] using different
  have root : emptyRoot 1 = some ⟨T_DIR, []⟩ := rfl
  refine ⟨.cons .nil ⟨by simp [TreeOp.target], ?_⟩, ?_, lookup_returns agrees_answers found miss⟩
  · exact createNode_returns root T_FILE zeroes rfl rfl (by decide)
  · intro survives
    obtain ⟨runs, -⟩ := survives.found
    have returned : Returns answers (Client.lookup 1 longName.bytes) longMade (OK, none) longMade :=
      .acquire ((lookup_returns agrees_answers found miss).bind (.release .done))
    cases (returned.satisfies runs).1

end Long

end Yfs.Client
