import Yfs.Client.Operations
import Mathlib.Data.List.Nodup

/-! The format of directories: what is in the bytes, and what the two ways of writing
them do to it. -/

namespace Yfs.Client

open Yfs.Lib

/-- The names and inums in the content of a directory, in order. -/
def listing (buf : List UInt8) : List (List UInt8 × Nat) :=
  (entries buf).map fun e => (e.name, e.inum)

namespace Entry

/-- An entry after its bytes were written and read again. -/
def reread (e : Entry) : Entry := fun k => e.bytes.getD k 0

theorem bytes_length (e : Entry) : e.bytes.length = ENTRY_SIZE := by simp [bytes]

theorem reread_apply {e : Entry} {k : Nat} (inside : k < ENTRY_SIZE) : e.reread k = e k := by
  simp [reread, bytes, inside]

theorem inum_reread (e : Entry) : e.reread.inum = e.inum :=
  load_congr 8 0 fun _ _ small => reread_apply (by simp only [ENTRY_SIZE]; omega)

theorem nameLength_reread (e : Entry) : e.reread.nameLength = e.nameLength :=
  load_congr 4 72 fun _ _ small => reread_apply (by simp only [ENTRY_SIZE]; omega)

theorem name_reread {e : Entry} (short : e.nameLength ≤ MAX_LENGTH) : e.reread.name = e.name := by
  unfold name
  rw [nameLength_reread]
  apply List.map_congr_left
  intro k inside
  have small := List.mem_range.mp inside
  simp only [MAX_LENGTH] at short
  exact reread_apply (by simp only [ENTRY_SIZE]; omega)

section Make

variable {memory : Entry} {inum length : Nat} {name : Nat → UInt8}

theorem inum_make (small : inum < 2 ^ 64) : (make memory inum name length).inum = inum := by
  unfold make Entry.inum
  rw [load_copy_apart (by omega), load_store_apart (by omega), load_store,
    Nat.mod_eq_of_lt (by omega)]

theorem nameLength_make (short : length ≤ MAX_LENGTH) :
    (make memory inum name length).nameLength = length := by
  simp only [MAX_LENGTH] at short
  unfold make nameLength
  rw [load_copy_apart (by omega), load_store, Nat.mod_eq_of_lt (by omega)]

theorem name_make (short : length ≤ MAX_LENGTH) :
    (make memory inum name length).name = (List.range length).map name := by
  unfold Entry.name
  rw [nameLength_make short]
  apply List.map_congr_left
  intro k inside
  have small := List.mem_range.mp inside
  rw [make, copy, if_pos (by omega), Nat.add_sub_cancel_left]

end Make

end Entry

theorem entries_nil : entries [] = [] := rfl

/-- The first record of a content. -/
theorem entries_cons (e : Entry) (buf : List UInt8) :
    entries (e.bytes ++ buf) = e.reread :: entries buf := by
  have count : (e.bytes ++ buf).length / ENTRY_SIZE = buf.length / ENTRY_SIZE + 1 := by
    rw [List.length_append, e.bytes_length, Nat.add_comm, Nat.add_div_right _ (by decide)]
  unfold entries
  rw [count, List.range_succ_eq_map, List.map_cons, List.map_map]
  refine List.cons_eq_cons.mpr ⟨?_, ?_⟩
  · funext k
    simp [Entry.reread, ← e.bytes_length]
  · apply List.map_congr_left
    intro i _
    funext k
    have skip : (i + 1) * ENTRY_SIZE = e.bytes.length + i * ENTRY_SIZE := by
      rw [e.bytes_length, Nat.succ_mul, Nat.add_comm]
    simp only [Function.comp, Nat.succ_eq_add_one, skip, List.drop_length_add_append]

/-- A record behind whole records. -/
theorem entries_append {buf : List UInt8} (whole : ENTRY_SIZE ∣ buf.length) (e : Entry) :
    entries (buf ++ e.bytes) = entries buf ++ [e.reread] := by
  obtain ⟨n, length⟩ := whole
  have positive : 0 < ENTRY_SIZE := by decide
  have count : (buf ++ e.bytes).length / ENTRY_SIZE = n + 1 := by
    rw [List.length_append, e.bytes_length, length, Nat.add_div_right _ positive,
      Nat.mul_div_cancel_left _ positive]
  unfold entries
  rw [count, length, Nat.mul_div_cancel_left _ positive, List.range_succ, List.map_append]
  congr 1
  · apply List.map_congr_left
    intro i inside
    have within : i * ENTRY_SIZE + ENTRY_SIZE ≤ buf.length := by
      rw [length, ← Nat.succ_mul, Nat.mul_comm]
      exact Nat.mul_le_mul_left _ (List.mem_range.mp inside)
    funext k
    rw [List.drop_append_of_le_length (by omega), List.take_append_of_le_length (by simp; omega)]
  · simp only [List.map_singleton, List.cons.injEq, and_true]
    funext k
    rw [Nat.mul_comm, ← length, List.drop_left, ← e.bytes_length, List.take_length]
    rfl

/-- A name of a file: a C string that fits in an entry. -/
structure Name where
  bytes : List UInt8
  nonempty : 1 ≤ bytes.length
  short : bytes.length ≤ MAX_LENGTH
  noNul : 0 ∉ bytes

/-- The content of a directory `d`: whole entries whose names fit, no name twice, and
none of them for `d` itself. -/
structure Orderly (d : Nat) (buf : List UInt8) : Prop where
  whole : ENTRY_SIZE ∣ buf.length
  short : ∀ e ∈ entries buf, e.nameLength ≤ MAX_LENGTH
  nodup : ((listing buf).map Prod.fst).Nodup
  elsewhere : ∀ p ∈ listing buf, p.2 ≠ d

section NewEntry

variable {memory : Entry} {inum : Nat} {name : Name}

theorem nameLength_newEntry : (newEntry memory inum name.bytes).reread.nameLength ≤ MAX_LENGTH := by
  rw [Entry.nameLength_reread, newEntry, Entry.nameLength_make name.short]
  exact name.short

theorem name_newEntry : (newEntry memory inum name.bytes).reread.name = name.bytes := by
  have fits : (newEntry memory inum name.bytes).nameLength ≤ MAX_LENGTH := by
    rw [newEntry, Entry.nameLength_make name.short]
    exact name.short
  rw [Entry.name_reread fits, newEntry, Entry.name_make name.short]
  apply List.ext_getElem
  · simp
  · intro k _ inside
    simp [inside]

theorem inum_newEntry (small : inum < 2 ^ 64) : (newEntry memory inum name.bytes).reread.inum = inum := by
  rw [Entry.inum_reread, newEntry, Entry.inum_make small]

end NewEntry

/-- `buf += str`. -/
theorem listing_append {buf : List UInt8} {inum : Nat} (whole : ENTRY_SIZE ∣ buf.length)
    (memory : Entry) (name : Name) (small : inum < 2 ^ 64) :
    listing (buf ++ (newEntry memory inum name.bytes).bytes) = listing buf ++ [(name.bytes, inum)] := by
  unfold listing
  rw [entries_append whole, List.map_append, List.map_singleton, name_newEntry, inum_newEntry small]

theorem Orderly.append {d inum : Nat} {buf : List UInt8} {name : Name} (orderly : Orderly d buf)
    (memory : Entry) (small : inum < 2 ^ 64) (apart : inum ≠ d)
    (absent : name.bytes ∉ (listing buf).map Prod.fst) :
    Orderly d (buf ++ (newEntry memory inum name.bytes).bytes) := by
  have listed := listing_append orderly.whole memory name small
  constructor
  · rw [List.length_append, Entry.bytes_length]
    exact Nat.dvd_add orderly.whole (Nat.dvd_refl _)
  · rw [entries_append orderly.whole, List.forall_mem_append, List.forall_mem_singleton]
    exact ⟨orderly.short, nameLength_newEntry⟩
  · rw [listed, List.map_append, List.map_singleton]
    exact orderly.nodup.append (List.nodup_singleton _) (by simpa using absent)
  · rw [listed, List.forall_mem_append, List.forall_mem_singleton]
    exact ⟨orderly.elsewhere, apart⟩

section Rewrite

theorem again_reread (memory : Entry) {it : Entry} (fits : it.nameLength ≤ MAX_LENGTH) :
    (again memory it).reread.name = it.name ∧ (again memory it).reread.inum = it.inum ∧
      (again memory it).reread.nameLength ≤ MAX_LENGTH := by
  have same : (again memory it).nameLength = it.nameLength := Entry.nameLength_make fits
  refine ⟨?_, ?_, ?_⟩
  · rw [Entry.name_reread (same.symm ▸ fits)]
    exact Entry.name_make fits
  · rw [Entry.inum_reread]
    exact Entry.inum_make (load_lt it 8 0)
  · rw [Entry.nameLength_reread, same]
    exact fits

theorem rewrite_cons (memory : Nat → Entry) (it : Entry) (list : List Entry) :
    rewrite memory (it :: list) = (again (memory 0) it).bytes ++ rewrite (fun k => memory (k + 1)) list := by
  rw [rewrite, List.mapIdx_cons, List.flatten_cons]
  rfl

theorem whole_rewrite (list : List Entry) : ∀ memory, ENTRY_SIZE ∣ (rewrite memory list).length := by
  induction list with
  | nil => exact fun _ => Nat.dvd_zero _
  | cons it list ih =>
    intro memory
    rw [rewrite_cons, List.length_append, Entry.bytes_length]
    exact Nat.dvd_add (Nat.dvd_refl _) (ih _)

/-- What `unlink` writes holds the entries it was given, one record for each. -/
theorem entries_rewrite (list : List Entry) : ∀ memory, entries (rewrite memory list) =
    list.mapIdx fun k it => (again (memory k) it).reread := by
  induction list with
  | nil =>
    intro memory
    simp [rewrite, entries_nil]
  | cons it list ih =>
    intro memory
    rw [rewrite_cons, entries_cons, ih, List.mapIdx_cons]

/-- What `unlink` writes lists the entries it was given. -/
theorem listing_rewrite {list : List Entry} (short : ∀ e ∈ list, e.nameLength ≤ MAX_LENGTH) :
    ∀ memory, listing (rewrite memory list) = list.map (fun e => (e.name, e.inum)) ∧
      ∀ e ∈ entries (rewrite memory list), e.nameLength ≤ MAX_LENGTH := by
  induction list with
  | nil => exact fun _ => ⟨by simp [listing, rewrite, entries_nil], by simp [rewrite, entries_nil]⟩
  | cons it list ih =>
    intro memory
    rw [List.forall_mem_cons] at short
    obtain ⟨listed, shorter⟩ := ih short.2 fun k => memory (k + 1)
    obtain ⟨named, numbered, fits⟩ := again_reread (memory 0) short.1
    rw [rewrite_cons, listing, entries_cons, List.map_cons, List.map_cons, named, numbered,
      List.forall_mem_cons]
    exact ⟨by rw [← listed]; rfl, fits, shorter⟩

/-- What `unlink` leaves of the names and inums. -/
theorem listing_erase {buf : List UInt8} (short : ∀ e ∈ entries buf, e.nameLength ≤ MAX_LENGTH)
    (memory : Nat → Entry) (name : List UInt8) :
    listing (rewrite memory ((entries buf).eraseP (·.name = name))) =
      (listing buf).eraseP (·.1 = name) := by
  have kept : ∀ e ∈ (entries buf).eraseP (·.name = name), e.nameLength ≤ MAX_LENGTH :=
    fun e member => short e (List.mem_of_mem_eraseP member)
  rw [(listing_rewrite kept memory).1, listing, List.eraseP_map]
  rfl

/-- The names and inums around the entry that `unlink` erases. -/
theorem listing_around {buf name : List UInt8} {it : Entry} (memory : Nat → Entry)
    (short : ∀ e ∈ entries buf, e.nameLength ≤ MAX_LENGTH)
    (hit : (entries buf).find? (·.name = name) = some it) :
    ∃ before after, listing buf = before ++ (name, it.inum) :: after ∧
      listing (rewrite memory ((entries buf).eraseP (·.name = name))) = before ++ after := by
  obtain ⟨named, first, last, split, none⟩ := List.find?_eq_some_iff_append.mp hit
  have erased : (entries buf).eraseP (·.name = name) = first ++ last := by
    rw [split, List.eraseP_append_right _ (by simpa using none),
      List.eraseP_cons_of_pos (by simpa using named)]
  have kept : ∀ e ∈ first ++ last, e.nameLength ≤ MAX_LENGTH := by
    intro e member
    apply short e
    rw [split]
    simp at member ⊢
    tauto
  refine ⟨first.map fun e => (e.name, e.inum), last.map fun e => (e.name, e.inum), ?_, ?_⟩
  · have same : it.name = name := by simpa using named
    rw [listing, split, List.map_append, List.map_cons, same]
  · rw [erased, (listing_rewrite kept memory).1, List.map_append]

theorem Orderly.rewrite {d : Nat} {buf : List UInt8} {list : List Entry} (orderly : Orderly d buf)
    (memory : Nat → Entry) (kept : list.Sublist (entries buf)) :
    Orderly d (Client.rewrite memory list) := by
  have short : ∀ e ∈ list, e.nameLength ≤ MAX_LENGTH := fun e member =>
    orderly.short e (kept.subset member)
  obtain ⟨listed, shorter⟩ := listing_rewrite short memory
  have sub : (listing (Client.rewrite memory list)).Sublist (listing buf) := by
    rw [listed]
    exact kept.map _
  exact ⟨whole_rewrite list memory, shorter, orderly.nodup.sublist (sub.map _),
    fun p member => orderly.elsewhere p (sub.subset member)⟩

end Rewrite

end Yfs.Client
