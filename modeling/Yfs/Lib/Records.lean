/-! Buffers of records of which each carries the offset behind itself, and the pages that
are cut from such a buffer. -/

namespace Yfs.Lib

/-- A layout for records of a value and an offset. -/
structure RecordFormat (α β : Type) where
  size : α → Nat
  write : α → Nat → List β
  /-- The first record and what is behind it, if the record is complete. -/
  read : List β → Option ((α × Nat) × List β)

namespace RecordFormat

variable {α β : Type}

/-- Records of the values in `valid` can be read back, with offsets below `limit`. -/
structure Lawful (F : RecordFormat α β) (valid : α → Prop) (limit : Nat) : Prop where
  length : ∀ a off, (F.write a off).length = F.size a
  positive : ∀ a, 0 < F.size a
  nothing : F.read [] = none
  whole : ∀ a off rest, valid a → off < limit → F.read (F.write a off ++ rest) = some ((a, off), rest)
  part : ∀ a off n, valid a → off < limit → n < F.size a → F.read ((F.write a off).take n) = none

section Layout

variable (F : RecordFormat α β)

/-- The size of some records. -/
def total : List α → Nat
  | [] => 0
  | a :: as => F.size a + total as

/-- Records from `off` on, each with the offset behind it. -/
def layout : Nat → List α → List β
  | _, [] => []
  | off, a :: as => F.write a (off + F.size a) ++ layout (off + F.size a) as

/-- Some values from `off` on, each with the offset behind it. -/
def stamped : Nat → List α → List (α × Nat)
  | _, [] => []
  | off, a :: as => (a, off + F.size a) :: stamped (off + F.size a) as

/-- The complete records in front of some bytes, `fuel` of them at most. -/
def records : Nat → List β → List (α × Nat)
  | 0, _ => []
  | fuel + 1, bytes =>
    match F.read bytes with
    | none => []
    | some (r, rest) => r :: records fuel rest

/-- The complete records of a page. -/
def complete (bytes : List β) : List (α × Nat) := F.records bytes.length bytes

@[simp] theorem total_nil : F.total [] = 0 := rfl

@[simp] theorem total_cons (a : α) (as : List α) : F.total (a :: as) = F.size a + F.total as := rfl

@[simp] theorem total_append (as bs : List α) : F.total (as ++ bs) = F.total as + F.total bs := by
  induction as with
  | nil => simp
  | cons a as ih => rw [List.cons_append, total_cons, total_cons, ih, Nat.add_assoc]

theorem layout_append (as bs : List α) : ∀ off,
    F.layout off (as ++ bs) = F.layout off as ++ F.layout (off + F.total as) bs := by
  induction as with
  | nil => exact fun _ => rfl
  | cons a as ih =>
    intro off
    rw [List.cons_append, layout, layout, ih, List.append_assoc, total_cons, Nat.add_assoc]

theorem stamped_fst (as : List α) : ∀ off, (F.stamped off as).map Prod.fst = as := by
  induction as with
  | nil => exact fun _ => rfl
  | cons a as ih =>
    intro off
    rw [stamped, List.map_cons, ih]

end Layout

/-- The offset in the last of some records. -/
def resume (off : Nat) (rs : List (α × Nat)) : Nat := (rs.getLast?.map Prod.snd).getD off

theorem resume_cons (off : Nat) (r : α × Nat) (rs : List (α × Nat)) :
    resume off (r :: rs) = resume r.2 rs := by
  cases rs with
  | nil => rfl
  | cons r' rs =>
    rw [resume, resume, List.getLast?_cons_cons, List.getLast?_cons]
    rfl

/-- The last of the records leads behind all of them. -/
theorem resume_stamped (F : RecordFormat α β) (as : List α) : ∀ off,
    resume off (F.stamped off as) = off + F.total as := by
  induction as with
  | nil => exact fun _ => rfl
  | cons a as ih =>
    intro off
    rw [stamped, resume_cons, ih, total_cons, Nat.add_assoc]

section Lawful

variable {F : RecordFormat α β} {valid : α → Prop} {limit : Nat} (lawful : F.Lawful valid limit)
include lawful

theorem Lawful.layout_length (as : List α) : ∀ off, (F.layout off as).length = F.total as := by
  induction as with
  | nil => exact fun _ => rfl
  | cons a as ih =>
    intro off
    rw [layout, List.length_append, lawful.length, ih, total_cons]

/-- What is behind the records `as`. -/
theorem Lawful.drop_layout (as bs : List α) :
    (F.layout 0 (as ++ bs)).drop (F.total as) = F.layout (F.total as) bs := by
  rw [layout_append, Nat.zero_add]
  exact List.drop_left' (lawful.layout_length as 0)

theorem Lawful.total_pos {as : List α} (some : as ≠ []) : 0 < F.total as := by
  cases as with
  | nil => exact absurd rfl some
  | cons a as =>
    rw [total_cons]
    exact Nat.add_pos_left (lawful.positive a) _

/-- A page of `n` bytes holds the records that are complete in it: all that there are, or
so many that the next one does not fit. -/
theorem Lawful.records_take {as : List α} : ∀ {off n fuel : Nat}, (∀ a ∈ as, valid a) →
    off + F.total as < limit → ((F.layout off as).take n).length ≤ fuel →
    ∃ now later, as = now ++ later ∧ F.records fuel ((F.layout off as).take n) = F.stamped off now ∧
      F.total now ≤ n ∧ ∀ a, later.head? = some a → n < F.total now + F.size a := by
  induction as with
  | nil =>
    intro off n fuel _ _ _
    refine ⟨[], [], rfl, ?_, Nat.zero_le n, by simp⟩
    cases fuel with
    | zero => rfl
    | succ fuel => simp [layout, records, lawful.nothing, stamped]
  | cons a as ih =>
    intro off n fuel good small enough
    rw [List.forall_mem_cons] at good
    rw [total_cons] at small
    have below : off + F.size a < limit := by omega
    have length := lawful.length a (off + F.size a)
    by_cases cut : n < F.size a
    · refine ⟨[], a :: as, rfl, ?_, Nat.zero_le n, by simpa using cut⟩
      rw [layout, List.take_append_of_le_length (by omega)]
      cases fuel with
      | zero => rfl
      | succ fuel => simp [records, lawful.part a _ n good.1 below cut, stamped]
    · have split : (F.layout off (a :: as)).take n =
          F.write a (off + F.size a) ++ (F.layout (off + F.size a) as).take (n - F.size a) := by
        rw [layout, List.take_append, length, List.take_of_length_le (by omega)]
      rw [split, List.length_append, length] at enough
      have positive := lawful.positive a
      obtain ⟨fuel, rfl⟩ : ∃ k, fuel = k + 1 := ⟨fuel - 1, by omega⟩
      obtain ⟨now, later, parts, read, fit, next⟩ := @ih (off + F.size a) (n - F.size a) fuel good.2
        (by omega) (by omega)
      refine ⟨a :: now, later, by rw [parts, List.cons_append], ?_, ?_, ?_⟩
      · rw [split, records, lawful.whole a _ _ good.1 below]
        simp only [read, stamped]
      · rw [total_cons]
        omega
      · intro b first
        have room := next b first
        rw [total_cons]
        omega

/-- The page of `n` bytes behind the records `as`, where every record fits in a page: its
complete records are the next ones, and there is one if there is any left. -/
theorem Lawful.complete_page {as bs : List α} {n : Nat} (good : ∀ a ∈ bs, valid a)
    (small : F.total (as ++ bs) < limit) (fits : ∀ a ∈ bs, F.size a ≤ n) :
    ∃ now later, bs = now ++ later ∧
      F.complete (((F.layout 0 (as ++ bs)).drop (F.total as)).take n) = F.stamped (F.total as) now ∧
      F.total now ≤ n ∧ (now = [] → bs = []) := by
  rw [total_append] at small
  have all : ((F.layout (F.total as) bs).take n).length ≤ ((F.layout (F.total as) bs).take n).length :=
    Nat.le_refl _
  obtain ⟨now, later, parts, read, fit, next⟩ := lawful.records_take good small all
  refine ⟨now, later, parts, by rw [lawful.drop_layout]; exact read, fit, ?_⟩
  rintro rfl
  rw [List.nil_append] at parts
  subst parts
  cases bs with
  | nil => rfl
  | cons b bs =>
    have short := next b rfl
    rw [total_nil, Nat.zero_add] at short
    exact absurd (fits b List.mem_cons_self) (Nat.not_le_of_lt short)

end Lawful

end RecordFormat

end Yfs.Lib
