import Yfs.Client.FileIO

/-! `read` and `write` at every offset. Their bound checks look at the offset as a
`uint`, while the string operations behind them take all of it. -/

namespace Yfs.Client

open Yfs.Lib Yfs.Store Program

/-- `read` returns the bytes there are from `off` on. -/
def ReadMeets (E : Extents) (ino : Nat) (c : List UInt8) (size off : Nat) : Prop :=
  (read ino size off).Achieves answers (fun r E' => r = (OK, readAt c off size) ∧ E' = E) E

/-- `write` puts `data` at `off` and counts the bytes it was given. -/
def WriteMeets (E : Extents) (ino : Nat) (x : Extent) (off : Nat) (data : List UInt8) : Prop :=
  (write ino off data).Achieves answers (fun r E' => r = (OK, data.length) ∧
    E' = Function.update E ino (some { x with bytes := writeAt x.bytes off data })) E

theorem uint_le (off : Nat) : uint off ≤ off := Nat.mod_le _ _

theorem readAt_past {c : List UInt8} {off : Nat} (past : c.length ≤ off) (size : Nat) :
    readAt c off size = [] := by
  have none : min (off + size) c.length - off = 0 := by omega
  simp [readAt, none]

section Live

variable {E : Extents} {ino : Nat} {x : Extent} (live : E ino = some x)
include live

theorem achieves_get {α : Type} {Q : α → Extents → Prop} {next : Status × List UInt8 → Prog α} :
    (Program.call (.get ino) next : Prog α).Achieves answers Q E ↔
      (next (OK, x.bytes)).Achieves answers Q E :=
  achieves_call (c := Call.get ino) (by simp [answers, live])

theorem achieves_put {α : Type} {Q : α → Extents → Prop} {next : Status → Prog α}
    (buf : List UInt8) : (Program.call (.put ino buf) next : Prog α).Achieves answers Q E ↔
      (next OK).Achieves answers Q (Function.update E ino (some { x with bytes := buf })) :=
  achieves_call (c := Call.put ino buf) (by simp [answers, live])

theorem readMeets_iff (size off : Nat) :
    ReadMeets E ino x.bytes size off ↔ off ≤ x.bytes.length ∨ x.bytes.length ≤ uint off := by
  simp only [ReadMeets, Client.read, acquire, release, call, acquire_bind, release_bind, done_bind,
    call_bind, pure_eq, substr, achieves_acquire]
  rw [achieves_get live, if_neg (by simp)]
  dsimp only
  by_cases past : x.bytes.length ≤ uint off
  · rw [if_pos past]
    simp [past, readAt_past (Nat.le_trans past (uint_le off))]
  · rw [if_neg past]
    by_cases beyond : x.bytes.length < off
    · rw [if_pos beyond]
      simp [past, beyond]
    · rw [if_neg beyond]
      simp [past, Nat.le_of_not_lt beyond, substr_eq_readAt]

theorem writeMeets_iff (off : Nat) (data : List UInt8) :
    WriteMeets E ino x off data ↔ off ≤ x.bytes.length := by
  simp only [WriteMeets, Client.write, acquire, release, call, acquire_bind, release_bind, done_bind,
    call_bind, pure_eq, replace, achieves_acquire]
  rw [achieves_get live]
  dsimp only
  by_cases within : uint off ≤ x.bytes.length
  · rw [if_pos within]
    by_cases beyond : x.bytes.length < off
    · rw [if_pos beyond]
      simp [beyond]
    · have inside := Nat.le_of_not_lt beyond
      rw [if_neg beyond, done_bind, achieves_put live]
      simp [inside, replace_eq_writeAt data inside]
  · have beyond : x.bytes.length < off :=
      Nat.lt_of_lt_of_le (Nat.lt_of_not_le within) (uint_le off)
    have grown : ¬ (resize x.bytes (data.length + off)).length < off := by
      simp [resize_eq_truncate, truncate]
    rw [if_neg within, if_neg grown, done_bind, achieves_put live]
    -- The content is right, but the count includes the gap.
    simp
    omega

/-- `read` and `write` do what they are for at an offset up to the end of the file.
Behind it `read` does so where its check sees the offset behind the end as well, and
`write` never does. -/
theorem offsets_iff (size off : Nat) (data : List UInt8) :
    (ReadMeets E ino x.bytes size off ↔ off ≤ x.bytes.length ∨ x.bytes.length ≤ uint off) ∧
    (WriteMeets E ino x off data ↔ off ≤ x.bytes.length) :=
  ⟨readMeets_iff live size off, writeMeets_iff live off data⟩

end Live

/-- A file of one byte. -/
private def single : Extents := fun id => if id = 2 then some ⟨T_FILE, [5]⟩ else none

theorem offsets_iff_single : ReadMeets single 2 [5] 4 1 ∧ WriteMeets single 2 ⟨T_FILE, [5]⟩ 1 [7] := by
  have live : single 2 = some ⟨T_FILE, [5]⟩ := rfl
  obtain ⟨reads, writes⟩ := offsets_iff live 4 1 [7]
  exact ⟨reads.mpr (.inl (by decide)), writes.mpr (by decide)⟩

/-- At offset 2^32 `read` throws, and a `write` behind the end counts the gap. -/
theorem offsets_past_end : ¬ ReadMeets single 2 [5] 1 (2 ^ 32) ∧
    ¬ WriteMeets single 2 ⟨T_FILE, [5]⟩ 3 [7] := by
  have live : single 2 = some ⟨T_FILE, [5]⟩ := rfl
  constructor
  · rw [readMeets_iff live]
    decide
  · rw [writeMeets_iff live]
    decide

end Yfs.Client
