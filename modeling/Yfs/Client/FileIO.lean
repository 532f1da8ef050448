import Yfs.Client.Extents
import Mathlib.Data.List.GetD

/-! Concurrent `read`, `write` and `setattr` on one file behave like one byte array. -/

namespace Yfs.Client

open Yfs.Lib Yfs.Store Program

/-- Write `data` at `off`: the array grows to the end of it, with zeros in a gap. -/
def writeAt (c : List UInt8) (off : Nat) (data : List UInt8) : List UInt8 :=
  (List.range (max c.length (off + data.length))).map fun p =>
    if off ≤ p ∧ p < off + data.length then data.getD (p - off) 0 else c.getD p 0

/-- Cut off at `n`, or extend with zeros. -/
def truncate (c : List UInt8) (n : Nat) : List UInt8 := (List.range n).map fun p => c.getD p 0

/-- The bytes from `off` on, as many as there are up to `size`. -/
def readAt (c : List UInt8) (off size : Nat) : List UInt8 :=
  (List.range (min (off + size) c.length - off)).map fun p => c.getD (off + p) 0

theorem resize_eq_truncate (c : List UInt8) (n : Nat) : resize c n = truncate c n := by
  apply List.ext_getElem
  · simp [resize, truncate]; omega
  · intro p inside _
    simp [resize, truncate] at inside ⊢
    grind

theorem substr_eq_readAt (c : List UInt8) (off size : Nat) :
    (c.drop off).take size = readAt c off size := by
  apply List.ext_getElem
  · simp [readAt]; omega
  · intro p inside _
    simp [readAt] at inside ⊢
    grind

theorem writeAt_getElem? (c : List UInt8) (off : Nat) (data : List UInt8) (p : Nat) :
    (writeAt c off data)[p]? = if p < max c.length (off + data.length) then
      some (if off ≤ p ∧ p < off + data.length then data.getD (p - off) 0 else c.getD p 0) else none := by
  unfold writeAt
  split <;> simp_all

theorem replace_eq_writeAt {c : List UInt8} {off : Nat} (data : List UInt8) (inside : off ≤ c.length) :
    c.take off ++ data ++ c.drop (off + data.length) = writeAt c off data := by
  apply List.ext_getElem?
  intro p
  rw [writeAt_getElem?]
  rcases Nat.lt_or_ge p off with before | later
  · rw [List.append_assoc, List.getElem?_append_left (by simp; omega), List.getElem?_take_of_lt before,
      if_pos (by omega), if_neg (by omega)]
    simp [show p < c.length by omega]
  · rcases Nat.lt_or_ge p (off + data.length) with within | after
    · rw [List.getElem?_append_left (by simp; omega), List.getElem?_append_right (by simp; omega),
        if_pos (by omega), if_pos (by omega)]
      simp [show min off c.length = off by omega, show p - off < data.length by omega]
    · rw [List.getElem?_append_right (by simp; omega), List.getElem?_drop]
      simp only [List.length_append, List.length_take, Nat.min_eq_left inside]
      rw [show off + data.length + (p - (off + data.length)) = p by omega]
      rcases Nat.lt_or_ge p c.length with small | large
      · rw [if_pos (by omega), if_neg (by omega)]
        simp [small]
      · rw [if_neg (by omega)]
        simp [large]

theorem writeAt_getD (c : List UInt8) (off : Nat) (data : List UInt8) (p : Nat) :
    (writeAt c off data).getD p 0 =
      if off ≤ p ∧ p < off + data.length then data.getD (p - off) 0 else c.getD p 0 := by
  rw [List.getD_eq_getElem?_getD, writeAt_getElem?]
  split
  · rfl
  · rw [if_neg (by omega), List.getD_eq_default _ _ (by omega)]
    rfl

theorem truncate_getD {c : List UInt8} {n p : Nat} :
    (truncate c n).getD p 0 = if p < n then c.getD p 0 else 0 := by
  unfold truncate
  split <;> simp_all

theorem writeAt_congr {c c' : List UInt8} {off : Nat} {data : List UInt8}
    (length : max c.length (off + data.length) = max c'.length (off + data.length))
    (same : ∀ p, ¬ (off ≤ p ∧ p < off + data.length) → c.getD p 0 = c'.getD p 0) :
    writeAt c off data = writeAt c' off data := by
  unfold writeAt
  rw [length]
  apply List.map_congr_left
  intro p _
  split
  · rfl
  · exact same p ‹_›

theorem writeAt_resize {c : List UInt8} {off : Nat} (data : List UInt8) (beyond : c.length < off) :
    writeAt (resize c (data.length + off)) off data = writeAt c off data := by
  rw [resize_eq_truncate]
  apply writeAt_congr
  · simp [truncate]; omega
  · intro p apart
    rw [truncate_getD]
    split
    · rfl
    · rw [List.getD_eq_default _ _ (by omega)]

theorem writeAt_comm (c d e : List UInt8) (o p : Nat) (apart : o + d.length ≤ p) :
    writeAt (writeAt c o d) p e = writeAt (writeAt c p e) o d := by
  apply List.ext_getElem?
  intro q
  simp only [writeAt_getElem?, writeAt_getD]
  have length : ∀ (c d : List UInt8) o, (writeAt c o d).length = max c.length (o + d.length) := by
    simp [writeAt]
  rw [length, length]
  split_ifs <;> first | rfl | omega

/-- The operations on a file. Offsets and the ends of the ranges fit in 32 bits. -/
inductive FileOp where
  | write (off : Nat) (data : List UInt8) (small : off + data.length < 2 ^ 32)
  | setattr (size : Nat)
  | read (size off : Nat) (small : off + size < 2 ^ 32)

inductive FileResult where
  | done (r : Status)
  | data (r : Status) (bytes : List UInt8)
  deriving DecidableEq, Repr

namespace FileOp

def program (ino : Nat) : FileOp → Prog FileResult
  | .write off data _ => return .done (← Client.write ino off data).1
  | .setattr size => return .done (← Client.setattr ino size)
  | .read size off _ => do
    let (r, bytes) ← Client.read ino size off
    return .data r bytes

/-- What an operation does to a byte array. -/
def apply : FileOp → List UInt8 → FileResult × List UInt8
  | .write off data _, c => (.done OK, writeAt c off data)
  | .setattr size, c => (.done OK, truncate c size)
  | .read size off _, c => (.data OK (readAt c off size), c)

/-- The results of operations one after the other, and the array in the end. -/
def replay : List FileOp → List UInt8 → List FileResult × List UInt8
  | [], c => ([], c)
  | op :: ops, c => ((op.apply c).1 :: (replay ops (op.apply c).2).1, (replay ops (op.apply c).2).2)

theorem guarded (ino : Nat) (op : FileOp) : (op.program ino).Guarded ino := by
  cases op with
  | write off data small =>
    simp only [program, Client.write, acquire, release, call, acquire_bind, release_bind, done_bind,
      call_bind, pure_eq, replace]
    refine ⟨_, rfl, fun r => ?_⟩
    beta_reduce
    split <;> split
    · trivial
    · exact fun _ => ⟨rfl, _, rfl⟩
    · trivial
    · exact fun _ => ⟨rfl, _, rfl⟩
  | setattr size =>
    simp only [program, Client.setattr, acquire, release, call, acquire_bind, release_bind, done_bind,
      call_bind, pure_eq]
    refine ⟨_, rfl, fun r => ?_⟩
    beta_reduce
    split
    · trivial
    · exact fun _ => ⟨rfl, _, rfl⟩
  | read size off small =>
    simp only [program, Client.read, acquire, release, call, acquire_bind, release_bind, done_bind,
      call_bind, pure_eq, substr]
    refine ⟨_, rfl, fun r => ?_⟩
    beta_reduce
    split
    · trivial
    · split
      · trivial
      · split
        · trivial
        · exact ⟨rfl, _, rfl⟩

/-- What an operation on the file does to the extents. -/
def Spec (ino : Nat) (op : FileOp) (E : Extents) (a : FileResult) (E' : Extents) : Prop :=
  ∃ x, E ino = some x ∧ a = (op.apply x.bytes).1 ∧
    E' ino = some { x with bytes := (op.apply x.bytes).2 }

/-- A run of an operation alone. -/
theorem runs (ino : Nat) (op : FileOp) (E : Extents) (live : E ino ≠ none) :
    (op.program ino).Runs answers (fun E => E ino ≠ none) (Spec ino op E) E := by
  obtain ⟨x, found⟩ := Option.ne_none_iff_exists'.mp live
  cases op with
  | write off data small =>
    have same : uint off = off := Nat.mod_eq_of_lt (by omega)
    simp only [program, Client.write, acquire, release, call, acquire_bind, release_bind, done_bind,
      call_bind, pure_eq, replace, Runs]
    rintro r E' ⟨y, hit, rfl, rfl⟩
    cases found.symm.trans hit
    refine ⟨live, ?_⟩
    dsimp only
    rw [same]
    by_cases inside : off ≤ x.bytes.length
    · rw [if_pos inside, if_neg (by omega)]
      rintro r E' ⟨y, hit, rfl, rfl⟩
      cases found.symm.trans hit
      simp [Spec, apply, found, replace_eq_writeAt data inside]
    · have grown : off ≤ (resize x.bytes (data.length + off)).length := by
        simp [resize_eq_truncate, truncate]
      have kept := writeAt_resize data (Nat.lt_of_not_le inside)
      rw [if_neg inside, if_neg (by omega)]
      rintro r E' ⟨y, hit, rfl, rfl⟩
      cases found.symm.trans hit
      simp [Spec, apply, found, replace_eq_writeAt data grown, kept]
  | setattr size =>
    simp only [program, Client.setattr, acquire, release, call, acquire_bind, release_bind, done_bind,
      call_bind, pure_eq, Runs]
    rintro r E' ⟨y, hit, rfl, rfl⟩
    cases found.symm.trans hit
    refine ⟨live, ?_⟩
    rw [if_neg (by simp)]
    rintro r E' ⟨y, hit, rfl, rfl⟩
    cases found.symm.trans hit
    simp [Spec, apply, found, resize_eq_truncate]
  | read size off small =>
    have same : uint off = off := Nat.mod_eq_of_lt (by omega)
    simp only [program, Client.read, acquire, release, call, acquire_bind, release_bind, done_bind,
      call_bind, pure_eq, substr, Runs]
    rintro r E' ⟨y, hit, rfl, rfl⟩
    cases found.symm.trans hit
    refine ⟨live, ?_⟩
    dsimp only
    rw [if_neg (by simp), same]
    by_cases past : x.bytes.length ≤ off
    · rw [if_pos past]
      simp [Spec, apply, found, readAt, Nat.min_eq_right (show x.bytes.length ≤ off + size by omega),
        past]
    · rw [if_neg past, if_neg (by omega)]
      simp [Spec, apply, found, substr_eq_readAt]

theorem replay_append (ops more : List FileOp) : ∀ c, replay (ops ++ more) c =
    ((replay ops c).1 ++ (replay more (replay ops c).2).1, (replay more (replay ops c).2).2) := by
  induction ops with
  | nil => exact fun _ => rfl
  | cons op ops ih =>
    intro c
    rw [List.cons_append, replay, ih, replay]
    rfl

/-- A serial history is a replay. -/
theorem replay_of_serial {ino : Nat} {E₀ E : Extents} {x₀ : Extent} {h : List (FileOp × FileResult)}
    (live : E₀ ino = some x₀) (serial : Serial (Spec ino) E₀ h E) :
    (replay (h.map Prod.fst) x₀.bytes).1 = h.map Prod.snd ∧
      E ino = some { x₀ with bytes := (replay (h.map Prod.fst) x₀.bytes).2 } := by
  induction serial with
  | nil => exact ⟨rfl, live⟩
  | snoc _ done ih =>
    obtain ⟨results, content⟩ := ih
    obtain ⟨x, found, rfl, after⟩ := done
    cases content.symm.trans found
    rw [List.map_append, replay_append]
    exact ⟨by simp [results, replay], after⟩

theorem readAt_writeAt (c : List UInt8) (off : Nat) (data : List UInt8) :
    readAt (writeAt c off data) off data.length = data := by
  have length : (writeAt c off data).length = max c.length (off + data.length) := by simp [writeAt]
  rw [readAt, length, show min (off + data.length) (max c.length (off + data.length)) - off =
    data.length by omega]
  apply List.ext_getElem
  · simp
  · intro p _ inside
    simp only [List.getElem_map, List.getElem_range, writeAt_getD]
    rw [if_pos (by omega)]
    simp [inside]

/-- Any number of threads that read, write and resize one file get the results, and leave
the content, of doing so one at a time in the order of their locks. Writes to disjoint
ranges commute, and the bytes of both are there in the end. -/
theorem file_serialised {Tid : Type} [DecidableEq Tid] {ino : Nat} {E₀ : Extents} {x₀ : Extent}
    (live : E₀ ino = some x₀) {K : Pool Nat Call Call.Reply FileResult Tid FileOp Extents}
    (reach : Pool.Reachable (program ino) answers E₀ K) :
    (∀ n a, (n, a) ∈ K.results → (replay K.order x₀.bytes).1[n]? = some a) ∧
    (K.Idle ino → K.store ino = some { x₀ with bytes := (replay K.order x₀.bytes).2 }) ∧
    (∀ i th, K.threads i = some th → th.rest ≠ .abort) ∧
    ∀ c off data off' data', off + data.length ≤ off' →
      writeAt (writeAt c off data) off' data' = writeAt (writeAt c off' data') off data ∧
      readAt (writeAt (writeAt c off data) off' data') off data.length = data ∧
      readAt (writeAt (writeAt c off data) off' data') off' data'.length = data' := by
  obtain ⟨_, h, E, serial, results, ⟨more, order⟩, idle, noAbort⟩ :=
    reach.serialised (guarded ino) (runs ino) (by simp [live])
  obtain ⟨same, content⟩ := replay_of_serial live serial
  refine ⟨?_, ?_, noAbort, ?_⟩
  · intro n a finished
    obtain ⟨op, entry⟩ := results n a finished
    have small := (List.getElem?_eq_some_iff.mp entry).1
    rw [← order, replay_append, same, List.getElem?_append_left (by simpa using small)]
    simp [entry]
  · intro quiet
    obtain ⟨all, store⟩ := idle quiet
    rw [all, store, content]
  · intro c off data off' data' apart
    have swap := writeAt_comm c data data' off off' apart
    refine ⟨swap, ?_, readAt_writeAt _ off' data'⟩
    rw [swap]
    exact readAt_writeAt _ off data

private def left : FileOp := .write 0 [7] (by decide)

private def right : FileOp := .write 1 [8] (by decide)

private def lone : Extents := fun id => if id = 2 then some ⟨T_FILE, []⟩ else none

/-- Two threads write, and the one that started first gets the lock last. -/
theorem file_serialised_crossed : (replay [right, left] []).1[0]? = some (.done OK) ∧
    (replay [right, left] []).1[1]? = some (.done OK) ∧ (replay [right, left] []).2 = [7, 8] := by
  have starts {K : Pool Nat Call Call.Reply FileResult Nat FileOp Extents} (i : Nat) (op : FileOp)
      (reach : Pool.Reachable (program 2) answers lone K) (idle : K.threads i = none) :
      Pool.Reachable (program 2) answers lone (K.setThread i (some ⟨op, program 2 op, 0⟩)) :=
    reach.step (.start idle)
  have both := starts 1 right (starts 0 left .init rfl) rfl
  have locked := both.step (.acquire (i := 1) rfl rfl)
  have got := locked.step (.call (i := 1) rfl ⟨⟨T_FILE, []⟩, rfl, rfl, rfl⟩)
  have put := got.step (.call (i := 1) rfl ⟨⟨T_FILE, []⟩, rfl, rfl, rfl⟩)
  have first := (put.step (.release (i := 1) rfl)).step (.finish (i := 1) rfl)
  have locked := first.step (.acquire (i := 0) rfl rfl)
  have got := locked.step (.call (i := 0) rfl ⟨⟨T_FILE, _⟩, rfl, rfl, rfl⟩)
  have put := got.step (.call (i := 0) rfl ⟨⟨T_FILE, _⟩, rfl, rfl, rfl⟩)
  have second := (put.step (.release (i := 0) rfl)).step (.finish (i := 0) rfl)
  have live : lone 2 = some ⟨T_FILE, []⟩ := rfl
  obtain ⟨results, content, -⟩ := file_serialised live second
  have after : some ⟨T_FILE, [7, 8]⟩ =
      some { (⟨T_FILE, []⟩ : Extent) with bytes := (replay [right, left] []).2 } :=
    content fun i holds => nomatch holds
  have bytes : [7, 8] = (replay [right, left] []).2 := congrArg Extent.bytes (Option.some.inj after)
  exact ⟨results 0 (.done OK) (.tail _ (.head _)), results 1 (.done OK) (.head _), bytes.symm⟩

end FileOp

end Yfs.Client
