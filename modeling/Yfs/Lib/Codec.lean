import Mathlib.Algebra.Group.Nat.Defs

/-! Encodings that can be read back in front of other bytes, and how they follow one
another. -/

namespace Yfs.Lib

/-- Take `n` bytes. -/
def takeBytes (n : Nat) (bytes : List UInt8) : Option (List UInt8 × List UInt8) :=
  if n ≤ bytes.length then some (bytes.take n, bytes.drop n) else none

theorem takeBytes_append {n : Nat} {first rest : List UInt8} (length : first.length = n) :
    takeBytes n (first ++ rest) = some (first, rest) := by
  subst length
  simp [takeBytes]

theorem takeBytes_length {n : Nat} {bytes first rest : List UInt8}
    (taken : takeBytes n bytes = some (first, rest)) : bytes.length = n + rest.length := by
  rw [takeBytes] at taken
  split at taken
  · cases taken
    simp
    omega
  · cases taken

/-- An encoding, and a decoder that returns the bytes it leaves. -/
structure Codec (α : Type) where
  write : α → List UInt8
  read : List UInt8 → Option (α × List UInt8)
  read_write : ∀ a rest, read (write a ++ rest) = some (a, rest)

namespace Codec

variable {α β : Type}

/-- The decoder takes `n` bytes, whatever they are. -/
def Fixed (c : Codec α) (n : Nat) : Prop :=
  ∀ bytes a rest, c.read bytes = some (a, rest) → bytes.length = n + rest.length

theorem done (c : Codec α) (a : α) : c.read (c.write a) = some (a, []) := by
  simpa using c.read_write a []

/-- No bytes. -/
def unit : Codec Unit where
  write _ := []
  read bytes := some ((), bytes)
  read_write _ _ := rfl

/-- One value behind the other. -/
def pair (c : Codec α) (d : Codec β) : Codec (α × β) where
  write p := c.write p.1 ++ d.write p.2
  read bytes := do
    let (a, bytes) ← c.read bytes
    let (b, bytes) ← d.read bytes
    return ((a, b), bytes)
  read_write p rest := by
    rw [List.append_assoc, c.read_write]
    simp [d.read_write]

/-- The encoding of a value by its parts. -/
def via (c : Codec β) (split : α → β) (join : β → α) (joins : ∀ a, join (split a) = a) : Codec α where
  write a := c.write (split a)
  read bytes := (c.read bytes).map fun p => (join p.1, p.2)
  read_write a rest := by simp [c.read_write, joins]

theorem Fixed.via {c : Codec β} {n : Nat} (fixed : c.Fixed n) (split : α → β) (join : β → α)
    (joins : ∀ a, join (split a) = a) : (c.via split join joins).Fixed n := by
  intro bytes a rest taken
  obtain ⟨⟨b, left⟩, found, same⟩ := Option.map_eq_some_iff.mp taken
  cases same
  exact fixed _ _ _ found

/-- A string behind its length. -/
def counted (length : Codec Nat) : Codec (List UInt8) where
  write s := length.write s.length ++ s
  read bytes := do
    let (n, bytes) ← length.read bytes
    takeBytes n bytes
  read_write s rest := by
    rw [List.append_assoc, length.read_write]
    exact takeBytes_append rfl

end Codec

/-- The last `n` bytes of a number, the most significant first. -/
def bigEndian : Nat → Nat → List UInt8
  | 0, _ => []
  | n + 1, v => .ofNat (v / 256 ^ n) :: bigEndian n v

/-- The number of some bytes, the most significant first. -/
def ofBigEndian : List UInt8 → Nat
  | [] => 0
  | b :: bytes => b.toNat * 256 ^ bytes.length + ofBigEndian bytes

@[simp] theorem bigEndian_length (n v : Nat) : (bigEndian n v).length = n := by
  induction n with
  | zero => rfl
  | succ n ih => simp [bigEndian, ih]

theorem ofBigEndian_bigEndian (n v : Nat) : ofBigEndian (bigEndian n v) = v % 256 ^ n := by
  induction n with
  | zero => simp [bigEndian, ofBigEndian, Nat.mod_one]
  | succ n ih =>
    have byte : (UInt8.ofNat (v / 256 ^ n)).toNat = v / 256 ^ n % 256 := UInt8.toNat_ofNat'
    rw [bigEndian, ofBigEndian, ih, bigEndian_length, byte, Nat.pow_succ, Nat.mod_mul, Nat.add_comm,
      Nat.mul_comm]

/-- Numbers as `n` bytes, the most significant first. -/
def Codec.numeral {α : Type} (n : Nat) (toNat : α → Nat) (ofNat : Nat → α)
    (inverse : ∀ a, ofNat (toNat a % 256 ^ n) = a) : Codec α where
  write a := bigEndian n (toNat a)
  read bytes := (takeBytes n bytes).map fun p => (ofNat (ofBigEndian p.1), p.2)
  read_write a rest := by
    rw [takeBytes_append (bigEndian_length ..), Option.map_some, ofBigEndian_bigEndian, inverse]

theorem Codec.fixed_numeral {α : Type} (n : Nat) (toNat : α → Nat) (ofNat : Nat → α)
    (inverse : ∀ a, ofNat (toNat a % 256 ^ n) = a) : (Codec.numeral n toNat ofNat inverse).Fixed n := by
  intro bytes a rest taken
  obtain ⟨p, found, same⟩ := Option.map_eq_some_iff.mp taken
  cases same
  exact takeBytes_length found

def readUnary : List UInt8 → Option (Nat × List UInt8)
  | [] => none
  | b :: bytes => if b = 0 then some (0, bytes) else (readUnary bytes).map fun p => (p.1 + 1, p.2)

/-- A number as so many ones. -/
def Codec.unary : Codec Nat where
  write n := List.replicate n 1 ++ [0]
  read := readUnary
  read_write n rest := by
    induction n with
    | zero => simp [readUnary]
    | succ n ih =>
      rw [List.replicate_succ, List.cons_append, List.cons_append, readUnary, if_neg (by decide), ih]
      rfl

/-- A number in `n` bytes. What they cannot hold follows bytes that are all ones. -/
def Codec.escaped (n : Nat) (more : Codec Nat) : Codec Nat where
  write v :=
    if v < 256 ^ n - 1 then bigEndian n v
    else bigEndian n (256 ^ n - 1) ++ more.write (v - (256 ^ n - 1))
  read bytes := do
    let (first, bytes) ← takeBytes n bytes
    if ofBigEndian first < 256 ^ n - 1 then
      return (ofBigEndian first, bytes)
    else
      let (v, bytes) ← more.read bytes
      return (v + (256 ^ n - 1), bytes)
  read_write v rest := by
    have positive : 0 < 256 ^ n := Nat.pow_pos (by decide)
    by_cases small : v < 256 ^ n - 1
    · rw [if_pos small, takeBytes_append (bigEndian_length ..)]
      simp [ofBigEndian_bigEndian, Nat.mod_eq_of_lt (Nat.lt_of_lt_of_le small (Nat.sub_le ..)), small]
    · rw [if_neg small, List.append_assoc, takeBytes_append (bigEndian_length ..)]
      have ones : (256 ^ n - 1) % 256 ^ n = 256 ^ n - 1 := Nat.mod_eq_of_lt (Nat.sub_lt positive (by decide))
      simp [ofBigEndian_bigEndian, ones, more.read_write, Nat.sub_add_cancel (Nat.le_of_not_lt small)]

/-- A value for each of the types `ts`. -/
def Row {T : Type} (V : T → Type) : List T → Type
  | [] => Unit
  | t :: ts => V t × Row V ts

/-- The values of a row with their types. -/
def Row.values {T : Type} {V : T → Type} : {ts : List T} → Row V ts → List ((t : T) × V t)
  | [], _ => []
  | t :: _, row => ⟨t, row.1⟩ :: Row.values row.2

/-- The values of a row one behind the other. -/
def Codec.row {T : Type} {V : T → Type} (codec : (t : T) → Codec (V t)) : (ts : List T) → Codec (Row V ts)
  | [] => Codec.unit
  | t :: ts => (codec t).pair (Codec.row codec ts)

theorem Row.values_types {T : Type} {V : T → Type} {ts : List T} (row : Row V ts) :
    row.values.map Sigma.fst = ts := by
  induction ts with
  | nil => rfl
  | cons t ts ih => simp [Row.values, ih]

end Yfs.Lib
