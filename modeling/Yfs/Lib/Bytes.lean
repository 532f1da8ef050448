import Mathlib.Tactic.Ring

/-! Byte memory with little-endian numbers in it. -/

namespace Yfs.Lib

/-- The number in the `n` bytes at address `a`, lowest byte first. -/
def load (m : Nat → UInt8) (a : Nat) : Nat → Nat
  | 0 => 0
  | n + 1 => (m a).toNat + 256 * load m (a + 1) n

/-- Store `count` numbers of `width` bytes each from address `a` on. -/
def storeArray (m : Nat → UInt8) (a width count : Nat) (f : Nat → Nat) : Nat → UInt8 := fun i =>
  if a ≤ i ∧ i < a + width * count then .ofNat (f ((i - a) / width) / 256 ^ ((i - a) % width))
  else m i

/-- Store one number of `width` bytes at address `a`. -/
def store (m : Nat → UInt8) (a width v : Nat) : Nat → UInt8 := storeArray m a width 1 fun _ => v

/-- `memcpy(dst + a, src, n)`. -/
def copy (dst : Nat → UInt8) (a : Nat) (src : Nat → UInt8) (n : Nat) : Nat → UInt8 := fun i =>
  if a ≤ i ∧ i < a + n then src (i - a) else dst i

theorem load_congr {m m' : Nat → UInt8} (n : Nat) :
    ∀ a, (∀ i, a ≤ i → i < a + n → m i = m' i) → load m a n = load m' a n := by
  induction n with
  | zero => intros; rfl
  | succ n ih =>
    intro a same
    rw [load, load, same a (by omega) (by omega),
      ih (a + 1) fun i low high => same i (by omega) (by omega)]

theorem load_lt (m : Nat → UInt8) (n : Nat) : ∀ a, load m a n < 256 ^ n := by
  induction n with
  | zero => intro a; simp [load]
  | succ n ih =>
    intro a
    have rest := ih (a + 1)
    have byte := (m a).toNat_lt
    rw [load, Nat.pow_succ]
    omega

/-- The bytes of one number, read back. -/
theorem load_digits (v : Nat) {m : Nat → UInt8} (n : Nat) :
    ∀ a k, (∀ i, i < n → m (a + i) = .ofNat (v / 256 ^ (k + i))) →
      load m a n = v / 256 ^ k % 256 ^ n := by
  induction n with
  | zero => intros; simp [load, Nat.mod_one]
  | succ n ih =>
    intro a k digits
    have first := digits 0 (by omega)
    have rest := ih (a + 1) (k + 1) fun i small => by
      have digit := digits (i + 1) (by omega)
      rw [show a + (i + 1) = a + 1 + i by omega, show k + (i + 1) = k + 1 + i by omega] at digit
      exact digit
    simp only [Nat.add_zero] at first
    rw [load, first, rest, Nat.pow_succ 256 k, ← Nat.div_div_eq_div_mul, Nat.pow_succ 256 n,
      Nat.mul_comm (256 ^ n) 256, Nat.mod_mul]
    simp

theorem load_storeArray {m : Nat → UInt8} {a count k : Nat} (width : Nat) (f : Nat → Nat)
    (inside : k < count) :
    load (storeArray m a width count f) (a + width * k) width = f k % 256 ^ width := by
  have digits := load_digits (f k) (m := storeArray m a width count f) width (a + width * k) 0
    fun i small => by
      have bound : width * k + width ≤ width * count := by
        calc width * k + width = width * (k + 1) := by ring
          _ ≤ width * count := Nat.mul_le_mul_left _ inside
      rw [storeArray, if_pos ⟨by omega, by omega⟩, show a + width * k + i - a = width * k + i by omega,
        Nat.mul_add_div (by omega), Nat.mul_add_mod, Nat.div_eq_of_lt small, Nat.mod_eq_of_lt small]
      simp
  simpa using digits

/-- A store leaves numbers outside its range alone. -/
theorem load_storeArray_apart {m : Nat → UInt8} {a width count b n : Nat} {f : Nat → Nat}
    (apart : b + n ≤ a ∨ a + width * count ≤ b) :
    load (storeArray m a width count f) b n = load m b n := by
  apply load_congr
  intro i low high
  rw [storeArray, if_neg (by omega)]

theorem load_store {m : Nat → UInt8} {a width v : Nat} :
    load (store m a width v) a width = v % 256 ^ width := by
  have stored := load_storeArray (m := m) (a := a) width (fun _ => v) (show 0 < 1 by omega)
  simpa [store] using stored

theorem load_store_apart {m : Nat → UInt8} {a width v b n : Nat}
    (apart : b + n ≤ a ∨ a + width ≤ b) : load (store m a width v) b n = load m b n :=
  load_storeArray_apart (by simpa using apart)

theorem load_copy_apart {dst src : Nat → UInt8} {a n b width : Nat}
    (apart : b + width ≤ a ∨ a + n ≤ b) : load (copy dst a src n) b width = load dst b width := by
  apply load_congr
  intro i low high
  rw [copy, if_neg (by omega)]

end Yfs.Lib
