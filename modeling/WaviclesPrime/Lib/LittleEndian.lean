import Mathlib.Algebra.Order.Ring.Nat
import Mathlib.Tactic.Common
import Mathlib.Tactic.Ring

/-! Fixed-width little-endian bytes of a natural. -/
namespace WaviclesPrime

abbrev Bytes := List UInt8

namespace LittleEndian

def write : Nat → Nat → Bytes
  | 0, _ => []
  | width + 1, n => UInt8.ofNat (n % 256) :: write width (n / 256)

def read : Bytes → Nat
  | [] => 0
  | b :: rest => b.toNat + 256 * read rest

@[simp] theorem length_write (width n : Nat) : (write width n).length = width := by
  induction width generalizing n with
  | zero => rfl
  | succ width ih => simp [write, ih]

theorem drop_write {width k : Nat} (h : width ≤ k) (n : Nat) : (write width n).drop k = [] :=
  List.drop_eq_nil_of_le (by rwa [length_write])

theorem read_lt (bytes : Bytes) : read bytes < 256 ^ bytes.length := by
  induction bytes with
  | nil => simp [read]
  | cons b rest ih =>
    have hb := b.toNat_lt
    simp only [read, List.length_cons, Nat.pow_succ]
    omega

/-- What is read is written back. -/
theorem write_read (bytes : Bytes) : write bytes.length (read bytes) = bytes := by
  induction bytes with
  | nil => rfl
  | cons b rest ih =>
    have hb : b.toNat < 256 := b.toNat_lt
    have hlow : (b.toNat + 256 * read rest) % 256 = b.toNat := by omega
    have hhigh : (b.toNat + 256 * read rest) / 256 = read rest := by omega
    rw [List.length_cons, write, read, hlow, hhigh, ih, UInt8.ofNat_toNat]

theorem eq_of_read {a b : Bytes} (hlen : a.length = b.length) (h : read a = read b) : a = b := by
  rw [← write_read a, ← write_read b, hlen, h]

theorem read_singleton (b : UInt8) : read [b] = b.toNat := by simp [read]

theorem read_append (a b : Bytes) : read (a ++ b) = read a + 256 ^ a.length * read b := by
  induction a with
  | nil => simp [read]
  | cons x a ih =>
    rw [List.cons_append, read, read, ih, List.length_cons]
    ring

@[simp] theorem read_zeros (n : Nat) : read (List.replicate n 0) = 0 := by
  induction n with
  | zero => rfl
  | succ n ih => rw [List.replicate_succ, read, ih]; rfl

/-- All ones, the greatest of its width. -/
theorem read_ones (n : Nat) : read (List.replicate n 0xff) + 1 = 256 ^ n := by
  induction n with
  | zero => rfl
  | succ n ih =>
    have hbyte : (0xff : UInt8).toNat = 255 := rfl
    rw [List.replicate_succ, read, hbyte, Nat.pow_succ]
    omega

/-- Dropping low bytes divides. -/
theorem read_drop (bytes : Bytes) (k : Nat) : read (bytes.drop k) = read bytes / 256 ^ k := by
  obtain hlt | hle := Nat.lt_or_ge bytes.length k
  · have hsmall := Nat.lt_of_lt_of_le (read_lt bytes) (Nat.pow_le_pow_right (by decide) hlt.le)
    rw [List.drop_eq_nil_of_le hlt.le, Nat.div_eq_of_lt hsmall]
    rfl
  · have hsplit := read_append (bytes.take k) (bytes.drop k)
    have hlow := read_lt (bytes.take k)
    rw [List.take_append_drop, List.length_take_of_le hle] at hsplit
    rw [List.length_take_of_le hle] at hlow
    rw [hsplit, Nat.add_mul_div_left _ _ (Nat.pow_pos (by decide)), Nat.div_eq_of_lt hlow, Nat.zero_add]

/-- A byte put where there was none counts at its place. -/
theorem read_set {bytes : Bytes} {i : Nat} (h : bytes[i]? = some 0) (b : UInt8) :
    read (bytes.set i b) = read bytes + 256 ^ i * b.toNat := by
  obtain ⟨hi, hzero⟩ := List.getElem?_eq_some_iff.mp h
  have hsplit : bytes = bytes.take i ++ 0 :: bytes.drop (i + 1) := by
    rw [← hzero, ← List.drop_eq_getElem_cons hi, List.take_append_drop]
  have hlen := List.length_take_of_le hi.le
  have hread := congrArg read hsplit
  rw [read_append, read, hlen] at hread
  have hbyte : (0 : UInt8).toNat = 0 := rfl
  rw [List.set_eq_take_append_cons_drop, if_pos hi, read_append, read, hlen, hread, hbyte]
  ring

/-- High zeros may be left out. -/
theorem read_take_of_zeros {bytes : Bytes} {n : Nat} (h : ∀ b ∈ bytes.drop n, b = 0) :
    read (bytes.take n) = read bytes := by
  have hzeros : bytes.drop n = List.replicate (bytes.drop n).length 0 := List.eq_replicate_iff.mpr ⟨rfl, h⟩
  have hsplit := read_append (bytes.take n) (bytes.drop n)
  rw [hzeros, read_zeros, Nat.mul_zero, Nat.add_zero, ← hzeros, List.take_append_drop] at hsplit
  exact hsplit.symm

/-- What fits its width is read back. -/
theorem read_write {width n : Nat} (h : n < 256 ^ width) : read (write width n) = n := by
  induction width generalizing n with
  | zero => simp only [Nat.pow_zero, Nat.lt_one_iff] at h; simp [write, read, h]
  | succ width ih =>
    have hrest : n / 256 < 256 ^ width := Nat.div_lt_of_lt_mul (by rwa [Nat.pow_succ'] at h)
    have hbyte : (UInt8.ofNat (n % 256)).toNat = n % 256 :=
      UInt8.toNat_ofNat_of_lt' (Nat.mod_lt _ (by decide))
    rw [write, read, ih hrest, hbyte]
    omega

end LittleEndian
end WaviclesPrime
