import Mathlib.Algebra.Order.Ring.Nat
import Mathlib.Data.Nat.Bitwise
import Mathlib.Tactic.IntervalCases
import WaviclesPrime.Wire.Cursor

/-! Frame headers, and the rolling key they are masked with. -/
namespace WaviclesPrime.Wire

def maxCmdLen : Nat := 2 ^ 22

def rotateLeft (x n : UInt32) : UInt32 := (x <<< n) ||| (x >>> (32 - n))

/-- The next header key. -/
def feedback (i : UInt32) : UInt32 :=
  let k := i * 0xcc9e2d51
  let k := rotateLeft k 15
  let k := k * 0x1b873593
  let h := 0xb10cfeed ^^^ k
  let h := rotateLeft h 13
  let h := h * 5 + 0xe6546b64
  let h := h ^^^ 4
  let h := h ^^^ (h >>> 16)
  let h := h * 0x85ebca6b
  let h := h ^^^ (h >>> 13)
  let h := h * 0xc2b2ae35
  h ^^^ (h >>> 16)

/-- The header key of one direction. -/
structure KeyStream where
  key : UInt32
  deriving DecidableEq

def KeyStream.advance (k : KeyStream) : UInt32 × KeyStream := (k.key, ⟨feedback k.key⟩)

/-- The key a client's very first header is masked with. -/
def clientInitialKey : UInt32 := 0xdc871829

/-- The streams after the hello: the one the pool receives under, and the one it sends under. -/
def KeyStream.fromSeed (seed : UInt32) : KeyStream × KeyStream := (⟨feedback seed⟩, ⟨feedback (~~~seed)⟩)

structure Header where
  len : UInt32
  signed : Bool
  sealed : Bool
  channel : Bool
  cmd : UInt8
  deriving DecidableEq, Repr

namespace Header

def size : Nat := 4

def new (cmd : UInt8) (len : Nat) : Header := ⟨.ofNat len, false, false, false, cmd⟩

def lenMask : UInt32 := 0x003fffff

def flag (b : Bool) (place : UInt32) : UInt32 := (if b then 1 else 0) <<< place

def toU32 (h : Header) : UInt32 :=
  (h.len &&& lenMask) ||| flag h.signed 24 ||| flag h.sealed 25 ||| flag h.channel 26 |||
    (h.cmd &&& 0x1f).toUInt32 <<< (27 : UInt32)

def isSet (v place : UInt32) : Bool := v &&& ((1 : UInt32) <<< place) != 0

def fromU32 (v : UInt32) : Header where
  len := v &&& lenMask
  signed := isSet v 24
  sealed := isSet v 25
  channel := isSet v 26
  cmd := (v >>> (27 : UInt32)).toUInt8

def encode (h : Header) (keys : KeyStream) : Bytes × KeyStream :=
  let (k, keys) := keys.advance
  (LittleEndian.write 4 (h.toU32 ^^^ k).toNat, keys)

/-- A header of four bytes; the key goes on also where it is refused. -/
def decode (bytes : Bytes) (keys : KeyStream) : Except Error Header × KeyStream :=
  let (k, keys) := keys.advance
  let h := fromU32 (UInt32.ofNat (LittleEndian.read bytes) ^^^ k)
  (if maxCmdLen < h.len.toNat then .error .tooLong else .ok h, keys)

/-- What a header can say: a length of 22 bits, and a command of five. -/
structure Fits (h : Header) : Prop where
  len : h.len.toNat < 2 ^ 22
  cmd : h.cmd.toNat < 32

instance (h : Header) : Decidable h.Fits :=
  decidable_of_iff (h.len.toNat < 2 ^ 22 ∧ h.cmd.toNat < 32) ⟨fun ⟨len, cmd⟩ => ⟨len, cmd⟩, fun hf => ⟨hf.len, hf.cmd⟩⟩

theorem length_encode (h : Header) (keys : KeyStream) : (h.encode keys).1.length = size :=
  LittleEndian.length_write 4 _

theorem and_lenMask (v : UInt32) : (v &&& lenMask).toNat = v.toNat % 2 ^ 22 := by
  rw [UInt32.toNat_and]
  exact Nat.and_two_pow_sub_one_eq_mod v.toNat 22

theorem or_high {x y i : Nat} (h : x < 2 ^ i) : x ||| 2 ^ i * y = x + 2 ^ i * y := by
  rw [Nat.or_comm, ← Nat.two_pow_add_eq_or_of_lt h, Nat.add_comm]

theorem toNat_flag (b : Bool) {n : Nat} (hn : n < 32) : (flag b (.ofNat n)).toNat = 2 ^ n * b.toNat := by
  interval_cases n <;> cases b <;> rfl

theorem isSet_eq (v : UInt32) {n : Nat} (hn : n < 32) : isSet v (.ofNat n) = v.toNat.testBit n := by
  have hplace : ((1 : UInt32) <<< UInt32.ofNat n).toNat = 2 ^ n := by interval_cases n <;> rfl
  have hand : (v &&& ((1 : UInt32) <<< UInt32.ofNat n)).toNat = (v.toNat.testBit n).toNat * 2 ^ n := by
    rw [UInt32.toNat_and, hplace, Nat.and_two_pow]
  have hpos := Nat.two_pow_pos n
  rw [isSet]
  cases hbit : v.toNat.testBit n with
  | true =>
    rw [hbit] at hand
    simp only [bne_iff_ne, ne_eq]
    intro hzero
    rw [hzero] at hand
    simp at hand
    omega
  | false =>
    rw [hbit] at hand
    simp only [bne_eq_false_iff_eq]
    exact UInt32.toNat_inj.mp (hand.trans (Nat.zero_mul _))

/-- The fields of a header, each in its place. -/
theorem toNat_toU32 {h : Header} (hf : h.Fits) : h.toU32.toNat = h.len.toNat + 2 ^ 24 * h.signed.toNat +
    2 ^ 25 * h.sealed.toNat + 2 ^ 26 * h.channel.toNat + 2 ^ 27 * h.cmd.toNat := by
  have hl := hf.len
  have hc := hf.cmd
  have hcmd : (h.cmd &&& 0x1f).toNat = h.cmd.toNat := by
    rw [UInt8.toNat_and]
    exact (Nat.and_two_pow_sub_one_eq_mod h.cmd.toNat 5).trans (Nat.mod_eq_of_lt hc)
  have hshift : ((h.cmd &&& 0x1f).toUInt32 <<< (27 : UInt32)).toNat = 2 ^ 27 * h.cmd.toNat := by
    rw [UInt32.toNat_shiftLeft, UInt8.toNat_toUInt32, hcmd]
    change h.cmd.toNat <<< 27 % 2 ^ 32 = _
    rw [Nat.shiftLeft_eq]
    omega
  have hsigned := toNat_flag h.signed (show 24 < 32 by decide)
  have hsealed := toNat_flag h.sealed (show 25 < 32 by decide)
  have hchannel := toNat_flag h.channel (show 26 < 32 by decide)
  have h₁ := h.signed.toNat_le
  have h₂ := h.sealed.toNat_le
  have h₃ := h.channel.toNat_le
  rw [toU32, UInt32.toNat_or, UInt32.toNat_or, UInt32.toNat_or, UInt32.toNat_or, and_lenMask, hshift]
  change _ ||| (flag h.signed (.ofNat 24)).toNat ||| (flag h.sealed (.ofNat 25)).toNat |||
    (flag h.channel (.ofNat 26)).toNat ||| _ = _
  rw [hsigned, hsealed, hchannel, Nat.mod_eq_of_lt hl, @or_high _ _ 24 (by omega), @or_high _ _ 25 (by omega),
    @or_high _ _ 26 (by omega), @or_high _ _ 27 (by omega)]

/-- A header that fits is read back from its word. -/
theorem fromU32_toU32 {h : Header} (hf : h.Fits) : fromU32 h.toU32 = h := by
  have hword := toNat_toU32 hf
  have hl := hf.len
  have hc := hf.cmd
  have h₁ := h.signed.toNat_le
  have h₂ := h.sealed.toNat_le
  have h₃ := h.channel.toNat_le
  have hbit : ∀ n (hn : n < 32) (b : Bool), h.toU32.toNat / 2 ^ n % 2 = b.toNat →
      isSet h.toU32 (.ofNat n) = b := by
    intro n hn b hb
    rw [isSet_eq _ hn, Nat.testBit_eq_decide_div_mod_eq, hb]
    cases b <;> rfl
  have hlen : h.toU32 &&& lenMask = h.len := by
    refine UInt32.toNat_inj.mp ?_
    rw [and_lenMask]
    omega
  have hcmd : (h.toU32 >>> (27 : UInt32)).toUInt8 = h.cmd := by
    refine UInt8.toNat_inj.mp ?_
    rw [UInt32.toNat_toUInt8, UInt32.toNat_shiftRight]
    change h.toU32.toNat >>> 27 % 2 ^ 8 = _
    rw [Nat.shiftRight_eq_div_pow]
    omega
  have hsigned : isSet h.toU32 24 = h.signed := hbit 24 (by decide) _ (by omega)
  have hsealed : isSet h.toU32 25 = h.sealed := hbit 25 (by decide) _ (by omega)
  have hchannel : isSet h.toU32 26 = h.channel := hbit 26 (by decide) _ (by omega)
  rw [fromU32, hlen, hcmd, hsigned, hsealed, hchannel]

/-- A length of 22 bits is within the limit. -/
theorem within (v : UInt32) : ¬ maxCmdLen < (fromU32 v).len.toNat := by
  rw [fromU32, and_lenMask]
  exact Nat.not_lt.mpr (Nat.mod_lt _ (by decide)).le

/-- What four bytes say under a key. -/
def under (keys : KeyStream) (bytes : Bytes) : Header :=
  fromU32 (.ofNat (LittleEndian.read bytes) ^^^ keys.key)

/-- No header is refused. -/
theorem decode_eq (bytes : Bytes) (keys : KeyStream) :
    decode bytes keys = (.ok (under keys bytes), keys.advance.2) := by
  simp only [decode, KeyStream.advance, under, within, if_false]

/-- What is decoded under the key a header was encoded with is that header, and the keys stay in step. -/
theorem decode_encode {h : Header} (hf : h.Fits) (keys : KeyStream) :
    decode (h.encode keys).1 keys = (.ok h, (h.encode keys).2) := by
  have hread : LittleEndian.read (h.encode keys).1 = (h.toU32 ^^^ keys.key).toNat :=
    LittleEndian.read_write (h.toU32 ^^^ keys.key).toNat_lt
  rw [decode_eq, under, hread, UInt32.ofNat_toNat, UInt32.xor_assoc, UInt32.xor_self, UInt32.xor_zero,
    fromU32_toU32 hf]
  rfl

end Header
end WaviclesPrime.Wire
