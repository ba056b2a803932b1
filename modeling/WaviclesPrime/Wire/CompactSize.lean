import WaviclesPrime.Wire.Coinbase

/-! Lengths of one, three, five or nine bytes. -/
namespace WaviclesPrime.Wire

def writeVarint (n : Nat) : Bytes :=
  if n < 0xfd then [UInt8.ofNat n]
  else if n ≤ 0xffff then 0xfd :: LittleEndian.write 2 n
  else if n ≤ 0xffffffff then 0xfe :: LittleEndian.write 4 n
  else 0xff :: LittleEndian.write 8 n

/-- The forms a length may take on the wire. -/
inductive CompactSize : Nat → Bytes → Prop
  | one {n} (h : n < 0xfd) : CompactSize n [UInt8.ofNat n]
  | three {n} (h : n < 2 ^ 16) : CompactSize n (0xfd :: LittleEndian.write 2 n)
  | five {n} (h : n < 2 ^ 32) : CompactSize n (0xfe :: LittleEndian.write 4 n)
  | nine {n} (h : n < 2 ^ 64) : CompactSize n (0xff :: LittleEndian.write 8 n)

/-- What is written is one of them. -/
theorem compactSize_writeVarint {n : Nat} (h : n < 2 ^ 64) : CompactSize n (writeVarint n) := by
  unfold writeVarint
  split
  next hone => exact .one hone
  next =>
    split
    next hthree => exact .three (Nat.lt_succ_of_le hthree)
    next =>
      split
      next hfive => exact .five (Nat.lt_succ_of_le hfive)
      next => exact .nine h

namespace CompactSize
variable {n : Nat} {bytes : Bytes}

/-- A length stands in the form that is written, or takes up more bytes. -/
theorem written_or_longer (h : CompactSize n bytes) :
    bytes = writeVarint n ∨ (writeVarint n).length < bytes.length := by
  unfold writeVarint
  cases h with
  | one hn =>
    rw [if_pos hn]
    exact .inl rfl
  | three hn =>
    split
    next => exact .inr (by simp)
    next =>
      rw [if_pos (Nat.le_of_lt_succ hn)]
      exact .inl rfl
  | five hn =>
    split
    next => exact .inr (by simp)
    next =>
      split
      next => exact .inr (by simp)
      next =>
        rw [if_pos (Nat.le_of_lt_succ hn)]
        exact .inl rfl
  | nine hn =>
    split
    next => exact .inr (by simp)
    next =>
      split
      next => exact .inr (by simp)
      next =>
        split
        next => exact .inr (by simp)
        next => exact .inl rfl

theorem length_le (h : CompactSize n bytes) : (writeVarint n).length ≤ bytes.length := by
  obtain rfl | hlonger := h.written_or_longer
  · exact Nat.le_refl _
  · exact hlonger.le

theorem takes (h : CompactSize n bytes) : Takes readVarint bytes n := by
  cases h with
  | one hn =>
    have hbyte : (UInt8.ofNat n).toNat = n := UInt8.toNat_ofNat_of_lt' (hn.trans (by decide))
    have hshort : Takes (do
        let n ← Cursor.u8
        if n = 0xfd then Cursor.u16
        else if n = 0xfe then Cursor.u32
        else if n = 0xff then Cursor.u64
        else return n) ([UInt8.ofNat n] ++ []) n := by
      refine (Takes.u8 _).bind ?_
      rw [hbyte, if_neg (by omega), if_neg (by omega), if_neg (by omega)]
      exact .ret n
    exact hshort
  | three hn => exact (Takes.u8 0xfd).bind (.uint 2 hn)
  | five hn => exact (Takes.u8 0xfe).bind (.uint 4 hn)
  | nine hn => exact (Takes.u8 0xff).bind (.uint 8 hn)

/-- Reading tells every form, and takes nothing else. -/
theorem reads : Reads readVarint fun bytes n => CompactSize n bytes := by
  refine (Reads.uint 1).bind fun first => ?_
  have hhead {u : Bytes} (hu : u = LittleEndian.write 1 first ∧ first < 256 ^ 1) : u = [UInt8.ofNat first] := by
    obtain ⟨rfl, hlt⟩ := hu
    rw [LittleEndian.write, Nat.mod_eq_of_lt (by simpa using hlt), LittleEndian.write]
  refine .ite (fun h => ?_) fun hthree => .ite (fun h => ?_) fun hfive => .ite (fun h => ?_) fun hnine => ?_
  · refine (Reads.uint 2).mono ?_
    rintro _ n ⟨rfl, hn⟩ u hu
    rw [hhead hu, h]
    exact .three hn
  · refine (Reads.uint 4).mono ?_
    rintro _ n ⟨rfl, hn⟩ u hu
    rw [hhead hu, h]
    exact .five hn
  · refine (Reads.uint 8).mono ?_
    rintro _ n ⟨rfl, hn⟩ u hu
    rw [hhead hu, h]
    exact .nine hn
  · refine (Reads.ret first).mono ?_
    rintro _ n ⟨rfl, rfl⟩ u hu
    have hlt := hu.2
    rw [hhead hu]
    exact .one (by omega)

end CompactSize
end WaviclesPrime.Wire
