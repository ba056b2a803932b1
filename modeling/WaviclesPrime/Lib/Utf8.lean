import WaviclesPrime.Lib.LittleEndian

/-! Text as bytes, and bytes as text where they need not be any. -/
namespace WaviclesPrime

def asBytes (s : String) : Bytes := s.toByteArray.data.toList

@[simp] theorem length_asBytes (s : String) : (asBytes s).length = s.utf8ByteSize := rfl

namespace Utf8

def isContinuation (b : UInt8) : Bool := b &&& 192 == 128

/-- How long a character is that starts with this byte; zero where none does. -/
def width (first : UInt8) : Nat :=
  if first < 0x80 then 1
  else if first < 0xc2 then 0
  else if first < 0xe0 then 2
  else if first < 0xf0 then 3
  else if first < 0xf5 then 4
  else 0

/-- Whether this byte can be the second of a character of three bytes or four. -/
def follows (first second : UInt8) : Bool :=
  if first = 0xe0 then 0xa0 ≤ second && second ≤ 0xbf
  else if first = 0xed then 0x80 ≤ second && second ≤ 0x9f
  else if first = 0xf0 then 0x90 ≤ second && second ≤ 0xbf
  else if first = 0xf4 then 0x80 ≤ second && second ≤ 0x8f
  else isContinuation second

/-- Where no character is complete: how many bytes start one. -/
def brokenLen : Bytes → Nat
  | first :: second :: rest =>
    if 2 < width first ∧ follows first second then
      if width first = 4 ∧ rest.head?.any isContinuation then 3 else 2
    else 1
  | _ => 1

def replacement : Char := '\uFFFD'

/-- The character at the front, and its bytes; a broken one is replaced. -/
def front (bytes : Bytes) : Char × Nat :=
  match bytes.toByteArray.utf8DecodeChar? 0 with
  | some c => (c, c.utf8Size)
  | none => (replacement, brokenLen bytes)

def lossyChars : Bytes → List Char
  | [] => []
  | b :: rest =>
    let (c, n) := front (b :: rest)
    c :: lossyChars (rest.drop (n - 1))
termination_by bytes => bytes.length
decreasing_by
  rw [List.length_drop, List.length_cons]
  omega

def fromUtf8Lossy (bytes : Bytes) : String := .ofList (lossyChars bytes)

theorem lossyChars_append (c : Char) (rest : Bytes) :
    lossyChars (String.utf8EncodeChar c ++ rest) = c :: lossyChars rest := by
  have hlen : (String.utf8EncodeChar c).length = c.utf8Size := String.length_utf8EncodeChar c
  have hpos := c.utf8Size_pos
  have hfront : front (String.utf8EncodeChar c ++ rest) = (c, c.utf8Size) := by
    rw [front, List.toByteArray_append, ByteArray.utf8DecodeChar?_utf8EncodeChar_append]
  cases hbytes : String.utf8EncodeChar c with
  | nil => rw [hbytes, List.length_nil] at hlen; omega
  | cons b tail =>
    rw [hbytes] at hfront hlen
    have htail : (tail ++ rest).drop (c.utf8Size - 1) = rest := by
      rw [← hlen, List.length_cons, Nat.add_sub_cancel, List.drop_left]
    rw [List.cons_append, lossyChars, ← List.cons_append, hfront]
    exact congrArg (c :: lossyChars ·) htail

/-- Text is read as it was written. -/
theorem fromUtf8Lossy_asBytes (s : String) : fromUtf8Lossy (asBytes s) = s := by
  have hchars : ∀ cs : List Char, lossyChars (cs.flatMap String.utf8EncodeChar) = cs := by
    intro cs
    induction cs with
    | nil => rw [List.flatMap_nil, lossyChars]
    | cons c cs ih => rw [List.flatMap_cons, lossyChars_append, ih]
  have hbytes : asBytes s = s.toList.flatMap String.utf8EncodeChar := by
    rw [asBytes, ← String.utf8Encode_toList, List.utf8Encode, List.data_toByteArray]
  rw [fromUtf8Lossy, hbytes, hchars, String.ofList_toList]

end Utf8
end WaviclesPrime
