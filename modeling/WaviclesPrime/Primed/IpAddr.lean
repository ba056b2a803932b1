import Mathlib.Algebra.Order.Ring.Nat
import Mathlib.Data.List.Basic
import Mathlib.Tactic.Common

/-! IP addresses as a socket reports them, and how they are read from text. -/
namespace WaviclesPrime.Primed

inductive IpAddr where
  | v4 (bits : BitVec 32)
  | v6 (bits : BitVec 128)
  deriving DecidableEq, Repr

namespace IpAddr

def width : IpAddr → Nat
  | .v4 _ => 32
  | .v6 _ => 128

/-- An IPv4 address in the IPv6 form `::ffff:a.b.c.d`. -/
def mapped (a : BitVec 32) : BitVec 128 := 0xffff#96 ++ a

/-- The IPv4 address that an IPv6 address is the mapped form of. -/
def toIpv4Mapped (a : BitVec 128) : Option (BitVec 32) :=
  if a.extractLsb' 32 96 = 0xffff#96 then some (a.extractLsb' 0 32) else none

end IpAddr

/-- A digit in some radix up to 16. -/
def toDigit (radix : Nat) (c : Char) : Option Nat :=
  let digit :=
    if '0' ≤ c ∧ c ≤ '9' then some (c.toNat - '0'.toNat)
    else if 'a' ≤ c ∧ c ≤ 'z' then some (c.toNat - 'a'.toNat + 10)
    else if 'A' ≤ c ∧ c ≤ 'Z' then some (c.toNat - 'A'.toNat + 10)
    else none
  digit.filter (· < radix)

namespace IpAddr

/-- Digits up to the first character that is none, at most so many of them. -/
def readDigits (radix maxDigits : Nat) : List Char → Nat → Nat → Option (Nat × Nat × List Char)
  | [], result, count => some (result, count, [])
  | c :: rest, result, count =>
    match toDigit radix c with
    | none => some (result, count, c :: rest)
    | some digit =>
      if maxDigits < count + 1 then none
      else readDigits radix maxDigits rest (result * radix + digit) (count + 1)

/-- A number of a given width, off the front of the text. -/
def readNumber (radix maxDigits width : Nat) (allowZeroPrefix : Bool) (text : List Char) :
    Option (BitVec width × List Char) := do
  let (result, count, rest) ← readDigits radix maxDigits text 0 0
  if count = 0 then none
  else if allowZeroPrefix = false ∧ text.head? = some '0' ∧ 1 < count then none
  else if 2 ^ width ≤ result then none
  else some (.ofNat width result, rest)

def readGivenChar (target : Char) : List Char → Option (List Char)
  | [] => none
  | c :: rest => if c = target then some rest else none

/-- What is read after a separator, which the first item has none of. -/
def readSeparator {α : Type} (sep : Char) (index : Nat) (inner : List Char → Option (α × List Char))
    (text : List Char) : Option (α × List Char) :=
  if 0 < index then (readGivenChar sep text).bind inner else inner text

/-- Four groups of decimal digits, none with a leading zero. -/
def readIpv4Addr (text : List Char) : Option (BitVec 32 × List Char) := do
  let (a, text) ← readNumber 10 3 8 false text
  let (b, text) ← readSeparator '.' 1 (readNumber 10 3 8 false) text
  let (c, text) ← readSeparator '.' 2 (readNumber 10 3 8 false) text
  let (d, text) ← readSeparator '.' 3 (readNumber 10 3 8 false) text
  some (a ++ b ++ c ++ d, text)

/-- Groups of hexadecimal digits, as many as there is room for; the last two may be an IPv4 address. -/
def readGroups : Nat → Nat → List Char → List (BitVec 16) × Bool × List Char
  | 0, _, text => ([], false, text)
  | room + 1, index, text =>
    match if 0 < room then readSeparator ':' index readIpv4Addr text else none with
    | some (a, rest) => ([a.extractLsb' 16 16, a.extractLsb' 0 16], true, rest)
    | none =>
      match readSeparator ':' index (readNumber 16 4 16 true) text with
      | some (group, rest) =>
        let (groups, ipv4, rest) := readGroups room (index + 1) rest
        (group :: groups, ipv4, rest)
      | none => ([], false, text)

def ofGroups (groups : List (BitVec 16)) : BitVec 128 :=
  groups.foldl (fun a group => a <<< 16 ||| group.setWidth 128) 0

/-- Eight groups, or fewer on both sides of a `::` that stands for at least one group of zeros. -/
def readIpv6Addr (text : List Char) : Option (BitVec 128 × List Char) :=
  let (head, ipv4, text) := readGroups 8 0 text
  if head.length = 8 then some (ofGroups head, text)
  else if ipv4 then none
  else do
    let text ← readGivenChar ':' text
    let text ← readGivenChar ':' text
    let (tail, _, text) := readGroups (8 - (head.length + 1)) 0 text
    some (ofGroups (head ++ List.replicate (8 - tail.length - head.length) 0 ++ tail), text)

/-- An address that is the whole text. -/
def parse (text : List Char) : Option IpAddr :=
  match readIpv4Addr text with
  | some (a, rest) => if rest = [] then some (.v4 a) else none
  | none =>
    match readIpv6Addr text with
    | some (a, rest) => if rest = [] then some (.v6 a) else none
    | none => none

end IpAddr

/-- A number below 256 in decimal, with a plus sign or without. -/
def parseU8 (text : List Char) : Option Nat :=
  let digits := if text.head? = some '+' then text.tail else text
  if digits = [] then none
  else digits.foldlM (fun n c => do
    let digit ← toDigit 10 c
    if 255 < n * 10 + digit then none else some (n * 10 + digit)) 0

end WaviclesPrime.Primed
