import WaviclesPrime.Wire.Cursor

/-! Share submissions and their optional sections. -/
namespace WaviclesPrime.Wire

abbrev Hash := ByteArr 32

def zeros (n : Nat) : ByteArr n := List.Vector.replicate n 0

instance (n : Nat) : DecidableEq (ByteArr n) := fun a b => decidable_of_iff (a.1 = b.1) Subtype.ext_iff.symm

abbrev Reject := UInt16

def rejectBadJobId : Reject := 10
def rejectBadCoinbaseId : Reject := 11
def rejectBadTarget : Reject := 13
def rejectBadUsername : Reject := 14
def rejectCoinbaseTooLarge : Reject := 17
def rejectCoinbaseMissing : Reject := 18
def rejectHighHash : Reject := 21
def rejectBadNtime : Reject := 23
def rejectBadVersion : Reject := 24
def rejectStaleBlock : Reject := 25
def rejectBadCoinbase : Reject := 26
def rejectBadCoinbaseOutputs : Reject := 27
def rejectDuplicateWork : Reject := 29
def rejectOther : Reject := 30

structure JobSection where
  prevHash : Hash
  targetByteIndex : UInt16
  nbits : ByteArr 4
  coinbaserId : UInt8
  height : UInt32
  coinbaseValue : UInt64
  txnCount : UInt32
  txnTotalWeight : UInt32
  txnTotalSize : UInt32
  txnTotalSigops : UInt32
  merkleBranches : List Hash
  deriving DecidableEq

def JobSection.nbitsU32 (j : JobSection) : UInt32 := .ofNat (LittleEndian.read j.nbits.toList)

structure CoinbaseSection where
  coinbaseId : UInt8
  coinb1 : Bytes
  coinb2 : Bytes
  deriving DecidableEq, Repr

structure Blake2bSection where
  ntime : ByteArr 8
  nonce : ByteArr 8
  deriving DecidableEq

structure PowSubmit where
  jobId : UInt8
  coinbaseId : UInt8
  flags : UInt8
  targetPot : UInt8
  ntime32 : UInt32
  nonce32 : UInt32
  version : UInt32
  extranonce : ByteArr 12
  username : String
  reserved : ByteArr 4
  blake2b : Option Blake2bSection
  timeOnWire : Option UInt32
  job : Option JobSection
  coinbase : Option CoinbaseSection
  deriving DecidableEq

namespace PowSubmit

def subsidyOnly (s : PowSubmit) : Bool := s.flags &&& 0x02 != 0

def isBlake2b (s : PowSubmit) : Bool := s.flags &&& 0x08 != 0 || s.blake2b.isSome

def useTimeOffset (s : PowSubmit) : Bool := s.reserved.head &&& 0x01 != 0

/-- Work the share claims, in units of a difficulty-1 share. -/
def claimedWork (s : PowSubmit) : Nat := if 64 ≤ s.targetPot then 2 ^ 64 - 1 else 2 ^ s.targetPot.toNat

end PowSubmit

def subCoinbaserReply : UInt8 := 0x11

/-- The reply to a coinbaser request: the value asked for, and the encoded list. -/
def coinbaserReply (value : Nat) (coinbaserV2 : Bytes) : Bytes :=
  subCoinbaserReply :: LittleEndian.write 8 value ++ LittleEndian.write 4 coinbaserV2.length ++
    coinbaserV2

end WaviclesPrime.Wire
