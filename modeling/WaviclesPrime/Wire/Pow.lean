import WaviclesPrime.Wire.Mining

/-! BLAKE2b header-v2 proof of work over any two digests. -/
namespace WaviclesPrime.Wire

/-- The digests the header is built from. -/
structure Digests where
  sha256 : Bytes → Hash
  blake2b256 : Bytes → Hash

def v2Bit : UInt32 := 0x80000000
def flagUseTimeOffset : UInt8 := 0x04

def le32 (n : UInt32) : Bytes := LittleEndian.write 4 n.toNat

structure Commitment where
  version : UInt32
  prevHash : Hash
  height : UInt32
  merkleRoot : Hash
  timeOnWire : UInt32
  nbits : UInt32
  txcount : UInt32
  flags : UInt8
  xorClearBits : UInt8
  xorKey : ByteArr 16
  rhs : Hash
  deriving DecidableEq

section
variable (H : Digests)

def sha256d (data : Bytes) : Hash := H.sha256 (H.sha256 data).toList

/-- The tags in use are ASCII. -/
def taggedSha256 (tag : String) (data : Bytes) : Hash :=
  let t := (H.sha256 (tag.toList.map fun c => c.toNat.toUInt8)).toList
  H.sha256 (t ++ t ++ data)

def merkleRoot (txid : Hash) (branches : List Hash) : Hash :=
  branches.foldl (fun acc b => sha256d H (acc.toList ++ b.toList)) txid

def xorKeyHash (key : ByteArr 16) : Hash :=
  taggedSha256 H "Bitcoin block hash PoW XOR key" key.toList

namespace Commitment

def h1Preimage (c : Commitment) : Bytes :=
  le32 (c.version ||| v2Bit) ++ c.prevHash.toList.reverse ++ le32 c.height ++ c.merkleRoot.toList ++
    le32 c.timeOnWire ++ [0] ++ le32 c.nbits ++ le32 c.txcount ++ [c.flags, c.xorClearBits] ++
    (xorKeyHash H c.xorKey).toList

/-- The commitment the Sia coinb1 carries. -/
def h2 (c : Commitment) : Hash :=
  let h1 := taggedSha256 H "Bitcoin block header 1" (c.h1Preimage H)
  taggedSha256 H "Merge-mining hook" (h1.toList ++ (zeros 32).toList ++ c.rhs.toList)

end Commitment

/-- The mask XORed onto the digest, all zero when the key is. -/
def xorMask (key : ByteArr 16) (clearBits : UInt8) : Bytes :=
  if key.toList.all (· == 0) then (zeros 32).toList
  else
    let m := (taggedSha256 H "Bitcoin block hash PoW XOR mask" key.toList).toList
    let bytes := clearBits.toNat / 8
    List.replicate bytes (0 : UInt8) ++ (m.drop bytes).modifyHead (· &&& (0xff >>> (clearBits % 8)))

def siaCoinb1 (h2 : Hash) : Bytes :=
  List.replicate 3 0 ++ h2.toList ++ List.replicate 4 0

/-- What the hardware treats as the merkle root. -/
def workRoot (h2 : Hash) (extranonce : ByteArr 12) : Hash :=
  H.blake2b256 (0 :: siaCoinb1 h2 ++ extranonce.toList)

def siaPrevhash (prevInternal : Hash) : Bytes :=
  List.replicate 6 (0 : UInt8) ++
    (taggedSha256 H "Bitcoin prevblock header, hashed" prevInternal.toList.reverse).toList.drop 6

def workHeader (siaPrev : Bytes) (nonce8 ntime8 : ByteArr 8) (root : Hash) : Bytes :=
  siaPrev ++ nonce8.toList ++ ntime8.toList ++ root.toList

/-- Final block hash, least significant byte first. -/
def powHashLe (work : Bytes) (xorKey : ByteArr 16) (clearBits : UInt8) : Bytes :=
  (List.zipWith (· ^^^ ·) (H.blake2b256 work).toList (xorMask H xorKey clearBits)).reverse

end

/-- Shift right by less than a byte, least significant byte first. -/
def shrBits (rem : UInt8) : Bytes → Bytes
  | [] => []
  | [x] => [x >>> rem]
  | x :: y :: rest => ((x >>> rem) ||| (y <<< (8 - rem))) :: shrBits rem (y :: rest)

def shrLe (n : Bytes) (bits : Nat) : Bytes :=
  let moved := n.drop (bits / 8) ++ List.replicate (bits / 8) 0
  if bits % 8 = 0 then moved else shrBits (UInt8.ofNat (bits % 8)) moved

/-- `(2^224 - 1) >> pot`. -/
def shareTargetLe (pot : UInt8) : Option Bytes :=
  if 224 ≤ pot then none
  else some (shrLe (List.replicate 28 0xff ++ List.replicate 4 0) pot.toNat)

/-- Decode a compact target. From exponent 4 to 32 its three bytes all land inside. -/
def nbitsToTargetLe (nbits : UInt32) : Option Bytes :=
  let exp := (nbits >>> 24).toNat
  let mant := nbits &&& 0x007fffff
  if nbits &&& 0x00800000 ≠ 0 ∨ mant = 0 then none
  else if exp ≤ 3 then some (LittleEndian.write 4 (mant.toNat >>> (8 * (3 - exp))) ++ List.replicate 28 0)
  else if 32 < exp then none
  else some (List.replicate (exp - 3) 0 ++ LittleEndian.write 3 mant.toNat ++ List.replicate (32 - exp) 0)

/-- Compare from the most significant byte down. -/
def leFromTop : Bytes → Bytes → Bool
  | a :: as, b :: bs => if a ≠ b then a < b else leFromTop as bs
  | _, _ => true

def meetsTarget (hashLe targetLe : Bytes) : Bool := leFromTop hashLe.reverse targetLe.reverse

/-- The time a node reads from a header built from this share. -/
def shareNtime (timeOnWire : UInt32) (ntime8 : ByteArr 8) (flags : UInt8) : UInt32 :=
  if flags &&& flagUseTimeOffset = 0 then timeOnWire
  else timeOnWire + UInt32.ofNat (LittleEndian.read (ntime8.toList.take 4))

end WaviclesPrime.Wire
