import WaviclesPrime.Lib.Machine
import WaviclesPrime.Wire.Cursor

/-! The coinbase transaction as a gateway ships it, in legacy serialization. -/
namespace WaviclesPrime.Wire
open Machine

def extranonceSlot : Nat := 12

structure TxOut where
  value : Nat
  script : Bytes
  deriving DecidableEq, Repr

def isOpReturnScript (script : Bytes) : Bool := script.head? == some 0x6a

def TxOut.isOpReturn (o : TxOut) : Bool := isOpReturnScript o.script

structure Coinbase where
  version : UInt32
  scriptSig : Bytes
  sequence : UInt32
  outputs : List TxOut
  lockTime : UInt32
  height : Option UInt32
  outputsAt : Nat
  lockTimeAt : Nat
  deriving DecidableEq, Repr

/-- Saturating: the bytes are the gateway's. -/
def Coinbase.totalOutputValue (cb : Coinbase) : Nat :=
  (cb.outputs.map TxOut.value).foldl (satAdd sizeU64) 0

def Coinbase.paidTo (cb : Coinbase) (script : Bytes) : Nat :=
  ((cb.outputs.filter (fun o => o.script = script)).map TxOut.value).foldl (satAdd sizeU64) 0

/-- Put a share's coinbase back together. The one-piece shape is taken as it is. -/
def assemble (coinb1 coinb2 : Bytes) (targetByteIndex : Nat) (targetPot : UInt8) : Bytes :=
  if coinb2 = [] ∧ targetByteIndex = 0 then coinb1
  else
    let v := coinb1 ++ List.replicate extranonceSlot 0 ++ coinb2
    if targetByteIndex < v.length then v.set targetByteIndex targetPot else v

def readVarint : Read Nat := do
  let n ← Cursor.u8
  if n = 0xfd then Cursor.u16
  else if n = 0xfe then Cursor.u32
  else if n = 0xff then Cursor.u64
  else return n

def bip34Height : Bytes → Option UInt32
  | [] => none
  | n :: rest =>
    if 0x51 ≤ n ∧ n ≤ 0x60 then some (UInt32.ofNat (n.toNat - 0x50))
    else if 1 ≤ n ∧ n ≤ 4 then
      if rest.length < n.toNat then none
      else some (UInt32.ofNat (LittleEndian.read (rest.take n.toNat)))
    else none

def readOutputs : Nat → Read (List TxOut)
  | 0 => return []
  | count + 1 => do
    let value ← Cursor.u64
    let len ← readVarint
    if 10000 < len then throw (.malformed "coinbase output script length")
    let script ← Cursor.take len
    return ⟨value, script⟩ :: (← readOutputs count)

def readCoinbase : Read Coinbase := do
  let version ← Cursor.u32
  if (← readVarint) ≠ 1 then throw (.malformed "coinbase input count")
  let prevout ← Cursor.take 36
  if prevout ≠ List.replicate 32 0 ++ List.replicate 4 0xff then
    throw (.malformed "coinbase outpoint")
  let n ← readVarint
  if n < 2 ∨ 100 < n then throw (.malformed "coinbase scriptSig length")
  let scriptSig ← Cursor.take n
  let sequence ← Cursor.u32
  let outputsAt := (← get).pos
  let nout ← readVarint
  if nout = 0 ∨ 10000 < nout then throw (.malformed "coinbase output count")
  let outputs ← readOutputs nout
  let lockTimeAt := (← get).pos
  let lockTime ← Cursor.u32
  if (← get).remaining ≠ 0 then throw (.malformed "coinbase trailing bytes")
  return {
    version := .ofNat version
    scriptSig := scriptSig
    sequence := .ofNat sequence
    outputs := outputs
    lockTime := .ofNat lockTime
    height := bip34Height scriptSig
    outputsAt := outputsAt
    lockTimeAt := lockTimeAt }

/-- One input spending the null outpoint, and no byte left over. -/
def parse (bytes : Bytes) : Except Error Coinbase := (readCoinbase.run (.new bytes)).map Prod.fst

/-- While the outputs fit a word, what the coinbase pays a script is their exact sum. -/
theorem Coinbase.paidTo_eq (cb : Coinbase) (script : Bytes) : cb.paidTo script =
    min ((cb.outputs.filter (fun o => o.script = script)).map TxOut.value).sum (sizeU64 - 1) := by
  rw [Coinbase.paidTo, foldl_satAdd _ _ (by decide), Nat.zero_add]

theorem Coinbase.value_eq {cb : Coinbase} (h : (cb.outputs.map TxOut.value).sum < sizeU64) :
    cb.totalOutputValue = (cb.outputs.map TxOut.value).sum := by
  rw [Coinbase.totalOutputValue, foldl_satAdd _ _ (by decide), Nat.zero_add]
  exact Nat.min_eq_left (by omega)

theorem Coinbase.paidTo_exact {cb : Coinbase} (h : (cb.outputs.map TxOut.value).sum < sizeU64) (script : Bytes) :
    cb.paidTo script = ((cb.outputs.filter fun o => o.script = script).map TxOut.value).sum := by
  have hle : ((cb.outputs.filter fun o => o.script = script).map TxOut.value).sum ≤
      (cb.outputs.map TxOut.value).sum := (List.filter_sublist.map _).sum_le_sum (by simp)
  rw [cb.paidTo_eq]
  exact Nat.min_eq_left (by omega)

theorem Coinbase.paidTo_pos {cb : Coinbase} {script : Bytes} (h : 0 < cb.paidTo script) :
    ∃ o ∈ cb.outputs, o.script = script := by
  by_contra hne
  have hnil : cb.outputs.filter (fun o => o.script = script) = [] :=
    List.filter_eq_nil_iff.mpr fun o ho => by simpa using fun heq => hne ⟨o, ho, heq⟩
  simp [Coinbase.paidTo, hnil] at h

end WaviclesPrime.Wire
