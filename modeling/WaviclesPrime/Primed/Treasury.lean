import WaviclesPrime.Lib.Journal
import WaviclesPrime.Lib.Traced
import WaviclesPrime.Primed.Blocks

/-! The recorded blocks and the carry ledger, in memory and on disk, and the confirm pass. -/
namespace WaviclesPrime.Primed
open Wire Machine Tides

def maxBlocks : Nat := 10000
def orphanRecheckBlocks : Nat := 100
def recheckBlocks : Nat := 2000
def maxAsked : Nat := 20

/-- What the pool holds in memory. -/
structure Treasury where
  blocks : List BlockRecord
  carry : Carry

/-- A durable write: a line of the block log, or the carry file and the record it settles. -/
inductive Write where
  | line (r : BlockRecord)
  | ledger (c : Carry) (r : BlockRecord)

/-- Why a confirm pass stops: an addition to a height leaves u32, or a sum of sats leaves u64. -/
inductive Overflow where
  | height
  | sats
  deriving DecidableEq

/-- What the node says of a block. -/
inductive Answer where
  | confirmations (n : Int)
  | unknown
  | failed

/-- A record the node has in the main chain, an orphan or not before. -/
def confirmRecord (r : BlockRecord) : BlockRecord := { r with orphan := false, settled := true }

def carryRecord (r : BlockRecord) : BlockRecord := { r with carried := true }

def orphanRecord (r : BlockRecord) : BlockRecord := { r with orphan := true }

/-- The last records of a list. -/
def newest (n : Nat) (blocks : List BlockRecord) : List BlockRecord := (blocks.reverse.take n).reverse

theorem newest_sublist (n : Nat) (blocks : List BlockRecord) : (newest n blocks).Sublist blocks := by
  simpa [newest] using (List.take_sublist n blocks.reverse).reverse

namespace Treasury

def recordBlock (t : Treasury) (r : BlockRecord) : Treasury × List Write :=
  ({ t with blocks := newest maxBlocks (t.blocks ++ [r]) }, [.line r])

@[simp] theorem recordBlock_blocks (t : Treasury) (r : BlockRecord) :
    (t.recordBlock r).1.blocks = newest maxBlocks (t.blocks ++ [r]) := rfl

@[simp] theorem recordBlock_carry (t : Treasury) (r : BlockRecord) :
    (t.recordBlock r).1.carry = t.carry := rfl

def updateBlock (t : Treasury) (hash : String) (f : BlockRecord → BlockRecord) :
    Treasury × List Write :=
  match Journal.updateLast (fun r => r.hash = hash) f t.blocks with
  | none => (t, [])
  | some (blocks, updated) => ({ t with blocks := blocks }, [.line updated])

/-- Move a settled block's amounts into the ledger, once. -/
def applyCarryForSettled (carryForward : Bool) (t : Treasury) (hash : String) :
    Traced Write Overflow Treasury :=
  if carryForward then
    match t.blocks.reverse.find? (fun r => r.hash = hash && r.settled && !r.carried) with
    | none => pure t
    | some r => do
      let c := t.carry.applied r.carryPaid r.unpaid
      -- the line logged here adds up both lists, before the ledger is saved
      let _ ← .require .sats (sumSats r.unpaid)
      let _ ← .require .sats (sumSats r.carryPaid)
      .tell [.ledger c r]
      .ofPair ({ t with carry := c }.updateBlock hash carryRecord)
  else pure t

/-- Label a block as orphaned, once. -/
def markOrphan (t : Treasury) (hash : String) : Treasury × List Write :=
  match t.blocks.reverse.find? (fun r => r.hash = hash) with
  | none => (t, [])
  | some r => if r.orphan then (t, []) else t.updateBlock hash orphanRecord

/-- What one answer of the node does. -/
def checkBlock (carryForward : Bool) (tipHeight : Nat) (t : Treasury) (hash : String)
    (height : UInt32) : Answer → Traced Write Overflow Treasury
  | .confirmations n =>
    if 0 < n then do
      let t ← .ofPair (t.updateBlock hash confirmRecord)
      t.applyCarryForSettled carryForward hash
    else if n < 0 then .ofPair (t.markOrphan hash)
    else pure t
  | .unknown => do
    -- if the chain has moved well past it, it lost
    let past ← .require .height (checkedAdd sizeU32 height.toNat 6)
    if past < tipHeight then .ofPair (t.markOrphan hash) else pure t
  | .failed => pure t

end Treasury

/-- Unsettled, and not too far below the tip. -/
def recheck (tipHeight : Nat) (r : BlockRecord) : Option Bool :=
  if r.settled then some false
  else do
    let limit ← checkedAdd sizeU32 r.height.toNat (if r.orphan then orphanRecheckBlocks else recheckBlocks)
    some (decide (tipHeight < limit))

/-- The first records to ask about, of a list that starts with the newest. -/
def askAbout (tipHeight : Nat) : Nat → List BlockRecord → Option (List BlockRecord)
  | 0, _ => some []
  | _ + 1, [] => some []
  | n + 1, r :: rest => do
    if ← recheck tipHeight r then
      let more ← askAbout tipHeight n rest
      some (r :: more)
    else askAbout tipHeight (n + 1) rest

namespace Treasury

/-- The blocks a confirm pass asks the node about, by hash and height. -/
def pending (t : Treasury) (tipHeight : Nat) : Option (List (String × UInt32)) := do
  let asked ← askAbout tipHeight maxAsked t.blocks.reverse
  some (asked.map fun r => (r.hash, r.height))

def checkAll (carryForward : Bool) (tipHeight : Nat) (node : String → Answer) (t : Treasury) :
    List (String × UInt32) → Traced Write Overflow Treasury
  | [] => pure t
  | (hash, height) :: rest => do
    let t ← t.checkBlock carryForward tipHeight hash height (node hash)
    checkAll carryForward tipHeight node t rest

/-- A confirm pass, with the answers the node gives in it. -/
def confirmBlocks (carryForward : Bool) (tipHeight : Nat) (node : String → Answer) (t : Treasury) :
    Traced Write Overflow Treasury := do
  let asked ← .require .height (t.pending tipHeight)
  t.checkAll carryForward tipHeight node asked

end Treasury

/-- The block log and the carry file. -/
structure Disk where
  log : List BlockRecord
  carry : Carry

namespace Disk

def perform (d : Disk) (ws : List Write) : Disk :=
  ws.foldl (fun d w => match w with
    | .line r => { d with log := d.log ++ [r] }
    | .ledger c _ => { d with carry := c }) d

/-- What a start-up reads. -/
def reload (d : Disk) : Treasury := ⟨Journal.replay BlockRecord.hash d.log, d.carry⟩

end Disk
end WaviclesPrime.Primed
