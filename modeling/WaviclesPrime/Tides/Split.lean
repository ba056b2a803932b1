import Mathlib.Data.List.Sort
import Mathlib.Data.String.Basic
import WaviclesPrime.Lib.LittleEndian
import WaviclesPrime.Lib.Machine
import WaviclesPrime.Lib.OrdMap

/-! Turning a window into coinbase outputs. `none` is a stop on an arithmetic check. -/
namespace WaviclesPrime

abbrev Identity := String

namespace Tides
open Machine

structure SplitParams where
  feeBps : Nat
  stratumFeeBps : Nat
  minPayout : Nat
  maxOutputs : Nat
  outputBudgetBytes : Nat
  maxPayees : Nat
  feeOverrides : OrdMap Identity Nat
  deriving DecidableEq

/-- The (stratum, datum) basis points that apply to an identity. -/
def SplitParams.bpsFor (p : SplitParams) (identity : Identity) : Nat × Nat :=
  match p.feeOverrides.get identity with
  | some o => (o, o)
  | none => (if p.stratumFeeBps = 0 then p.feeBps else p.stratumFeeBps, p.feeBps)

structure MinerStat where
  identity : Identity
  work : Nat
  stratumWork : Nat
  credits : Nat
  lastTs : Nat
  deriving DecidableEq, Repr

structure Payee where
  identity : Identity
  work : Nat
  sats : Nat
  script : Bytes
  deriving DecidableEq, Repr

inductive UnpaidReason where
  | noScript
  | belowMinimum
  | overBudget
  | belowCut
  deriving DecidableEq, Repr

structure Split where
  value : Nat
  feeSats : Nat
  totalWork : Nat
  payees : List Payee
  unpaid : List (Identity × Nat × UnpaidReason)
  carryPaid : List (Identity × Nat)
  poolSats : Nat
  deriving DecidableEq, Repr

def Split.paidSats (s : Split) : Nat := (s.payees.map Payee.sats).sum

/-- Running totals of the loop over the window. -/
structure Tally where
  feeSats : Nat
  payees : List Payee
  unpaid : List (Identity × Nat × UnpaidReason)
  paid : Nat
  bytes : Nat
  feeNum : Nat
  deriving DecidableEq

def Tally.start : Tally := ⟨0, [], [], 0, 0, 0⟩

/-- Bytes an output with this script takes inside a coinbase. -/
def outputNeed (script : Bytes) : Nat := 8 + 1 + script.length

/-- Fee weight and kept weight of one miner, in work times basis points. -/
def weights (p : SplitParams) (m : MinerStat) : Option (Nat × Nat) := do
  let sw := min m.stratumWork m.work
  let dw := m.work - sw
  let (sbps, dbps) := p.bpsFor m.identity
  let sfee ← checkedMul sizeU128 sw sbps
  let dfee ← checkedMul sizeU128 dw dbps
  let fee ← checkedAdd sizeU128 sfee dfee
  let srest ← checkedSub 10000 sbps
  let drest ← checkedSub 10000 dbps
  let skeep ← checkedMul sizeU128 sw srest
  let dkeep ← checkedMul sizeU128 dw drest
  let keep ← checkedAdd sizeU128 skeep dkeep
  some (fee, keep)

/-- One part of the value, in u128 with a final cast. -/
def portion (value weight totalWork : Nat) : Option Nat := do
  let product ← checkedMul sizeU128 value weight
  some (cast sizeU64 (product / totalWork / 10000))

def addMiner (p : SplitParams) (value totalWork : Nat) (scriptFor : Identity → Option Bytes)
    (t : Tally) (m : MinerStat) : Option Tally := do
  let (fee, keep) ← weights p m
  let feeNum ← checkedAdd sizeU128 t.feeNum fee
  let sats ← portion value keep totalWork
  let feePart ← portion value fee totalWork
  let t := { t with feeNum := feeNum, feeSats := satAdd sizeU64 t.feeSats feePart }
  if sats < p.minPayout then
    some { t with unpaid := t.unpaid ++ [(m.identity, sats, .belowMinimum)] }
  else match scriptFor m.identity with
    | none => some { t with unpaid := t.unpaid ++ [(m.identity, sats, .noScript)] }
    | some script =>
      if p.maxOutputs ≤ t.payees.length ∨ p.outputBudgetBytes < t.bytes + outputNeed script then
        some { t with unpaid := t.unpaid ++ [(m.identity, sats, .overBudget)] }
      else do
        let paid ← checkedAdd sizeU64 t.paid sats
        some { t with
          bytes := t.bytes + outputNeed script
          paid := paid
          payees := t.payees ++ [⟨m.identity, m.work, sats, script⟩] }

/-- Largest work first, then by name. -/
def byWork (a b : Payee) : Prop := b.work < a.work ∨ (a.work = b.work ∧ a.identity ≤ b.identity)

instance : DecidableRel byWork := fun a b => by unfold byWork; infer_instance

/-- `max_by_key`: of several largest, the last. -/
def lastMaxIndex (best : Nat × Nat) (i : Nat) : List Payee → Nat
  | [] => best.1
  | q :: rest => lastMaxIndex (if best.2 ≤ q.sats then (i, q.sats) else best) (i + 1) rest

/-- Credit the rounding dust to the payee `max_by_key` finds. -/
def addDust (dust : Nat) : List Payee → Option (List Payee)
  | [] => some []
  | q :: rest => do
    let i := lastMaxIndex (0, q.sats) 1 rest
    let top ← (q :: rest)[i]?
    let sats ← checkedAdd sizeU64 top.sats dust
    some ((q :: rest).set i { top with sats := sats })

/-- Re-distribute what the fee leaves over the kept payees, in proportion to their work. -/
def shareAmong (distributable keptWork : Nat) (q : Payee) : Option Payee := do
  let product ← checkedMul sizeU128 distributable q.work
  some { q with sats := cast sizeU64 (product / max keptWork 1) }

/-- The capped, remainder-free split. -/
def capPayees (p : SplitParams) (value totalWork : Nat) (t : Tally) : Option Tally :=
  if 0 < p.maxPayees ∧ t.payees ≠ [] then do
    let product ← checkedMul sizeU128 value t.feeNum
    let feeSats := cast sizeU64 (product / max totalWork 1 / 10000)
    let ranked := t.payees.insertionSort byWork
    let cut := ranked.drop p.maxPayees
    let kept := ranked.take p.maxPayees
    let distributable := value - feeSats
    let keptWork ← (kept.map Payee.work).foldlM (checkedAdd sizeU128) 0
    let shared ← kept.mapM (shareAmong distributable keptWork)
    let sum ← (shared.map Payee.sats).foldlM (checkedAdd sizeU64) 0
    let dust ← checkedSub distributable sum
    let payees ← addDust dust shared
    some { t with
      feeSats := feeSats
      payees := payees
      unpaid := t.unpaid ++ cut.map (fun q => (q.identity, q.sats, .belowCut))
      paid := distributable }
  else some t

/-- State of the carry-forward loop. -/
structure Purse where
  room : Nat
  paid : Nat
  bytes : Nat
  payees : List Payee
  carryPaid : List (Identity × Nat)
  deriving DecidableEq

/-- Add carry to the output of an identity that already has one. -/
def giveTo (identity : Identity) (give : Nat) : List Payee → Option (Option (List Payee))
  | [] => some none
  | q :: rest =>
    if q.identity = identity then do
      let sats ← checkedAdd sizeU64 q.sats give
      some (some ({ q with sats := sats } :: rest))
    else do
      let found ← giveTo identity give rest
      some (found.map (q :: ·))

/-- Book one payment of carry. -/
def Purse.book (u : Purse) (identity : Identity) (give : Nat) : Option Purse := do
  let paid ← checkedAdd sizeU64 u.paid give
  let room ← checkedSub u.room give
  some { u with paid := paid, room := room, carryPaid := u.carryPaid ++ [(identity, give)] }

/-- The payees after one carry entry, or `none` inside when the entry is skipped. -/
def placeCarry (p : SplitParams) (scriptFor : Identity → Option Bytes) (u : Purse)
    (identity : Identity) (give : Nat) : Option (Option Purse) := do
  match ← giveTo identity give u.payees with
  | some payees => some (some { u with payees := payees })
  | none =>
    if give < p.minPayout then some none
    else match scriptFor identity with
      | none => some none
      | some script =>
        if p.maxOutputs ≤ u.payees.length ∨ p.outputBudgetBytes < u.bytes + outputNeed script then
          some none
        else some (some { u with
          bytes := u.bytes + outputNeed script
          payees := u.payees ++ [⟨identity, 0, give, script⟩] })

/-- Pay carry by name until the room is gone. -/
def payCarry (p : SplitParams) (scriptFor : Identity → Option Bytes) :
    List (Identity × Nat) → Purse → Option Purse
  | [], u => some u
  | (identity, owed) :: rest, u =>
    if u.room = 0 then some u
    else if owed = 0 then payCarry p scriptFor rest u
    else do
      let give := min owed u.room
      match ← placeCarry p scriptFor u identity give with
      | none => payCarry p scriptFor rest u
      | some placed => payCarry p scriptFor rest (← placed.book identity give)

def tallyMiners (miners : List MinerStat) (totalWork value : Nat) (p : SplitParams)
    (scriptFor : Identity → Option Bytes) : Option Tally :=
  if 0 < totalWork then miners.foldlM (addMiner p value totalWork scriptFor) .start
  else some .start

def computeWithCarry (miners : List MinerStat) (totalWork value : Nat) (p : SplitParams)
    (carry : OrdMap Identity Nat) (scriptFor : Identity → Option Bytes) : Option Split := do
  let tally ← tallyMiners miners totalWork value p scriptFor
  let t ← capPayees p value totalWork tally
  let u ← payCarry p scriptFor carry.entries ⟨value - t.paid, t.paid, t.bytes, t.payees, []⟩
  some {
    value := value
    feeSats := t.feeSats
    totalWork := totalWork
    payees := u.payees
    unpaid := t.unpaid
    carryPaid := u.carryPaid
    poolSats := value - u.paid }

def compute (miners : List MinerStat) (totalWork value : Nat) (p : SplitParams)
    (scriptFor : Identity → Option Bytes) : Option Split :=
  computeWithCarry miners totalWork value p .empty scriptFor

end Tides
end WaviclesPrime
