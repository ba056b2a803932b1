import WaviclesPrime.Lib.KeyMap
import WaviclesPrime.Lib.Queue
import WaviclesPrime.Tides.Ranked

/-! The sliding share window and its identity table. -/
namespace WaviclesPrime.Tides
open Machine

/-- Work that arrived before its source was tagged. -/
def sourceUnknown : UInt8 := 0

def sourceStratum : UInt8 := 1
def sourceDatum : UInt8 := 2

/-- One accepted unit of work, possibly several coalesced shares. -/
structure Credit where
  ts : UInt32
  ident : UInt32
  work : UInt64
  height : UInt32
  source : UInt8
  deriving DecidableEq, Repr

/-- What a window keeps for an identity: its work, its rows and its last timestamp. -/
structure Total where
  work : Nat
  credits : Nat
  lastTs : UInt32
  deriving DecidableEq, Repr

structure Window where
  idents : List Identity
  identIndex : KeyMap Identity UInt32
  credits : List Credit
  totals : KeyMap UInt32 Total
  totalWork : Nat
  targetWork : Nat
  lifetimeShares : Nat
  lifetimeWork : Nat

/-- A row leaves its identity's totals, and the last one takes them along. -/
def dropRow (totals : KeyMap UInt32 Total) (c : Credit) : KeyMap UInt32 Total :=
  match totals.get c.ident with
  | none => totals
  | some t =>
    if t.credits - 1 = 0 then totals.erase c.ident
    else totals.insert c.ident ⟨t.work - c.work.toNat, t.credits - 1, t.lastTs⟩

/-- The oldest rows are dropped while the rest still holds the target. -/
def trimRows (target : Nat) : List Credit → Nat → KeyMap UInt32 Total →
    List Credit × Nat × KeyMap UInt32 Total
  | [], totalWork, totals => ([], totalWork, totals)
  | front :: rest, totalWork, totals =>
    match checkedSub totalWork front.work.toNat with
    | none => (front :: rest, totalWork, totals)
    | some left =>
      if left < target then (front :: rest, totalWork, totals)
      else trimRows target rest left (dropRow totals front)

/-- Miners in the order a window lists them. -/
def rankedLe (a b : MinerStat) : Prop :=
  b.work < a.work ∨ (a.work = b.work ∧ a.identity ≤ b.identity)

instance : DecidableRel rankedLe := fun a b => by unfold rankedLe; infer_instance

namespace Window

def new : Window := ⟨[], .empty, [], .empty, 0, 0, 0, 0⟩

variable (w : Window)

/-- An identity's place in the table, which it is given when it is new. -/
def intern (identity : Identity) : Window × UInt32 :=
  match w.identIndex.get identity with
  | some i => (w, i)
  | none =>
    let i := UInt32.ofNat w.idents.length
    ({ w with idents := w.idents ++ [identity], identIndex := w.identIndex.insert identity i }, i)

def identity (ident : UInt32) : Option Identity := w.idents[ident.toNat]?

def indexOf (identity : Identity) : Option UInt32 := w.identIndex.get identity

/-- Work in the window for one identity. -/
def workOf (identity : Identity) : Nat :=
  ((w.identIndex.get identity).bind w.totals.get).elim 0 Total.work

def totalOf (ident : UInt32) : Total := (w.totals.get ident).getD ⟨0, 0, 0⟩

def trim : Window :=
  if w.targetWork = 0 then w
  else
    let (credits, totalWork, totals) := trimRows w.targetWork w.credits w.totalWork w.totals
    { w with credits := credits, totalWork := totalWork, totals := totals }

def setTarget (target : Nat) : Window := { w with targetWork := target }.trim

/-- Work is counted, whichever row it ends up in. -/
def count (work : UInt64) : Window :=
  { w with
    lifetimeShares := w.lifetimeShares + 1
    lifetimeWork := satAdd sizeU64 w.lifetimeWork work.toNat
    totalWork := satAdd sizeU64 w.totalWork work.toNat }

/-- A new row at the back. -/
def append (c : Credit) : Window :=
  let t := w.totalOf c.ident
  { w with
    totals := w.totals.insert c.ident ⟨satAdd sizeU64 t.work c.work.toNat, t.credits + 1, c.ts⟩
    credits := w.credits ++ [c] }

/-- More work in the last row. -/
def merge (tail : Credit) (work : UInt64) : Window :=
  let t := w.totalOf tail.ident
  { w with
    totals := w.totals.insert tail.ident ⟨satAdd sizeU64 t.work work.toNat, t.credits, tail.ts⟩
    credits := w.credits.dropLast ++
      [{ tail with work := UInt64.ofNat (satAdd sizeU64 tail.work.toNat work.toNat) }] }

/-- Add work. Returns the row it is in, and whether that row is new. -/
def credit (identity : Identity) (work : UInt64) (height ts : UInt32) (source : UInt8) :
    Window × Credit × Bool :=
  let (w, ident) := w.intern identity
  let w := w.count work
  match w.credits.getLast? with
  | some tail =>
    if tail.ident = ident ∧ tail.ts = ts ∧ tail.height = height ∧ tail.source = source then
      ((w.merge tail work).trim,
        { tail with work := UInt64.ofNat (satAdd sizeU64 tail.work.toNat work.toNat) }, false)
    else ((w.append ⟨ts, ident, work, height, source⟩).trim, ⟨ts, ident, work, height, source⟩, true)
  | none => ((w.append ⟨ts, ident, work, height, source⟩).trim, ⟨ts, ident, work, height, source⟩, true)

/-- Add work as its own row, never merging into the last one. -/
def creditRow (identity : Identity) (work : UInt64) (height ts : UInt32) (source : UInt8) :
    Window × Credit :=
  let (w, ident) := w.intern identity
  let c : Credit := ⟨ts, ident, work, height, source⟩
  (((w.count work).append c).trim, c)

/-- Replay a stored row, without lifetime accounting. -/
def pushRaw (c : Credit) : Window :=
  let t := w.totalOf c.ident
  { w with
    totalWork := satAdd sizeU64 w.totalWork c.work.toNat
    totals := w.totals.insert c.ident
      ⟨satAdd sizeU64 t.work c.work.toNat, t.credits + 1, max t.lastTs c.ts⟩
    credits := w.credits ++ [c] }

/-- The stratum work of each identity. -/
def stratum : Option (KeyMap UInt32 Nat) :=
  w.credits.foldlM (fun m c =>
    if c.source = sourceStratum then do
      let s ← checkedAdd sizeU64 ((m.get c.ident).getD 0) c.work.toNat
      return m.insert c.ident s
    else return m) .empty

def stat (stratum : KeyMap UInt32 Nat) (e : UInt32 × Total) : Option MinerStat :=
  w.idents[e.1.toNat]?.map fun identity =>
    ⟨identity, e.2.work, min ((stratum.get e.1).getD 0) e.2.work, e.2.credits, e.2.lastTs.toNat⟩

/-- Per-identity totals, largest first. -/
def miners : Option (List MinerStat) := do
  let stratum ← w.stratum
  let stats ← w.totals.entries.mapM (w.stat stratum)
  return stats.insertionSort rankedLe

end Window
end WaviclesPrime.Tides
