import WaviclesPrime.Primed.Snapshot

/-! The public verifier's recomputation of a split from a published snapshot. Its numbers are
unbounded, and on the snapshot of a split every difference it takes is of a smaller number. -/
namespace WaviclesPrime.Tools
open Primed Primed.Snapshot

/-- A mapping built from pairs: of several with one key, the last counts. -/
def dict {β : Type} (pairs : List (Identity × β)) (k : Identity) : Option β :=
  (pairs.reverse.find? fun e => e.1 == k).map Prod.snd

/-- A recomputed payee. -/
structure Line where
  identity : Identity
  sats : Nat
  script : String
  deriving DecidableEq, Repr

/-- Running totals of the loop over the window. -/
structure Sheet where
  payees : List Line
  paid : Nat
  fee : Nat
  feeNum : Nat
  deriving DecidableEq

def bpsFor (p : Params) (identity : Identity) : Nat × Nat :=
  match dict p.feeOverrides identity with
  | some o => (o, o)
  | none => (if p.stratumFeeBps = 0 then p.feeBps else p.stratumFeeBps, p.feeBps)

/-- Largest work first, then by name. -/
def byRank (a b : Entry) : Prop := b.work < a.work ∨ (a.work = b.work ∧ a.identity ≤ b.identity)

instance : DecidableRel byRank := fun a b => by unfold byRank; infer_instance

def addEntry (p : Params) (value totalWork : Nat) (scriptOf : Identity → Option String) (t : Sheet)
    (m : Entry) : Sheet :=
  let sw := min m.stratumWork m.work
  let dw := m.work - sw
  let (sbps, dbps) := bpsFor p m.identity
  let charged := sw * sbps + dw * dbps
  let keep := sw * (10000 - sbps) + dw * (10000 - dbps)
  let sats := value * keep / totalWork / 10000
  let t := { t with
    feeNum := t.feeNum + charged
    fee := t.fee + value * charged / totalWork / 10000 }
  if sats = 0 then t
  else if sats < p.minPayout then t
  else match scriptOf m.identity with
    | none => t
    | some script =>
      { t with payees := t.payees ++ [⟨m.identity, sats, script⟩], paid := t.paid + sats }

def byWorkOf (workOf : Identity → Nat) (a b : Line) : Prop :=
  workOf b.identity < workOf a.identity ∨
    (workOf a.identity = workOf b.identity ∧ a.identity ≤ b.identity)

instance (workOf : Identity → Nat) : DecidableRel (byWorkOf workOf) :=
  fun a b => by unfold byWorkOf; infer_instance

/-- `max`: of several largest, the first. -/
def firstMaxIndex (best : Nat × Nat) (i : Nat) : List Line → Nat
  | [] => best.1
  | q :: rest => firstMaxIndex (if best.2 < q.sats then (i, q.sats) else best) (i + 1) rest

def firstTop : List Line → Nat
  | [] => 0
  | q :: rest => firstMaxIndex (0, q.sats) 1 rest

def Line.add (sats : Nat) (q : Line) : Line := { q with sats := q.sats + sats }

/-- Give `distributable` to the largest payees in full, the dust to the first largest share. -/
def shareLargest (workOf : Identity → Nat) (maxPayees distributable : Nat) (payees : List Line) :
    List Line :=
  let kept := (payees.insertionSort (byWorkOf workOf)).take maxPayees
  let keptWork := (kept.map fun q => workOf q.identity).sum
  let shared := kept.map fun q =>
    { q with sats := distributable * workOf q.identity / max keptWork 1 }
  shared.modify (firstTop shared) (Line.add (distributable - (shared.map Line.sats).sum))

def capSheet (p : Params) (ids : List Entry) (value totalWork : Nat) (t : Sheet) : Sheet :=
  if 0 < p.maxPayees ∧ t.payees ≠ [] then
    let workOf := fun i => (dict (ids.map fun e => (e.identity, e.work)) i).getD 0
    let fee := value * t.feeNum / max totalWork 1 / 10000
    let distributable := value - fee
    { t with
      payees := shareLargest workOf p.maxPayees distributable t.payees
      paid := distributable
      fee := fee }
  else t

structure Till where
  payees : List Line
  paid : Nat
  room : Nat
  deriving DecidableEq

/-- Add to the first line of an identity, if it has one. -/
def hitLine (identity : Identity) (give : Nat) : List Line → Option (List Line)
  | [] => none
  | q :: rest =>
    if q.identity = identity then some (q.add give :: rest)
    else (hitLine identity give rest).map (q :: ·)

def payCarry (minPayout : Nat) (scriptOf : Identity → Option String) :
    List (Identity × Nat) → Till → Till
  | [], u => u
  | (identity, owed) :: rest, u =>
    if u.room = 0 then u
    else if owed = 0 then payCarry minPayout scriptOf rest u
    else
      let give := min owed u.room
      match hitLine identity give u.payees with
      | some payees => payCarry minPayout scriptOf rest ⟨payees, u.paid + give, u.room - give⟩
      | none =>
        if give < minPayout then payCarry minPayout scriptOf rest u
        else match scriptOf identity with
          | none => payCarry minPayout scriptOf rest u
          | some script =>
            payCarry minPayout scriptOf rest
              ⟨u.payees ++ [⟨identity, give, script⟩], u.paid + give, u.room - give⟩

def byKey (a b : Identity × Nat) : Prop := a.1 ≤ b.1

instance : DecidableRel byKey := fun a b => by unfold byKey; infer_instance

/-- The split recomputed from the snapshot's inputs. -/
def respend (snap : Doc) (totalWork : Nat) : Till :=
  let value := snap.coinbaseValue
  let scriptOf := dict (snap.split.payees.map fun q => (q.identity, q.script))
  let sheet := if 0 < totalWork then
      (snap.window.identities.insertionSort byRank).foldl
        (addEntry snap.params value totalWork scriptOf) ⟨[], 0, 0, 0⟩
    else ⟨[], 0, 0, 0⟩
  let capped := capSheet snap.params snap.window.identities value totalWork sheet
  payCarry snap.params.minPayout scriptOf (snap.carry.insertionSort byKey)
    ⟨capped.payees, capped.paid, value - capped.paid⟩

/-- The problems found, the payees and the pool's part. -/
def recompute (snap : Doc) : List String × List Line × Nat :=
  let totalWork := (snap.window.identities.map Entry.work).sum
  let totals := if totalWork ≠ snap.window.totalWork then
    ["window total_work " ++ toString snap.window.totalWork ++ " != sum of identities " ++
      toString totalWork] else []
  let till := respend snap totalWork
  let poolSats := snap.coinbaseValue - till.paid
  let payees := if till.payees.map (fun q => (q.identity, q.sats)) ≠
      snap.split.payees.map (fun q => (q.identity, q.sats)) then
    ["recomputed split != snapshot split.payees"] else []
  let pool := if poolSats ≠ snap.split.poolSats then
    ["pool_sats: recomputed " ++ toString poolSats ++ " vs snapshot " ++
      toString snap.split.poolSats] else []
  (totals ++ payees ++ pool, till.payees, poolSats)

end WaviclesPrime.Tools
