import WaviclesPrime.Primed.Shared

/-! A gateway session: its job slots, the coinbasers it holds, and what a share does to them. -/
namespace WaviclesPrime.Primed
open Wire Machine Tides

def maxLiveSlots : Nat := 16

structure IssuedCoinbaser where
  id : UInt8
  value : Nat
  outputs : List Output
  payees : List Payee
  unpaid : List (Identity × Nat)
  carryPaid : List (Identity × Nat)
  snapshot : String
  deriving DecidableEq

structure Session where
  slots : UInt8 → JobSlot
  coinbaseBytes : Nat
  liveSlots : List UInt8
  coinbasers : List IssuedCoinbaser
  nextCoinbaserId : UInt8

inductive PowOutcome where
  | rejected (code : Reject)
  | accepted (identity : Identity) (v : VerifiedShare)

def allSlots : List UInt8 := (List.range 256).map UInt8.ofNat

namespace Session

def setSlot (ss : Session) (id : UInt8) (slot : JobSlot) : Session :=
  { ss with slots := fun i => if i = id then slot else ss.slots i }

def issued (ss : Session) (id : UInt8) : Option IssuedCoinbaser :=
  ss.coinbasers.reverse.find? fun c => c.id == id

def totalBytes (ss : Session) : Nat := (allSlots.map fun i => (ss.slots i).coinbaseBytes).sum

/-- Note that a slot started a new job, and evict the slots that have gone longest without one. -/
def touchSlot (ss : Session) (id : UInt8) : Session :=
  let live := ss.liveSlots.filter (· ≠ id) ++ [id]
  let excess := live.length - maxLiveSlots
  { ss with
    liveSlots := live.drop excess
    slots := fun i => if i ∈ live.take excess then (ss.slots i).evictSections else ss.slots i }

def dropCoinbase (ss : Session) (id : UInt8) : Option UInt8 → Session
  | none => ss
  | some added =>
    let before := (ss.slots id).coinbaseBytes
    let slot := (ss.slots id).forgetCoinbase added
    { ss.setSlot id slot with coinbaseBytes := ss.coinbaseBytes - (before - slot.coinbaseBytes) }

/-- Fold a share's sections into its slot and recount what the session holds. -/
def foldSections (ss : Session) (s : PowSubmit) : Session × Except Reject Absorbed :=
  let before := (ss.slots s.jobId).coinbaseBytes
  match (ss.slots s.jobId).absorb s with
  | (slot, .error code) => (ss.setSlot s.jobId slot, .error code)
  | (slot, .ok absorbed) =>
    let ss := ss.setSlot s.jobId slot
    if absorbed.jobChanged then
      let ss := ss.touchSlot s.jobId
      ({ ss with coinbaseBytes := ss.totalBytes }, .ok absorbed)
    else
      let held := satAdd sizeU64 (ss.coinbaseBytes - before) (ss.slots s.jobId).coinbaseBytes
      ({ ss with coinbaseBytes := held }, .ok absorbed)

end Session

section
variable (D : Decoders) (H : Digests) (sh : Shared)

def isAsciiGraphic (c : Char) : Bool := 0x21 ≤ c.toNat && c.toNat ≤ 0x7e

/-- The identity a share is credited to: a well-formed one, not banned, and payable. -/
def admitIdentity (username : String) : Option Identity :=
  let identity := canonicalIdentity D (identityOf username)
  if identity = "" ∨ 128 < identity.utf8ByteSize ∨ ¬ identity.toList.all isAsciiGraphic then none
  else if sh.controls.identityBanned identity then none
  else if (toScript D identity sh.network).isNone then none
  else some identity

/-- Shares for a height the tip has left behind, or is nowhere near, are stale. -/
def isStale (clock : Nat) (height : UInt32) : Option Bool :=
  match sh.tip with
  | none => some false
  | some tip => do
    let expected ← checkedAdd sizeU32 tip.height 1
    let ahead ← checkedAdd sizeU32 expected 1
    let grace := height.toNat + 1 == expected &&
      decide (clock - tip.seenAt < sh.cfg.staleGraceSecs * 1000000000)
    some (decide (ahead < height.toNat) || (decide (height.toNat < expected) && !grace))

/-- From a share whose sections are folded in, to its outcome. -/
def judgeShare (clock : Nat) (now : UInt32) (ss : Session) (identity : Identity) (s : PowSubmit) :
    Option (Shared × Session × PowOutcome) :=
  match (ss.slots s.jobId).job with
  | none => some (sh, ss, .rejected rejectBadJobId)
  | some job => do
    if ← isStale sh clock job.height then some (sh, ss, .rejected rejectStaleBlock)
    else
      let policy : Policy := {
        poolScript := sh.poolScript
        issued := (ss.issued job.coinbaserId).map IssuedCoinbaser.outputs
        tolerance := sh.cfg.splitTolerance
        now := now
        minPot := sh.cfg.minPot }
      let (slot, r) ← verify H (ss.slots s.jobId) s policy
      let ss := ss.setSlot s.jobId slot
      match r with
      | .error code => some (sh, ss, .rejected code)
      | .ok v =>
        match sh.seen.insert v.height v.hash with
        | (seen, .fresh) => some ({ sh with seen := seen }, ss, .accepted identity v)
        | (seen, .duplicate) => some ({ sh with seen := seen }, ss, .rejected rejectDuplicateWork)
        | (seen, .full) => some ({ sh with seen := seen }, ss, .rejected rejectOther)

def onPow (clock : Nat) (now : UInt32) (ss : Session) (s : PowSubmit) :
    Option (Shared × Session × PowOutcome) :=
  match admitIdentity D sh s.username with
  | none => some (sh, ss, .rejected rejectBadUsername)
  | some identity =>
    match ss.foldSections s with
    | (ss, .error code) => some (sh, ss, .rejected code)
    | (ss, .ok absorbed) =>
      if absorbed.coinbaseAdded.isSome ∧ sh.cfg.sessionCoinbaseBudget < ss.coinbaseBytes then
        some (sh, ss.dropCoinbase s.jobId absorbed.coinbaseAdded, .rejected rejectCoinbaseTooLarge)
      else judgeShare H sh clock now ss identity s

end
end WaviclesPrime.Primed
