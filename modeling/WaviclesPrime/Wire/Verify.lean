import WaviclesPrime.Wire.Classify
import WaviclesPrime.Wire.Pow
import WaviclesPrime.Wire.Slot

/-! Pool-side share verification. `none` is a stop on an arithmetic check. -/
namespace WaviclesPrime.Wire
open Machine

def maxTimeAhead : Nat := 7200
def maxTimeBehind : Nat := 3600

structure VerifiedShare where
  hash : Bytes
  work : Nat
  targetPot : UInt8
  height : UInt32
  ntime : UInt32
  isBlockCandidate : Bool
  coinbaseKind : CoinbaseKind
  coinbaseValue : Nat
  paidToPool : Nat
  commitment : Commitment
  coinbaseLegacy : Bytes
  coinbase : Coinbase
  deriving DecidableEq

structure Policy where
  poolScript : Bytes
  issued : Option (List Output)
  tolerance : Nat
  now : UInt32
  minPot : UInt8
  deriving DecidableEq

def PowSubmit.headerFlags (s : PowSubmit) : UInt8 := if s.useTimeOffset then flagUseTimeOffset else 0

/-- The coinbase of a share on a job, before any cache. -/
def buildCoinbase (job : JobSection) (sect : CoinbaseSection) (pot : UInt8) :
    Except Reject (Bytes × Coinbase) :=
  let legacy := assemble sect.coinb1 sect.coinb2 job.targetByteIndex.toNat pot
  match parse legacy with
  | .error _ => .error rejectBadCoinbase
  | .ok parsed =>
    if parsed.height.any (· != job.height) then .error rejectBadJobId
    else .ok (legacy, parsed)

/-- The coinbase of a share, built once per coinbase id and target byte. -/
def JobSlot.openCoinbase (slot : JobSlot) (job : JobSection) (s : PowSubmit) :
    JobSlot × Except Reject (Bytes × Coinbase) :=
  let key := (coinbaseIdFor s, s.targetPot)
  match slot.cbCache.get key with
  | some found => (slot, .ok found)
  | none =>
    match slot.coinbases.get (coinbaseIdFor s) with
    | none => (slot, .error rejectCoinbaseMissing)
    | some sect =>
      match buildCoinbase job sect s.targetPot with
      | .error code => (slot, .error code)
      | .ok built =>
        ({ slot with cbCache :=
            (if maxCbCache ≤ slot.cbCache.size then .empty else slot.cbCache).insert key built },
          .ok built)

/-- What one attempt at a header is made of. -/
structure Attempt where
  share : PowSubmit
  b2 : Blake2bSection
  job : JobSection
  legacy : Bytes
  timeOnWire : UInt32
  target : Bytes

namespace Attempt
variable (H : Digests) (a : Attempt)

def merkleRoot : Hash := Wire.merkleRoot H (sha256d H a.legacy) a.job.merkleBranches

/-- The job section's count leaves the coinbase out, except where a gateway counts it already. -/
def txcount (includes : Bool) : UInt32 := if includes then a.job.txnCount else a.job.txnCount + 1

def commitment (includes : Bool) (root : Hash) : Commitment where
  version := a.share.version
  prevHash := a.job.prevHash
  height := a.job.height
  merkleRoot := root
  timeOnWire := a.timeOnWire
  nbits := a.job.nbitsU32
  txcount := a.txcount includes
  flags := a.share.headerFlags
  xorClearBits := 0
  xorKey := zeros 16
  rhs := zeros 32

def key (includes : Bool) : H2Key :=
  (coinbaseIdFor a.share, a.share.targetPot, a.txcount includes, a.share.version)

def hash (h2 : Hash) : Bytes :=
  let root := workRoot H h2 a.share.extranonce
  let work := workHeader (siaPrevhash H a.job.prevHash) a.b2.nonce a.b2.ntime root
  powHashLe H work (zeros 16) 0

/-- One reading of the transaction count, with the commitment hash taken from the cache if there. -/
def tryConvention (slot : JobSlot) (includes : Bool) :
    JobSlot × Option (Commitment × Bytes × Bool) :=
  let (c, h2) := match slot.h2Cache.get (a.key includes) with
    | some h => (a.commitment includes (zeros 32), h)
    | none =>
      let c := a.commitment includes (a.merkleRoot H)
      (c, c.h2 H)
  if meetsTarget (a.hash H h2) a.target then
    ({ slot with h2Cache :=
        (if maxH2Cache ≤ slot.h2Cache.size then .empty else slot.h2Cache).insert (a.key includes) h2 },
      some (c, a.hash H h2, includes))
  else (slot, none)

def tryConventions (slot : JobSlot) : List Bool → JobSlot × Option (Commitment × Bytes × Bool)
  | [] => (slot, none)
  | includes :: rest =>
    match a.tryConvention H slot includes with
    | (slot, some chosen) => (slot, some chosen)
    | (slot, none) => tryConventions slot rest

/-- A commitment that came from the cache gets its merkle root back. -/
def patch (c : Commitment) : Commitment :=
  if c.merkleRoot = zeros 32 then { c with merkleRoot := a.merkleRoot H } else c

end Attempt

/-- The conventions to try: both until a share pinned one. -/
def conventions : Option Bool → List Bool
  | some pinned => [pinned]
  | none => [false, true]

def badTime (p : Policy) (ntime : UInt32) : Bool :=
  p.now != 0 && (satAdd sizeU32 p.now.toNat maxTimeAhead < ntime.toNat ||
    satAdd sizeU32 ntime.toNat maxTimeBehind < p.now.toNat)

def verifiedShare (H : Digests) (a : Attempt) (p : Policy) (kind : CoinbaseKind) (parsed : Coinbase)
    (chosen : Commitment × Bytes × Bool) : VerifiedShare :=
  let c := a.patch H chosen.1
  { hash := chosen.2.1
    work := a.share.claimedWork
    targetPot := a.share.targetPot
    height := a.job.height
    ntime := shareNtime a.timeOnWire a.b2.ntime a.share.headerFlags
    isBlockCandidate := (nbitsToTargetLe c.nbits).any (meetsTarget chosen.2.1)
    coinbaseKind := kind
    coinbaseValue := parsed.totalOutputValue
    paidToPool := parsed.paidTo p.poolScript
    commitment := c
    coinbaseLegacy := a.legacy
    coinbase := parsed }

/-- The checks on a share whose coinbase is open. -/
def checkShare (H : Digests) (slot : JobSlot) (a : Attempt) (parsed : Coinbase) (p : Policy) :
    Option (JobSlot × Except Reject VerifiedShare) := do
  let kind ← classifyCoinbase parsed p.poolScript p.issued p.tolerance
  if kind = .foreign then some (slot, .error rejectBadCoinbaseOutputs)
  else if badTime p (shareNtime a.timeOnWire a.b2.ntime a.share.headerFlags) then
    some (slot, .error rejectBadNtime)
  else
    match a.tryConventions H slot (conventions slot.txcountIncludesCoinbase) with
    | (slot, none) => some (slot, .error rejectHighHash)
    | (slot, some chosen) =>
      some ({ slot with txcountIncludesCoinbase := some chosen.2.2 },
        .ok (verifiedShare H a p kind parsed chosen))

def verifyWithTarget (H : Digests) (slot : JobSlot) (s : PowSubmit) (p : Policy) (target : Bytes) :
    Option (JobSlot × Except Reject VerifiedShare) :=
  if !s.isBlake2b then some (slot, .error rejectBadVersion)
  else match s.blake2b, s.timeOnWire, slot.job with
    | none, _, _ => some (slot, .error rejectBadVersion)
    | some _, none, _ => some (slot, .error rejectBadNtime)
    | some _, some _, none => some (slot, .error rejectBadJobId)
    | some b2, some timeOnWire, some job =>
      match slot.openCoinbase job s with
      | (slot, .error code) => some (slot, .error code)
      | (slot, .ok (legacy, parsed)) =>
        checkShare H slot ⟨s, b2, job, legacy, timeOnWire, target⟩ parsed p

/-- Rebuild the header from the share and check the work and the coinbase. -/
def verify (H : Digests) (slot : JobSlot) (s : PowSubmit) (p : Policy) :
    Option (JobSlot × Except Reject VerifiedShare) :=
  if s.targetPot < p.minPot then some (slot, .error rejectBadTarget)
  else match shareTargetLe s.targetPot with
    | none => some (slot, .error rejectBadTarget)
    | some target => verifyWithTarget H slot s p target

/-- What an accepted share says of its coinbase: how it was classified, and what it is worth. -/
structure VerifiedShare.Judged (v : VerifiedShare) (poolScript : Bytes) (issued : Option (List Output))
    (tolerance : Nat) : Prop where
  kind : classifyCoinbase v.coinbase poolScript issued tolerance = some v.coinbaseKind
  known : v.coinbaseKind ≠ .foreign
  value : v.coinbaseValue = v.coinbase.totalOutputValue
  pool : v.paidToPool = v.coinbase.paidTo poolScript

section
variable {H : Digests} {slot next : JobSlot} {p : Policy} {v : VerifiedShare}
  {r : Except Reject VerifiedShare}

/-- A reading of the header is under the target, with its commitment hash then cached, or it is not. -/
theorem Attempt.tryConvention_cases (a : Attempt) {includes : Bool} {found : Option (Commitment × Bytes × Bool)}
    (run : a.tryConvention H slot includes = (next, found)) :
    (next = slot ∧ found = none) ∨
    ∃ c h2, next = { slot with h2Cache :=
        (if maxH2Cache ≤ slot.h2Cache.size then .empty else slot.h2Cache).insert (a.key includes) h2 } ∧
      found = some (c, a.hash H h2, includes) ∧ meetsTarget (a.hash H h2) a.target ∧
      (slot.h2Cache.get (a.key includes) = some h2 ∧ c = a.commitment includes (zeros 32) ∨
        slot.h2Cache.get (a.key includes) = none ∧ c = a.commitment includes (a.merkleRoot H) ∧
          h2 = c.h2 H) := by
  unfold Attempt.tryConvention at run
  cases hget : slot.h2Cache.get (a.key includes) with
  | some h2 =>
    rw [hget] at run
    dsimp only at run
    split at run
    next hmet =>
      obtain ⟨rfl, rfl⟩ := Prod.mk.inj run
      exact .inr ⟨_, h2, rfl, rfl, hmet, .inl ⟨rfl, rfl⟩⟩
    next =>
      obtain ⟨rfl, rfl⟩ := Prod.mk.inj run
      exact .inl ⟨rfl, rfl⟩
  | none =>
    rw [hget] at run
    dsimp only at run
    split at run
    next hmet =>
      obtain ⟨rfl, rfl⟩ := Prod.mk.inj run
      exact .inr ⟨_, _, rfl, rfl, hmet, .inr ⟨rfl, rfl, rfl⟩⟩
    next =>
      obtain ⟨rfl, rfl⟩ := Prod.mk.inj run
      exact .inl ⟨rfl, rfl⟩

/-- The readings are tried in order on the slot as it is, until one is under the target. -/
theorem Attempt.tryConventions_found (a : Attempt) {order : List Bool} {chosen : Commitment × Bytes × Bool}
    (run : a.tryConventions H slot order = (next, some chosen)) :
    ∃ before includes after, order = before ++ includes :: after ∧
      (∀ i ∈ before, (a.tryConvention H slot i).2 = none) ∧
      a.tryConvention H slot includes = (next, some chosen) := by
  induction order with
  | nil => cases (Prod.mk.inj run).2
  | cons includes rest ih =>
    unfold Attempt.tryConventions at run
    split at run
    next mid chosen' hone =>
      obtain ⟨rfl, hchosen⟩ := Prod.mk.inj run
      exact ⟨[], includes, rest, rfl, nofun, hchosen ▸ hone⟩
    next mid hone =>
      rcases a.tryConvention_cases hone with ⟨rfl, -⟩ | ⟨_, _, -, hsome, -⟩
      · obtain ⟨before, i, after, rfl, hbefore, hfound⟩ := ih run
        exact ⟨includes :: before, i, after, rfl, List.forall_mem_cons.mpr ⟨congrArg Prod.snd hone, hbefore⟩, hfound⟩
      · cases hsome

/-- A check of an open share refuses it before any hashing, or finds no reading of its header under the
target, or accepts it under one. -/
theorem checkShare_cases {a : Attempt} {parsed : Coinbase} (run : checkShare H slot a parsed p = some (next, r)) :
    (next = slot ∧ ∃ code, r = .error code) ∨
    (a.tryConventions H slot (conventions slot.txcountIncludesCoinbase) = (next, none) ∧
      ∃ code, r = .error code) ∨
    ∃ kind mid chosen, classifyCoinbase parsed p.poolScript p.issued p.tolerance = some kind ∧
      kind ≠ .foreign ∧
      a.tryConventions H slot (conventions slot.txcountIncludesCoinbase) = (mid, some chosen) ∧
      next = { mid with txcountIncludesCoinbase := some chosen.2.2 } ∧
      r = .ok (verifiedShare H a p kind parsed chosen) := by
  simp only [checkShare, Option.bind_eq_bind, Option.bind_eq_some_iff] at run
  obtain ⟨kind, hkind, run⟩ := run
  split at run
  next =>
    obtain ⟨rfl, rfl⟩ := Prod.mk.inj (Option.some.inj run)
    exact .inl ⟨rfl, _, rfl⟩
  next hknown =>
    split at run
    next =>
      obtain ⟨rfl, rfl⟩ := Prod.mk.inj (Option.some.inj run)
      exact .inl ⟨rfl, _, rfl⟩
    next =>
      split at run
      next mid htry =>
        obtain ⟨rfl, rfl⟩ := Prod.mk.inj (Option.some.inj run)
        exact .inr (.inl ⟨htry, _, rfl⟩)
      next mid chosen htry =>
        obtain ⟨rfl, rfl⟩ := Prod.mk.inj (Option.some.inj run)
        exact .inr (.inr ⟨kind, mid, chosen, hkind, hknown, htry, rfl, rfl⟩)

/-- A verification refuses a share for what it lacks, or for its coinbase, or goes on to check it. -/
theorem verifyWithTarget_cases {s : PowSubmit} {target : Bytes}
    (run : verifyWithTarget H slot s p target = some (next, r)) :
    (next = slot ∧ ∃ code, r = .error code) ∨
    ∃ b2 timeOnWire job, s.blake2b = some b2 ∧ s.timeOnWire = some timeOnWire ∧ slot.job = some job ∧
      ((∃ code, slot.openCoinbase job s = (next, .error code) ∧ r = .error code) ∨
        ∃ mid legacy parsed, slot.openCoinbase job s = (mid, .ok (legacy, parsed)) ∧
          checkShare H mid ⟨s, b2, job, legacy, timeOnWire, target⟩ parsed p = some (next, r)) := by
  unfold verifyWithTarget at run
  split at run
  next =>
    obtain ⟨rfl, rfl⟩ := Prod.mk.inj (Option.some.inj run)
    exact .inl ⟨rfl, _, rfl⟩
  next =>
    split at run
    next =>
      obtain ⟨rfl, rfl⟩ := Prod.mk.inj (Option.some.inj run)
      exact .inl ⟨rfl, _, rfl⟩
    next =>
      obtain ⟨rfl, rfl⟩ := Prod.mk.inj (Option.some.inj run)
      exact .inl ⟨rfl, _, rfl⟩
    next =>
      obtain ⟨rfl, rfl⟩ := Prod.mk.inj (Option.some.inj run)
      exact .inl ⟨rfl, _, rfl⟩
    next b2 timeOnWire job hb ht hj =>
      refine .inr ⟨b2, timeOnWire, job, hb, ht, hj, ?_⟩
      split at run
      next mid code hopen =>
        obtain ⟨rfl, rfl⟩ := Prod.mk.inj (Option.some.inj run)
        exact .inl ⟨code, hopen, rfl⟩
      next mid legacy parsed hopen => exact .inr ⟨mid, legacy, parsed, hopen, run⟩

/-- What a share claims is checked before the rest of it. -/
theorem verify_cases {s : PowSubmit} (run : verify H slot s p = some (next, r)) :
    (next = slot ∧ ∃ code, r = .error code) ∨
    ∃ target, p.minPot ≤ s.targetPot ∧ shareTargetLe s.targetPot = some target ∧
      verifyWithTarget H slot s p target = some (next, r) := by
  unfold verify at run
  split at run
  next =>
    obtain ⟨rfl, rfl⟩ := Prod.mk.inj (Option.some.inj run)
    exact .inl ⟨rfl, _, rfl⟩
  next hpot =>
    split at run
    next =>
      obtain ⟨rfl, rfl⟩ := Prod.mk.inj (Option.some.inj run)
      exact .inl ⟨rfl, _, rfl⟩
    next target htarget => exact .inr ⟨target, UInt8.not_lt.mp hpot, htarget, run⟩

/-- An accepted share was open, and some reading of its header met the target. -/
structure Proven (H : Digests) (slot : JobSlot) (s : PowSubmit) (p : Policy) (threshold : Bytes) (a : Attempt)
    (mid found : JobSlot) (parsed : Coinbase) (kind : CoinbaseKind) (reading : Commitment × Bytes × Bool) :
    Prop where
  share : a.share = s
  blake2b : s.blake2b = some a.b2
  timeOnWire : s.timeOnWire = some a.timeOnWire
  job : slot.job = some a.job
  target : a.target = threshold
  opened : slot.openCoinbase a.job s = (mid, .ok (a.legacy, parsed))
  classified : classifyCoinbase parsed p.poolScript p.issued p.tolerance = some kind
  known : kind ≠ CoinbaseKind.foreign
  met : a.tryConventions H mid (conventions mid.txcountIncludesCoinbase) = (found, some reading)

theorem verifyWithTarget_ok {s : PowSubmit} {target : Bytes}
    (run : verifyWithTarget H slot s p target = some (next, .ok v)) :
    ∃ a mid found parsed kind chosen, Proven H slot s p target a mid found parsed kind chosen ∧
      v = verifiedShare H a p kind parsed chosen := by
  rcases verifyWithTarget_cases run with
    ⟨-, code, hcode⟩ | ⟨b2, timeOnWire, job, hb, ht, hj, ⟨code, -, hcode⟩ | ⟨mid, legacy, parsed, hopen, run⟩⟩
  · cases hcode
  · cases hcode
  · rcases checkShare_cases run with
      ⟨-, code, hcode⟩ | ⟨-, code, hcode⟩ | ⟨kind, found, chosen, hkind, hknown, htry, -, hv⟩
    · cases hcode
    · cases hcode
    · have hproven : Proven H slot s p target ⟨s, b2, job, legacy, timeOnWire, target⟩ mid found parsed kind
          chosen := {
        share := rfl
        blake2b := hb
        timeOnWire := ht
        job := hj
        target := rfl
        opened := hopen
        classified := hkind
        known := hknown
        met := htry }
      exact ⟨_, mid, found, parsed, kind, chosen, hproven, Except.ok.inj hv⟩

theorem verify_ok {s : PowSubmit} (run : verify H slot s p = some (next, .ok v)) :
    ∃ target a mid found parsed kind chosen, p.minPot ≤ s.targetPot ∧
      shareTargetLe s.targetPot = some target ∧ Proven H slot s p target a mid found parsed kind chosen ∧
      v = verifiedShare H a p kind parsed chosen := by
  rcases verify_cases run with ⟨-, code, hcode⟩ | ⟨target, hpot, htarget, run⟩
  · cases hcode
  · obtain ⟨a, mid, found, parsed, kind, chosen, h, hv⟩ := verifyWithTarget_ok run
    exact ⟨target, a, mid, found, parsed, kind, chosen, hpot, htarget, h, hv⟩

theorem verify_judged {s : PowSubmit} (run : verify H slot s p = some (next, .ok v)) :
    v.Judged p.poolScript p.issued p.tolerance := by
  obtain ⟨_, _, _, _, _, _, _, -, -, h, rfl⟩ := verify_ok run
  exact ⟨h.classified, h.known, rfl, rfl⟩

/-- An accepted share is for the height of its slot's job. -/
theorem verify_height {s : PowSubmit} (run : verify H slot s p = some (next, .ok v)) :
    ∃ job, slot.job = some job ∧ v.height = job.height := by
  obtain ⟨_, a, _, _, _, _, _, -, -, h, rfl⟩ := verify_ok run
  exact ⟨a.job, h.job, rfl⟩

end
end WaviclesPrime.Wire
