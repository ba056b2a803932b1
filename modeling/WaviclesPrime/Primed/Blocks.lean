import WaviclesPrime.Primed.Coinbaser

/-! Block candidates: what a found block is recorded with. -/
namespace WaviclesPrime.Primed
open Wire Machine Tides

/-- What `sats` of a list issued for `issuedValue` come to in a template worth `value`. -/
def scale (sats value issuedValue : Nat) : Nat :=
  if issuedValue = 0 then sats else cast sizeU64 (sats * value / issuedValue)

def sumSats (es : List (Identity × Nat)) : Option Nat :=
  (es.map Prod.snd).foldlM (checkedAdd sizeU64) 0

/-- The coinbaser a job slot mines on, if it is still held. -/
def Session.jobCoinbaser (ss : Session) (job : UInt8) : Option IssuedCoinbaser :=
  (ss.slots job).job.bind fun j => ss.issued j.coinbaserId

/-- How a coinbase is booked: what it owes, the split it stands for, and what it adds to the
amounts no coinbase paid. -/
structure Books where
  kind : BlockKind
  owed : Nat
  split : List (Identity × Nat)
  added : List (Identity × Nat)
  deriving DecidableEq

/-- The payees a coinbase has no output for. -/
def droppedBy (cb : Coinbase) (payees : List Payee) : List (Identity × Nat) :=
  (payees.filter fun q => cb.paidTo q.script = 0).map Payee.amount

/-- The split a pool-only coinbase would have paid. -/
def scaledSplit (c : IssuedCoinbaser) (value : Nat) : List (Identity × Nat) :=
  c.payees.map fun q => (q.identity, scale q.sats value c.value)

section
variable (D : Decoders) (sh : Shared) (w : WindowView)

def booksOf (v : VerifiedShare) (issued : Option IssuedCoinbaser) : Option Books :=
  match v.coinbaseKind, issued with
  | .split, some c => some ⟨.split, 0, c.payees.map Payee.amount, []⟩
  | .split, none => some ⟨.split, 0, [], []⟩
  | .partialSplit _, some c => do
    let dropped := droppedBy v.coinbase c.payees
    let owed ← sumSats dropped
    some ⟨.partialSplit, owed, c.payees.map Payee.amount, dropped⟩
  | .poolOnly, some c => do
    let scaled := scaledSplit c v.coinbaseValue
    let owed ← sumSats scaled
    some ⟨.poolOnly, owed, scaled, scaled⟩
  | .poolOnly, none => do
    -- no coinbaser was issued for this job: split by the live window instead
    let s ← w.split v.coinbaseValue sh.splitParams (sh.scriptFor D)
    let list := s.payees.map Payee.amount
    let owed ← sumSats list
    some ⟨.poolOnly, owed, list, list⟩
  | .partialSplit _, none => some ⟨.unknown, 0, [], []⟩
  | .foreign, _ => some ⟨.unknown, 0, [], []⟩

/-- The record of a block candidate. -/
def onBlockCandidate (ss : Session) (s : PowSubmit) (v : VerifiedShare) (finder : Identity)
    (ts : Nat) (gateway : String) : Option BlockRecord := do
  let issued := ss.jobCoinbaser s.jobId
  let books ← booksOf D sh w v issued
  some {
    ts := ts
    height := v.height
    hash := Snapshot.hexEncode v.hash.reverse
    finder := some finder
    coinbaseValue := v.coinbaseValue
    kind := books.kind
    orphan := false
    owedSats := books.owed
    split := books.split
    poolSats := v.paidToPool
    settled := false
    submit := "pending"
    gateway := gateway
    unpaid := issued.elim [] IssuedCoinbaser.unpaid ++ books.added
    carryPaid := issued.elim [] IssuedCoinbaser.carryPaid
    snapshot := issued.elim "" IssuedCoinbaser.snapshot
    carried := false }

end

/-- The sums of a record's amounts that its settlement logs stay inside u64. -/
def SumsFit (r : BlockRecord) : Prop := given r.unpaid < sizeU64 ∧ given r.carryPaid < sizeU64

instance (r : BlockRecord) : Decidable (SumsFit r) := inferInstanceAs (Decidable (_ ∧ _))

/-- The ledger file once a block is settled: the carry it paid comes off, what it left unpaid goes on.
A sum that leaves u64 stops the settlement before the file is written. -/
def Shared.settleRecord (sh : Shared) (ledger : Carry) (r : BlockRecord) : Carry :=
  if sh.cfg.carryForward ∧ SumsFit r then ledger.applied r.carryPaid r.unpaid else ledger

section
variable {D : Decoders} {sh : Shared} {w : WindowView} {ss : Session} {s : PowSubmit}
  {v : VerifiedShare} {finder : Identity} {ts : Nat} {gateway : String} {r : BlockRecord}

theorem sumSats_eq_some {es : List (Identity × Nat)} {n : Nat} :
    sumSats es = some n ↔ given es < sizeU64 ∧ n = given es := by
  rw [sumSats, foldlM_checkedAdd _ _ _ (by decide), Nat.zero_add, eq_comm (a := n)]
  rfl

/-- A record is unsettled, and takes its carry from the coinbaser its job was built on. -/
theorem onBlockCandidate_record
    (h : onBlockCandidate D sh w ss s v finder ts gateway = some r) :
    r.settled = false ∧ r.carried = false ∧ r.poolSats = v.paidToPool ∧
      r.carryPaid = (ss.jobCoinbaser s.jobId).elim [] IssuedCoinbaser.carryPaid ∧
      ∃ books, booksOf D sh w v (ss.jobCoinbaser s.jobId) = some books ∧ r.unpaid =
        (ss.jobCoinbaser s.jobId).elim [] IssuedCoinbaser.unpaid ++ books.added := by
  simp only [onBlockCandidate, Option.bind_eq_bind, Option.bind_eq_some_iff, Option.some.injEq] at h
  obtain ⟨books, hb, rfl⟩ := h
  exact ⟨rfl, rfl, rfl, rfl, books, hb, rfl⟩

end
end WaviclesPrime.Primed
