import WaviclesPrime.Primed.Shared
import WaviclesPrime.Tides.Miners

/-! The window snapshot a coinbaser commits to: what the split was computed from, and the split. -/
namespace WaviclesPrime.Primed
open Wire Machine Tides

/-- What a window shows of itself: every miner once, ranked, their work adding up to the total. -/
structure WindowView where
  targetWork : Nat
  totalWork : Nat
  miners : List MinerStat
  ranked : miners.Pairwise rankedBefore
  distinct : (miners.map MinerStat.identity).Nodup
  total : (miners.map MinerStat.work).sum = totalWork
  fits : totalWork < sizeU64

def WindowView.splitWithCarry (w : WindowView) (value : Nat) (p : SplitParams)
    (carry : OrdMap Identity Nat) (scriptFor : Identity → Option Bytes) : Option Split :=
  computeWithCarry w.miners w.totalWork value p carry scriptFor

def WindowView.split (w : WindowView) (value : Nat) (p : SplitParams)
    (scriptFor : Identity → Option Bytes) : Option Split :=
  compute w.miners w.totalWork value p scriptFor

theorem WindowView.input (w : WindowView) {value : Nat} {p : SplitParams} (hp : p.Bounded)
    (hv : value < sizeU64) : SplitInput w.miners w.totalWork value p := ⟨hp, w.total, w.fits, hv⟩

/-- Every window that calls with less than a word of work lead to shows itself so. -/
theorem exists_view {ops : List WindowOp} (hwork : credited ops < sizeU64) :
    ∃ v : WindowView, (Window.new.run ops).miners = some v.miners ∧
      v.totalWork = (Window.new.run ops).totalWork ∧ v.targetWork = (Window.new.run ops).targetWork := by
  have hzero : Queue.total rowWork Window.new.credits = 0 := rfl
  obtain ⟨h, hle⟩ := Window.Sound.new.run ops (by omega)
  obtain ⟨ms, hms, hlists⟩ := h.miners (by omega)
  have hfits : (Window.new.run ops).totalWork < sizeU64 := by
    rw [h.total]
    omega
  exact ⟨⟨_, _, ms, hlists.ranked, hlists.distinct, hlists.total, hfits⟩, hms, rfl, rfl⟩

namespace Snapshot

/-- Version 2 added the per-identity fees. -/
def version : Nat := 2

def rule : String :=
  "sats_i = value * work_i * (10000 - bps_i) / total_work / 10000 (floor) where bps_i = fee_overrides[identity] if present, else stratum_fee_bps for stratum_work and fee_bps for the rest; payees largest work first; carry paid from the remainder above the fee, by identity name; pool = value - sum(paid)"

structure Params where
  feeBps : Nat
  stratumFeeBps : Nat
  minPayout : Nat
  maxOutputs : Nat
  outputBudgetBytes : Nat
  maxPayees : Nat
  feeOverrides : List (Identity × Nat)
  rule : String
  deriving DecidableEq

structure Entry where
  identity : Identity
  work : Nat
  stratumWork : Nat
  deriving DecidableEq

structure PaidOutput where
  identity : Identity
  work : Nat
  sats : Nat
  script : String
  deriving DecidableEq

structure UnpaidEntry where
  identity : Identity
  sats : Nat
  reason : String
  deriving DecidableEq

structure SplitDoc where
  feeSats : Nat
  payees : List PaidOutput
  carryPaid : List (Identity × Nat)
  unpaid : List UnpaidEntry
  poolSats : Nat
  deriving DecidableEq

structure WindowDoc where
  targetWork : Nat
  totalWork : Nat
  identities : List Entry
  deriving DecidableEq

/-- The published document. -/
structure Doc where
  v : Nat
  tag : String
  height : Nat
  prevhash : String
  ts : Nat
  coinbaseValue : Nat
  params : Params
  window : WindowDoc
  carry : List (Identity × Nat)
  split : SplitDoc
  deriving DecidableEq

def hexDigit (n : Nat) : Char := if n < 10 then .ofNat (48 + n) else .ofNat (87 + n)

def hexEncode (bytes : Bytes) : String :=
  String.ofList (bytes.flatMap fun b => [hexDigit (b.toNat / 16), hexDigit (b.toNat % 16)])

def reasonName : UnpaidReason → String
  | .noScript => "NoScript"
  | .belowMinimum => "BelowMinimum"
  | .overBudget => "OverBudget"
  | .belowCut => "BelowCut"

def entryOf (m : MinerStat) : Entry := ⟨m.identity, m.work, m.stratumWork⟩

def byName (a b : Entry) : Prop := a.identity ≤ b.identity

instance : DecidableRel byName := fun a b => by unfold byName; infer_instance

def paramsOf (p : SplitParams) : Params where
  feeBps := p.feeBps
  stratumFeeBps := p.stratumFeeBps
  minPayout := p.minPayout
  maxOutputs := p.maxOutputs
  outputBudgetBytes := p.outputBudgetBytes
  maxPayees := p.maxPayees
  feeOverrides := p.feeOverrides.entries
  rule := rule

def paidOutputOf (q : Payee) : PaidOutput := ⟨q.identity, q.work, q.sats, hexEncode q.script⟩

def splitOf (s : Split) : SplitDoc where
  feeSats := s.feeSats
  payees := s.payees.map paidOutputOf
  carryPaid := s.carryPaid
  unpaid := s.unpaid.map fun e => ⟨e.1, e.2.1, reasonName e.2.2⟩
  poolSats := s.poolSats

def build (tag : String) (height : Nat) (prevhash : String) (ts value : Nat) (p : SplitParams)
    (w : WindowView) (carry : OrdMap Identity Nat) (s : Split) : Doc where
  v := version
  tag := tag
  height := height
  prevhash := prevhash
  ts := ts
  coinbaseValue := value
  params := paramsOf p
  window := ⟨w.targetWork, w.totalWork, (w.miners.map entryOf).insertionSort byName⟩
  carry := carry.entries
  split := splitOf s

/-- `OP_RETURN <push tag||hash>`, one push of the tag and the 32-byte hash. -/
def opReturn (hash : Hash) (tag : String) : Bytes :=
  let data := asBytes tag ++ hash.toList
  [0x6a, UInt8.ofNat data.length] ++ data

theorem length_opReturn (hash : Hash) (tag : String) :
    (opReturn hash tag).length = tag.utf8ByteSize + 34 := by
  simp [opReturn]

end Snapshot
end WaviclesPrime.Primed
