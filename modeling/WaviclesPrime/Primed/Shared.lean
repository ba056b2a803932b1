import WaviclesPrime.Lib.KeyMap
import WaviclesPrime.Lib.Utf8
import WaviclesPrime.Primed.Address
import WaviclesPrime.Tides.Tally
import WaviclesPrime.Wire.Verify

/-! Configuration, live controls, and what every session shares. -/
namespace WaviclesPrime.Primed
open Wire Machine Tides

/-- The settings the share path and the coinbaser path read. -/
structure Config where
  primeId : Nat
  window : Nat
  minPayout : Nat
  feeBps : Nat
  stratumFeeBps : Nat
  minDiff : Nat
  splitTolerance : Nat
  staleGraceSecs : Nat
  coinbaseTag : String
  maxConnections : Nat
  maxConnectionsPerIp : Nat
  sessionCoinbaseBudget : Nat
  commitSnapshot : Bool
  snapshotTag : String
  carryForward : Bool
  maxPayees : Nat
  deriving DecidableEq

def isPowerOfTwo (n : Nat) : Bool := n != 0 && n &&& (n - 1) == 0

/-- Zero means the same rate for everyone. -/
def Config.stratumInForce (c : Config) : Nat := if c.stratumFeeBps = 0 then c.feeBps else c.stratumFeeBps

/-- The checks on a parsed file, and the settings in force. -/
def Config.load (c : Config) : Except String Config :=
  if ! isPowerOfTwo c.minDiff then .error "min-diff must be a power of two"
  else if c.primeId = 0 then .error "prime-id must be nonzero"
  else if c.window = 0 then .error "window must be at least 1"
  else if 10000 < c.feeBps then .error "fee-bps cannot exceed 10000"
  else if 10000 < c.stratumInForce then .error "stratum-fee-bps cannot exceed 10000"
  else if 40 < c.snapshotTag.utf8ByteSize ∨
      c.snapshotTag.toList.any (fun ch => ch.toNat < 0x20 || 0x7f ≤ ch.toNat) then
    .error "snapshot-tag must be printable ASCII of at most 40 bytes"
  else if 32 < c.coinbaseTag.utf8ByteSize then .error "coinbase-tag is too long (32 bytes max)"
  else if c.maxConnections = 0 ∨ c.maxConnectionsPerIp = 0 then
    .error "max-connections and max-connections-per-ip must be at least 1"
  else if c.sessionCoinbaseBudget < 64 * 1024 then
    .error "session-coinbase-budget must be at least 65536 bytes (one huge coinbase class)"
  else .ok { c with stratumFeeBps := c.stratumInForce }

/-- Exponent of the smallest share difficulty, a power of two once loaded. -/
def Config.minPot (c : Config) : UInt8 := .ofNat (Nat.log2 c.minDiff)

/-- Validated live controls. -/
structure Controls where
  feeBps : Option Nat
  stratumFeeBps : Option Nat
  feeOverrides : OrdMap Identity Nat
  bannedIdentities : List Identity
  deriving DecidableEq

def Controls.none : Controls := ⟨.none, .none, .empty, []⟩

def Controls.identityBanned (c : Controls) (identity : Identity) : Bool :=
  c.bannedIdentities.contains identity

/-- Fees a controls file may hold. -/
structure Controls.Loaded (c : Controls) : Prop where
  fee : ∀ b ∈ c.feeBps, b ≤ 10000
  stratum : ∀ b ∈ c.stratumFeeBps, b ≤ 10000
  overrides : ∀ e ∈ c.feeOverrides.entries, e.2 ≤ 10000

structure Tip where
  height : Nat
  seenAt : Nat
  deriving DecidableEq

inductive Seen where
  | fresh
  | duplicate
  | full
  deriving DecidableEq, Repr

/-- Every share hash the pool has credited, by height. -/
structure SeenShares where
  byHeight : KeyMap UInt32 (List Bytes)
  total : Nat

namespace SeenShares

def maxPerHeight : Nat := 1000000
def maxTotal : Nat := 2500000

def empty : SeenShares := ⟨.empty, 0⟩

def insert (seen : SeenShares) (height : UInt32) (hash : Bytes) : SeenShares × Seen :=
  let set := (seen.byHeight.get height).getD []
  let opened := { seen with byHeight := seen.byHeight.insert height set }
  if hash ∈ set then (opened, .duplicate)
  else if maxPerHeight ≤ set.length ∨ maxTotal ≤ seen.total then (opened, .full)
  else (⟨seen.byHeight.insert height (hash :: set), seen.total + 1⟩, .fresh)

/-- Forget every height below `minHeight`. -/
def pruneBelow (seen : SeenShares) (minHeight : Nat) : Option SeenShares := do
  let gone := seen.byHeight.entries.filter fun e => e.1.toNat < minHeight
  let total ← checkedSub seen.total (gone.map fun e => e.2.length).sum
  some ⟨seen.byHeight.retain fun h => !decide (h.toNat < minHeight), total⟩

end SeenShares

structure Shared where
  cfg : Config
  poolScript : Bytes
  network : Network
  baseSplit : SplitParams
  controls : Controls
  tip : Option Tip
  seen : SeenShares

/-- The parameters a start-up derives from the configuration. -/
def baseSplit (cfg : Config) : SplitParams where
  feeBps := cfg.feeBps
  stratumFeeBps := cfg.stratumFeeBps
  minPayout := cfg.minPayout
  maxOutputs := 511
  outputBudgetBytes := 14000 - 9 - 64
  maxPayees := cfg.maxPayees
  feeOverrides := .empty

/-- The parameters in force right now. -/
def Shared.splitParams (sh : Shared) : SplitParams where
  feeBps := sh.controls.feeBps.getD sh.baseSplit.feeBps
  stratumFeeBps := sh.controls.stratumFeeBps.getD sh.baseSplit.stratumFeeBps
  minPayout := sh.baseSplit.minPayout
  maxOutputs := sh.baseSplit.maxOutputs
  outputBudgetBytes := sh.baseSplit.outputBudgetBytes
  maxPayees := sh.baseSplit.maxPayees
  feeOverrides := sh.controls.feeOverrides

/-- A check that goes through. -/
theorem ok_of_check {ε α : Type} {p : Prop} [Decidable p] {e : ε} {x : Except ε α} {a : α}
    (h : (if p then .error e else x) = .ok a) : ¬ p ∧ x = .ok a := by
  split at h
  next => cases h
  next hp => exact ⟨hp, h⟩

theorem Config.load_ok {c cfg : Config} (h : c.load = .ok cfg) :
    cfg.feeBps ≤ 10000 ∧ cfg.stratumFeeBps ≤ 10000 ∧ cfg.snapshotTag.utf8ByteSize ≤ 40 ∧
      cfg.snapshotTag.toList.all (fun ch => 0x20 ≤ ch.toNat && ch.toNat < 0x7f) := by
  obtain ⟨-, h⟩ := ok_of_check h
  obtain ⟨-, h⟩ := ok_of_check h
  obtain ⟨-, h⟩ := ok_of_check h
  obtain ⟨hfee, h⟩ := ok_of_check h
  obtain ⟨hstratum, h⟩ := ok_of_check h
  obtain ⟨htag, h⟩ := ok_of_check h
  obtain ⟨-, h⟩ := ok_of_check h
  obtain ⟨-, h⟩ := ok_of_check h
  obtain ⟨-, h⟩ := ok_of_check h
  obtain rfl := Except.ok.inj h
  rw [not_or] at htag
  refine ⟨Nat.le_of_not_lt hfee, Nat.le_of_not_lt hstratum, Nat.le_of_not_lt htag.1, ?_⟩
  simpa [List.any_eq_true, List.all_eq_true] using htag.2

theorem splitParams_bounded {sh : Shared} {cfg : Config} (hb : sh.baseSplit = baseSplit cfg)
    (hf : cfg.feeBps ≤ 10000) (hs : cfg.stratumFeeBps ≤ 10000) (hc : sh.controls.Loaded) :
    sh.splitParams.Bounded := by
  refine ⟨?_, ?_, hc.overrides⟩
  · cases hg : sh.controls.feeBps with
    | none => simpa [Shared.splitParams, hg, hb, baseSplit] using hf
    | some b => simpa [Shared.splitParams, hg] using hc.fee b (by simp [hg])
  · cases hg : sh.controls.stratumFeeBps with
    | none => simpa [Shared.splitParams, hg, hb, baseSplit] using hs
    | some b => simpa [Shared.splitParams, hg] using hc.stratum b (by simp [hg])

end WaviclesPrime.Primed
