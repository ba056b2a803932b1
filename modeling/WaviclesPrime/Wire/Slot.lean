import WaviclesPrime.Lib.KeyMap
import WaviclesPrime.Wire.Coinbase
import WaviclesPrime.Wire.Mining

/-! A gateway's job slot as Prime remembers it for a session. -/
namespace WaviclesPrime.Wire

def maxCoinbaseSectionBytes : Nat := 20000
def maxCoinbasesPerSlot : Nat := 8
def maxCbCache : Nat := 32
def maxH2Cache : Nat := 64

structure Absorbed where
  jobChanged : Bool
  coinbaseAdded : Option UInt8
  deriving DecidableEq, Repr

abbrev CbKey := UInt8 × UInt8
abbrev H2Key := UInt8 × UInt8 × UInt32 × UInt32

structure JobSlot where
  job : Option JobSection
  coinbases : KeyMap UInt8 CoinbaseSection
  h2Cache : KeyMap H2Key Hash
  cbCache : KeyMap CbKey (Bytes × Coinbase)
  txcountIncludesCoinbase : Option Bool

def JobSlot.default : JobSlot := ⟨none, .empty, .empty, .empty, none⟩

def CoinbaseSection.size (c : CoinbaseSection) : Nat := c.coinb1.length + c.coinb2.length

def coinbaseIdFor (s : PowSubmit) : UInt8 := if s.subsidyOnly then 0xff else s.coinbaseId

namespace JobSlot

/-- A job section starts a fresh slot unless it repeats the slot's job. -/
def takeJob (slot : JobSlot) : Option JobSection → JobSlot × Bool
  | none => (slot, false)
  | some j =>
    if slot.job = some j then (slot, false)
    else (⟨some j, .empty, .empty, .empty, none⟩, true)

def dropDerived (slot : JobSlot) (id : UInt8) : JobSlot :=
  { slot with
    h2Cache := slot.h2Cache.retain fun k => k.1 != id
    cbCache := slot.cbCache.retain fun k => k.1 != id }

/-- A coinbase section is stored unless it repeats what is held, or would be one id too many. -/
def takeCoinbase (slot : JobSlot) : Option CoinbaseSection → JobSlot × Except Reject (Option UInt8)
  | none => (slot, .ok none)
  | some c =>
    if slot.coinbases.get c.coinbaseId = some c then (slot, .ok none)
    else if slot.coinbases.get c.coinbaseId = none ∧ maxCoinbasesPerSlot ≤ slot.coinbases.size then
      (slot, .error rejectBadCoinbaseId)
    else
      ({ slot with coinbases := slot.coinbases.insert c.coinbaseId c }.dropDerived c.coinbaseId,
        .ok (some c.coinbaseId))

def tooLarge (s : PowSubmit) : Bool := s.coinbase.any fun c => maxCoinbaseSectionBytes < c.size

/-- Fold a share's optional sections into the slot. -/
def absorb (slot : JobSlot) (s : PowSubmit) : JobSlot × Except Reject Absorbed :=
  if tooLarge s then (slot, .error rejectCoinbaseTooLarge)
  else
    let (slot, jobChanged) := slot.takeJob s.job
    match slot.takeCoinbase s.coinbase with
    | (slot, .error code) => (slot, .error code)
    | (slot, .ok added) => (slot, .ok ⟨jobChanged, added⟩)

theorem absorb_fst (slot : JobSlot) (s : PowSubmit) : (slot.absorb s).1 =
    if tooLarge s then slot else ((slot.takeJob s.job).1.takeCoinbase s.coinbase).1 := by
  unfold absorb
  split
  · rfl
  · dsimp only
    split <;> simp_all

def forgetCoinbase (slot : JobSlot) (id : UInt8) : JobSlot :=
  { slot with coinbases := slot.coinbases.erase id }.dropDerived id

def evictSections (slot : JobSlot) : JobSlot :=
  { slot with coinbases := .empty, h2Cache := .empty, cbCache := .empty }

def coinbaseBytes (slot : JobSlot) : Nat := (slot.coinbases.entries.map fun e => e.2.size).sum

/-- A property of a slot that starting a job gives it, and that changing one section keeps when what
was derived from the section is dropped. -/
structure Kept (P : JobSlot → Prop) : Prop where
  fresh : ∀ j, P ⟨some j, .empty, .empty, .empty, none⟩
  replace : ∀ {slot : JobSlot} {id : UInt8} {coinbases : KeyMap UInt8 CoinbaseSection}, P slot →
    (∀ k, k ≠ id → coinbases.get k = slot.coinbases.get k) →
    P ({ slot with coinbases := coinbases }.dropDerived id)

namespace Kept
variable {P : JobSlot → Prop} {slot : JobSlot}

theorem takeJob (hP : Kept P) (h : P slot) (j : Option JobSection) : P (slot.takeJob j).1 := by
  cases j with
  | none => exact h
  | some j =>
    by_cases hj : slot.job = some j
    · rwa [JobSlot.takeJob, if_pos hj]
    · rw [JobSlot.takeJob, if_neg hj]
      exact hP.fresh j

theorem takeCoinbase (hP : Kept P) (h : P slot) (c : Option CoinbaseSection) : P (slot.takeCoinbase c).1 := by
  cases c with
  | none => exact h
  | some c =>
    by_cases hsame : slot.coinbases.get c.coinbaseId = some c
    · rwa [JobSlot.takeCoinbase, if_pos hsame]
    · rw [JobSlot.takeCoinbase, if_neg hsame]
      split
      · exact h
      · exact hP.replace h fun k hk => by simp [hk]

theorem absorb (hP : Kept P) (h : P slot) (s : PowSubmit) : P (slot.absorb s).1 := by
  rw [JobSlot.absorb_fst]
  split
  · exact h
  · exact hP.takeCoinbase (hP.takeJob h s.job) s.coinbase

theorem forgetCoinbase (hP : Kept P) (h : P slot) (id : UInt8) : P (slot.forgetCoinbase id) :=
  hP.replace h fun k hk => by simp [hk]

end Kept

/-- The same sections and convention with nothing derived from them yet. -/
def uncached (slot : JobSlot) : JobSlot := { slot with h2Cache := .empty, cbCache := .empty }

end JobSlot
end WaviclesPrime.Wire
