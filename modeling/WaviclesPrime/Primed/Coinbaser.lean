import WaviclesPrime.Primed.Session
import WaviclesPrime.Primed.Snapshot
import WaviclesPrime.Tides.Accounting
import WaviclesPrime.Tides.Carry

/-! A coinbaser request: the list Prime issues, what it remembers of it, and what it sends. -/
namespace WaviclesPrime.Primed
open Wire Machine Tides

def coinbasersKept : Nat := 16

/-- Ids go round from 1 to 255. -/
def nextId (id : UInt8) : UInt8 := if id = 255 then 1 else id + 1

def outputOf (q : Payee) : Output := ⟨q.sats, q.script⟩

/-- The list a coinbaser holds: commitment, payees, and the pool's own output last. -/
def issueOutputs (poolScript : Bytes) (commit : List Bytes) (s : Split) : List Output :=
  let outputs := commit.map (⟨0, ·⟩) ++ s.payees.map outputOf
  if 0 < s.poolSats ∨ outputs = [] then outputs ++ [⟨max s.poolSats 1, poolScript⟩] else outputs

/-- What a split leaves unpaid, without those no coinbase can ever pay. -/
def carriable (s : Split) : List (Identity × Nat) :=
  (s.unpaid.filter fun e => e.2.2 ≠ .noScript).map dueAmount

section
variable (D : Decoders) (H : Digests) (canonical : Snapshot.Doc → Bytes) (sh : Shared)

def Shared.scriptFor (i : Identity) : Option Bytes := toScript D i sh.network

/-- The carry a coinbaser pays from. -/
def Shared.carryMap (carry : Carry) : OrdMap Identity Nat :=
  if sh.cfg.carryForward then carry.owed else .empty

/-- The split a request is answered with. -/
def Shared.splitFor (w : WindowView) (carry : Carry) (value : Nat) : Option Split :=
  w.splitWithCarry value sh.splitParams (sh.carryMap carry) (sh.scriptFor D)

/-- The height a coinbaser is for, or zero while the node has shown no tip. -/
def Shared.nextHeight : Option Nat :=
  match sh.tip with
  | none => some 0
  | some t => checkedAdd sizeU32 t.height 1

/-- The snapshot's hash, when it is committed to and the file could be stored. -/
def commitTo (w : WindowView) (carry : Carry) (value : Nat) (prevHash : Hash) (now : Nat)
    (stored : Bool) (s : Split) : Option (Option Hash) :=
  if sh.cfg.commitSnapshot then do
    let height ← sh.nextHeight
    let doc := Snapshot.build sh.cfg.snapshotTag height (Snapshot.hexEncode prevHash.toList.reverse)
      now value sh.splitParams w (sh.carryMap carry) s
    some (if stored then some (H.blake2b256 (canonical doc)) else none)
  else some none

/-- What a session remembers of the coinbaser it sends. -/
def issueOf (id : UInt8) (value : Nat) (s : Split) (hash : Option Hash) : IssuedCoinbaser where
  id := id
  value := value
  outputs := issueOutputs sh.poolScript
    (hash.toList.map fun h => Snapshot.opReturn h sh.cfg.snapshotTag) s
  payees := s.payees
  unpaid := carriable s
  carryPaid := s.carryPaid
  snapshot := (hash.map fun h => Snapshot.hexEncode h.toList).getD ""

def Session.keep (ss : Session) (c : IssuedCoinbaser) : Session :=
  let held := ss.coinbasers ++ [c]
  { ss with
    nextCoinbaserId := nextId ss.nextCoinbaserId
    coinbasers := held.drop (held.length - coinbasersKept) }

/-- Answer a coinbaser request: the session that remembers it, and the message. -/
def onCoinbaserRequest (w : WindowView) (carry : Carry) (ss : Session) (value : Nat)
    (prevHash : Hash) (now : Nat) (stored : Bool) : Option (Session × Bytes) := do
  let s ← sh.splitFor D w carry value
  let hash ← commitTo H canonical sh w carry value prevHash now stored s
  let c := issueOf sh ss.nextCoinbaserId value s hash
  some (ss.keep c, coinbaserReply value (encodeV2 c.id c.outputs))

end

/-- What holds of the shared state from start-up on, whatever controls are loaded later. -/
structure Started (D : Decoders) (sh : Shared) : Prop where
  loaded : ∃ c : Config, c.load = .ok sh.cfg
  base : sh.baseSplit = baseSplit sh.cfg
  payout : ∃ addr, toScript D addr sh.network = some sh.poolScript
  controls : sh.controls.Loaded

section
variable {D : Decoders} {H : Digests} {canonical : Snapshot.Doc → Bytes} {sh : Shared}

theorem Started.bounded (h : Started D sh) : sh.splitParams.Bounded := by
  obtain ⟨c, hc⟩ := h.loaded
  obtain ⟨hf, hs, -⟩ := Config.load_ok hc
  exact splitParams_bounded h.base hf hs h.controls

theorem Started.maxOutputs (h : Started D sh) : sh.splitParams.maxOutputs = 511 := by
  simp [Shared.splitParams, h.base, baseSplit]

theorem Started.tag_le (h : Started D sh) : sh.cfg.snapshotTag.utf8ByteSize ≤ 40 := by
  obtain ⟨c, hc⟩ := h.loaded
  exact (Config.load_ok hc).2.2.1

/-- The coinbaser a request is answered with, by the three things it is made of. -/
structure Issued (D : Decoders) (H : Digests) (canonical : Snapshot.Doc → Bytes) (sh : Shared)
    (w : WindowView) (carry : Carry) (c : IssuedCoinbaser) where
  split : Split
  hash : Option Hash
  ran : sh.splitFor D w carry c.value = some split
  made : c = issueOf sh c.id c.value split hash

/-- Everything a request can do. -/
theorem onCoinbaserRequest_cases {w : WindowView} {carry : Carry} {ss ss' : Session} {value : Nat}
    {prevHash : Hash} {now : Nat} {stored : Bool} {message : Bytes}
    (h : onCoinbaserRequest D H canonical sh w carry ss value prevHash now stored
      = some (ss', message)) :
    ∃ c, ∃ i : Issued D H canonical sh w carry c,
      (i.hash.isSome ↔ sh.cfg.commitSnapshot = true ∧ stored = true) ∧ c.value = value ∧
      c.id = ss.nextCoinbaserId ∧ ss' = ss.keep c ∧
      message = coinbaserReply value (encodeV2 c.id c.outputs) := by
  simp only [onCoinbaserRequest, Option.bind_eq_bind, Option.bind_eq_some_iff, Option.some.injEq,
    Prod.mk.injEq] at h
  obtain ⟨s, hs, hash, hh, rfl, rfl⟩ := h
  refine ⟨issueOf sh ss.nextCoinbaserId value s hash, ⟨s, hash, hs, rfl⟩, ?_, rfl, rfl, rfl, rfl⟩
  unfold commitTo at hh
  split at hh
  next hc =>
    simp only [Option.bind_eq_bind, Option.bind_eq_some_iff, Option.some.injEq] at hh
    obtain ⟨_, -, rfl⟩ := hh
    cases stored <;> simp [hc]
  next hc =>
    obtain rfl := Option.some.inj hh
    simp [hc]

/-- With products that fit and a height below the last, a request is answered. -/
theorem onCoinbaserRequest_total (hs : Started D sh) {w : WindowView} {carry : Carry} {ss : Session}
    {value : Nat} {prevHash : Hash} {now : Nat} {stored : Bool} (hv : value < sizeU64)
    (hfit : ProductsFit w.miners value sh.splitParams) (ht : ∀ t ∈ sh.tip, t.height + 1 < sizeU32) :
    ∃ r, onCoinbaserRequest D H canonical sh w carry ss value prevHash now stored = some r := by
  obtain ⟨s, run⟩ : ∃ s, sh.splitFor D w carry value = some s :=
    computeWithCarry_total (w.input hs.bounded hv) hfit
  have hheight : ∃ hash, commitTo H canonical sh w carry value prevHash now stored s = some hash := by
    obtain ⟨height, hheight⟩ : ∃ height, sh.nextHeight = some height := by
      unfold Shared.nextHeight
      split
      next => exact ⟨_, rfl⟩
      next t htip => exact ⟨t.height + 1, by simpa using ht t (by simp [htip])⟩
    unfold commitTo
    split
    · exact ⟨_, by rw [hheight]; rfl⟩
    · exact ⟨_, rfl⟩
  obtain ⟨hash, hh⟩ := hheight
  have run' : sh.splitFor D w carry value = some s := run
  simp only [onCoinbaserRequest, run', hh, Option.bind_eq_bind, Option.bind_some]
  exact ⟨_, rfl⟩

end
end WaviclesPrime.Primed
