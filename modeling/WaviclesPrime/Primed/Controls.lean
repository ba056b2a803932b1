import WaviclesPrime.Primed.IpAddr
import WaviclesPrime.Primed.Session

/-! The controls file: live fees, overrides and bans. -/
namespace WaviclesPrime.Primed
open Tides

/-- The file as it is parsed. -/
structure ControlsFile where
  feeBps : Option Nat
  stratumFeeBps : Option Nat
  feeOverrides : OrdMap String Nat
  bannedIdentities : List String
  bannedIps : List String

/-- A network address and its prefix bits, no more than the address has. -/
structure Net where
  addr : IpAddr
  bits : Nat
  fits : bits ≤ addr.width

/-- Validated live controls, with the networks that are banned. -/
structure NetControls extends Controls where
  bannedNets : List Net

/-- What is before and after the first separator. -/
def splitOnce (sep : Char) (text : List Char) : Option (List Char × List Char) :=
  if sep ∈ text then some (text.takeWhile (· ≠ sep), (text.dropWhile (· ≠ sep)).tail) else none

/-- An address and a prefix length; a bare address has all its bits. -/
def parseNet (s : String) : Option Net := do
  let (ip, bits) ← match splitOnce '/' s.toList with
    | some (a, b) => do
      let ip ← IpAddr.parse a
      let bits ← parseU8 b
      some (ip, bits)
    | none => do
      let ip ← IpAddr.parse s.toList
      some (ip, ip.width)
  if h : bits ≤ ip.width then some ⟨ip, bits, h⟩ else none

/-- Ones in the first bits. -/
def netMask (width bits : Nat) : BitVec width :=
  if bits = 0 then 0 else BitVec.allOnes width <<< (width - bits)

/-- Whether an address is in a network of its family. -/
def inNet (ip net : IpAddr) (bits : Nat) : Bool :=
  match ip, net with
  | .v4 a, .v4 n => a &&& netMask 32 bits == n &&& netMask 32 bits
  | .v6 a, .v6 n => a &&& netMask 128 bits == n &&& netMask 128 bits
  | _, _ => false

def NetControls.ipBanned (c : NetControls) (ip : IpAddr) : Bool :=
  c.bannedNets.any fun net => inNet ip net.addr net.bits

namespace ControlsFile

def maxBps : Nat := 10000

def checkFee : Option Nat → Except String Unit
  | some bps => if maxBps < bps then .error s!"fee {bps} bps is over 100%" else .ok ()
  | none => .ok ()

def loadNets (quoted : String → String) : List String → Except String (List Net)
  | [] => .ok []
  | s :: rest =>
    match parseNet s with
    | none => .error ("banned_ips: " ++ quoted s ++ " is not an IP or CIDR")
    | some net => do
      let nets ← loadNets quoted rest
      return net :: nets

section
variable (D : Decoders)

/-- The identity that an entry of the file is for. -/
def entryIdentity (entry : String) : Identity := canonicalIdentity D (identityOf entry)

def loadOverrides : List (String × Nat) → OrdMap Identity Nat → Except String (OrdMap Identity Nat)
  | [], overrides => .ok overrides
  | (id, bps) :: rest, overrides =>
    if maxBps < bps then .error s!"fee override for {id}: {bps} bps is over 100%"
    else loadOverrides rest (overrides.insert (entryIdentity D id) bps)

/-- The checks on a parsed file, and the controls it puts in force. -/
def load (quoted : String → String) (f : ControlsFile) : Except String NetControls := do
  checkFee f.feeBps
  checkFee f.stratumFeeBps
  let feeOverrides ← loadOverrides D f.feeOverrides.entries .empty
  let bannedNets ← loadNets quoted f.bannedIps
  return {
    feeBps := f.feeBps
    stratumFeeBps := f.stratumFeeBps
    feeOverrides
    bannedIdentities := f.bannedIdentities.map (entryIdentity D)
    bannedNets }

end

section
variable {D : Decoders} {quoted : String → String}

/-- A step that goes through, and what follows it. -/
theorem ok_of_bind {ε α β : Type} {x : Except ε α} {f : α → Except ε β} {b : β} (h : x >>= f = .ok b) :
    ∃ a, x = .ok a ∧ f a = .ok b := by
  cases x with
  | error e => cases h
  | ok a => exact ⟨a, rfl, h⟩

theorem loadNets_ok {entries : List String} {nets : List Net} (h : loadNets quoted entries = .ok nets) :
    List.Forall₂ (fun s net => parseNet s = some net) entries nets := by
  induction entries generalizing nets with
  | nil =>
    obtain rfl := Except.ok.inj h
    exact .nil
  | cons s rest ih =>
    rw [loadNets] at h
    split at h
    next => cases h
    next net hs =>
      obtain ⟨others, hrest, hret⟩ := ok_of_bind h
      obtain rfl := Except.ok.inj hret
      exact .cons hs (ih hrest)

/-- The last entry for an identity is the one that counts. -/
theorem loadOverrides_ok {entries : List (String × Nat)} {start overrides : OrdMap Identity Nat}
    (h : loadOverrides D entries start = .ok overrides) :
    (∀ e ∈ entries, e.2 ≤ maxBps) ∧
    (∀ i, (∀ e ∈ entries, entryIdentity D e.1 ≠ i) → overrides.get i = start.get i) ∧
    ∀ before e after, entries = before ++ e :: after →
      (∀ x ∈ after, entryIdentity D x.1 ≠ entryIdentity D e.1) →
      overrides.get (entryIdentity D e.1) = some e.2 := by
  induction entries generalizing start with
  | nil =>
    obtain rfl := Except.ok.inj h
    refine ⟨by simp, fun i _ => rfl, fun before e after heq => ?_⟩
    simp at heq
  | cons e rest ih =>
    obtain ⟨id, bps⟩ := e
    rw [loadOverrides] at h
    obtain ⟨hle, h⟩ := ok_of_check h
    obtain ⟨hall, hkeep, hlast⟩ := ih h
    refine ⟨?_, fun i hi => ?_, fun before e after heq hafter => ?_⟩
    · intro x hx
      rcases List.mem_cons.mp hx with rfl | hx
      · exact Nat.le_of_not_lt hle
      · exact hall x hx
    · rw [hkeep i fun x hx => hi x (List.mem_cons_of_mem _ hx), OrdMap.get_insert,
        if_neg (Ne.symm (hi (id, bps) List.mem_cons_self))]
    · cases before with
      | nil =>
        obtain ⟨rfl, rfl⟩ := List.cons.inj heq
        rw [hkeep _ hafter, OrdMap.get_insert, if_pos rfl]
      | cons x before => exact hlast before e after (List.cons.inj heq).2 hafter

theorem loadOverrides_bounded {entries : List (String × Nat)} {start overrides : OrdMap Identity Nat}
    (h : loadOverrides D entries start = .ok overrides) (hs : ∀ e ∈ start.entries, e.2 ≤ maxBps) :
    ∀ e ∈ overrides.entries, e.2 ≤ maxBps := by
  induction entries generalizing start with
  | nil =>
    obtain rfl := Except.ok.inj h
    exact hs
  | cons e rest ih =>
    obtain ⟨id, bps⟩ := e
    rw [loadOverrides] at h
    obtain ⟨hle, h⟩ := ok_of_check h
    refine ih h fun e he => ?_
    rcases OrdMap.mem_put he with rfl | he
    · exact Nat.le_of_not_lt hle
    · exact hs e he

/-- What a file that loads puts in force. -/
structure InForce (D : Decoders) (f : ControlsFile) (c : NetControls) : Prop where
  fee : ∀ bps ∈ f.feeBps, bps ≤ maxBps
  stratum : ∀ bps ∈ f.stratumFeeBps, bps ≤ maxBps
  fees : c.feeBps = f.feeBps ∧ c.stratumFeeBps = f.stratumFeeBps
  overrides : loadOverrides D f.feeOverrides.entries .empty = .ok c.feeOverrides
  identities : c.bannedIdentities = f.bannedIdentities.map (entryIdentity D)
  nets : List.Forall₂ (fun s net => parseNet s = some net) f.bannedIps c.bannedNets

theorem checkFee_ok {fee : Option Nat} (h : checkFee fee = .ok ()) : ∀ bps ∈ fee, bps ≤ maxBps := by
  rintro bps rfl
  exact Nat.le_of_not_lt (ok_of_check h).1

theorem load_ok {f : ControlsFile} {c : NetControls} (h : f.load D quoted = .ok c) : InForce D f c := by
  obtain ⟨_, hfee, h⟩ := ok_of_bind h
  obtain ⟨_, hstratum, h⟩ := ok_of_bind h
  obtain ⟨overrides, hover, h⟩ := ok_of_bind h
  obtain ⟨nets, hnets, hret⟩ := ok_of_bind h
  obtain rfl := Except.ok.inj hret
  exact ⟨checkFee_ok hfee, checkFee_ok hstratum, ⟨rfl, rfl⟩, hover, rfl, loadNets_ok hnets⟩

/-- A file that loads has no fee over all of the work. -/
theorem InForce.loaded {f : ControlsFile} {c : NetControls} (h : InForce D f c) : c.toControls.Loaded where
  fee := by
    rw [h.fees.1]
    exact h.fee
  stratum := by
    rw [h.fees.2]
    exact h.stratum
  overrides := loadOverrides_bounded h.overrides (by simp [OrdMap.empty])

end
end ControlsFile
end WaviclesPrime.Primed
