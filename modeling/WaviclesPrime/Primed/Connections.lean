import Mathlib.Data.List.Count
import WaviclesPrime.Lib.KeyMap
import WaviclesPrime.Lib.Machine
import WaviclesPrime.Primed.Controls

/-! The accept loop: who gets a session, and the slots that sessions give back. -/
namespace WaviclesPrime.Primed
open Machine

/-- Live connections, total and per remote address. -/
structure Connections where
  perIp : KeyMap IpAddr Nat
  total : Nat

namespace Connections

def empty : Connections := ⟨.empty, 0⟩

/-- Reserve a slot, or say which limit it would break. The address has its row before its limit is looked at. -/
def admitPeer (c : Connections) (ip : IpAddr) (maxTotal maxPerIp : Nat) : Except String Unit × Connections :=
  if maxTotal ≤ c.total then (.error "connection limit reached", c)
  else
    let n := (c.perIp.get ip).getD 0
    if maxPerIp ≤ n then (.error "per-address connection limit reached", { c with perIp := c.perIp.insert ip n })
    else (.ok (), ⟨c.perIp.insert ip (n + 1), c.total + 1⟩)

def release (c : Connections) (ip : IpAddr) : Connections where
  perIp :=
    match c.perIp.get ip with
    | none => c.perIp
    | some n => if n - 1 = 0 then c.perIp.erase ip else c.perIp.insert ip (n - 1)
  total := c.total - 1

end Connections

/-- How a session comes to its end. -/
inductive Ending where
  | closed
  | disconnected
  | idle
  | dropped
  deriving DecidableEq

inductive Arrival where
  | accept (ip : IpAddr)
  | ended (ip : IpAddr) (how : Ending)
  | reload (controls : NetControls)

/-- What the accept loop shares with the sessions, and the slots that those hold. -/
structure Listener where
  controls : NetControls
  connections : Connections
  connectionsRefused : Nat
  handshakeFailures : Nat
  slots : List IpAddr

namespace Listener

def new (controls : NetControls) : Listener := ⟨controls, .empty, 0, 0, []⟩

def accept (maxTotal maxPerIp : Nat) (l : Listener) (ip : IpAddr) : Listener :=
  if l.controls.ipBanned ip then { l with connectionsRefused := (l.connectionsRefused + 1) % sizeU64 }
  else
    match l.connections.admitPeer ip maxTotal maxPerIp with
    | (.error _, connections) => { l with connections, connectionsRefused := (l.connectionsRefused + 1) % sizeU64 }
    | (.ok _, connections) => { l with connections, slots := ip :: l.slots }

/-- A slot is dropped with its session, once. -/
def ended (l : Listener) (ip : IpAddr) (how : Ending) : Listener :=
  if ip ∈ l.slots then
    { l with
      connections := l.connections.release ip
      handshakeFailures := if how = .dropped then (l.handshakeFailures + 1) % sizeU64 else l.handshakeFailures
      slots := l.slots.erase ip }
  else l

def step (maxTotal maxPerIp : Nat) (l : Listener) : Arrival → Listener
  | .accept ip => l.accept maxTotal maxPerIp ip
  | .ended ip how => l.ended ip how
  | .reload controls => { l with controls }

def run (maxTotal maxPerIp : Nat) (l : Listener) (es : List Arrival) : Listener := es.foldl (step maxTotal maxPerIp) l

end Listener

/-- The table tells the slots: a row for each address that holds some, with their number. -/
structure Connections.Tells (c : Connections) (slots : List IpAddr) : Prop where
  perIp : ∀ ip, c.perIp.get ip = if slots.count ip = 0 then none else some (slots.count ip)
  total : c.total = slots.length

/-- Room for one more slot of an address. -/
structure Room (maxTotal maxPerIp : Nat) (slots : List IpAddr) (ip : IpAddr) : Prop where
  total : slots.length < maxTotal
  perIp : slots.count ip < maxPerIp

namespace Connections
variable {c : Connections} {slots : List IpAddr} {maxPerIp : Nat} {ip : IpAddr}

theorem Tells.getD (h : c.Tells slots) (ip : IpAddr) : (c.perIp.get ip).getD 0 = slots.count ip := by
  rw [h.perIp]
  split
  next hzero => rw [hzero, Option.getD_none]
  next => rfl

/-- With room for it an address is admitted; without, the table is left as it was. -/
theorem Tells.admit_cases (h : c.Tells slots) (hone : 0 < maxPerIp) (maxTotal : Nat) (ip : IpAddr) :
    (Room maxTotal maxPerIp slots ip ∧ ∃ c', c.admitPeer ip maxTotal maxPerIp = (.ok (), c') ∧ c'.Tells (ip :: slots)) ∨
    (¬ Room maxTotal maxPerIp slots ip ∧ ∃ why c', c.admitPeer ip maxTotal maxPerIp = (.error why, c') ∧ c'.Tells slots) := by
  unfold admitPeer
  rw [h.getD, h.total]
  by_cases htotal : maxTotal ≤ slots.length
  · rw [if_pos htotal]
    exact .inr ⟨fun hroom => absurd hroom.total (Nat.not_lt.mpr htotal), _, _, rfl, h⟩
  rw [if_neg htotal]
  dsimp only
  by_cases hper : maxPerIp ≤ slots.count ip
  · rw [if_pos hper]
    refine .inr ⟨fun hroom => absurd hroom.perIp (Nat.not_lt.mpr hper), _, _, rfl, ⟨fun j => ?_, rfl⟩⟩
    rw [KeyMap.get_insert]
    split
    next heq =>
      subst heq
      rw [if_neg (by omega)]
    next => exact h.perIp j
  · rw [if_neg hper]
    refine .inl ⟨⟨Nat.lt_of_not_le htotal, Nat.lt_of_not_le hper⟩, _, rfl, ⟨fun j => ?_, by rw [List.length_cons]⟩⟩
    rw [KeyMap.get_insert]
    split
    next heq =>
      subst heq
      rw [List.count_cons_self, if_neg (Nat.succ_ne_zero _)]
    next hne => rw [List.count_cons_of_ne (Ne.symm hne), h.perIp]

theorem Tells.release (h : c.Tells slots) (hmem : ip ∈ slots) : (c.release ip).Tells (slots.erase ip) := by
  have hpos : slots.count ip ≠ 0 := Nat.pos_iff_ne_zero.mp (List.count_pos_iff.mpr hmem)
  have hget : c.perIp.get ip = some (slots.count ip) := by rw [h.perIp, if_neg hpos]
  refine ⟨fun j => ?_, ?_⟩
  · rw [Connections.release, hget]
    dsimp only
    by_cases hj : j = ip
    · subst hj
      rw [List.count_erase_self]
      split <;> simp [*]
    · rw [List.count_erase_of_ne hj, ← h.perIp]
      split <;> simp [hj]
  · rw [Connections.release, h.total, List.length_erase_of_mem hmem]

end Connections

namespace Listener
variable {maxTotal maxPerIp : Nat}

/-- Slots within the limits, and a table that tells them. -/
structure Within (maxTotal maxPerIp : Nat) (l : Listener) : Prop where
  tells : l.connections.Tells l.slots
  total : l.slots.length ≤ maxTotal
  perIp : ∀ ip, l.slots.count ip ≤ maxPerIp

/-- Whoever is not banned and has room gets a slot, and nobody else does. -/
theorem Within.accept {l : Listener} (h : l.Within maxTotal maxPerIp) (hone : 0 < maxPerIp) (ip : IpAddr) :
    (l.accept maxTotal maxPerIp ip).Within maxTotal maxPerIp ∧
      ((l.controls.ipBanned ip = false ∧ Room maxTotal maxPerIp l.slots ip) ∧
          (l.accept maxTotal maxPerIp ip).slots = ip :: l.slots ∨
        ¬ (l.controls.ipBanned ip = false ∧ Room maxTotal maxPerIp l.slots ip) ∧
          (l.accept maxTotal maxPerIp ip).slots = l.slots) := by
  unfold Listener.accept
  cases hban : l.controls.ipBanned ip with
  | true => exact ⟨⟨h.tells, h.total, h.perIp⟩, .inr ⟨fun hnot => Bool.noConfusion hnot.1, rfl⟩⟩
  | false =>
    rw [if_neg Bool.false_ne_true]
    obtain ⟨hroom, c', hadmitted, htells⟩ | ⟨hfull, why, c', hadmitted, htells⟩ :=
      h.tells.admit_cases hone maxTotal ip
    · rw [hadmitted]
      refine ⟨⟨htells, hroom.total, fun j => ?_⟩, .inl ⟨⟨rfl, hroom⟩, rfl⟩⟩
      by_cases hj : ip = j
      · subst hj
        dsimp only
        rw [List.count_cons_self]
        exact hroom.perIp
      · dsimp only
        rw [List.count_cons_of_ne hj]
        exact h.perIp j
    · rw [hadmitted]
      exact ⟨⟨htells, h.total, h.perIp⟩, .inr ⟨fun hroom => hfull hroom.2, rfl⟩⟩

theorem Within.ended {l : Listener} (h : l.Within maxTotal maxPerIp) (ip : IpAddr) (how : Ending) :
    (l.ended ip how).Within maxTotal maxPerIp := by
  unfold Listener.ended
  split
  next hmem =>
    refine ⟨h.tells.release hmem, ?_, fun j => ?_⟩
    · exact (List.length_erase_le ..).trans h.total
    · exact (List.erase_sublist.count_le j).trans (h.perIp j)
  next => exact h

theorem Within.step {l : Listener} (h : l.Within maxTotal maxPerIp) (hone : 0 < maxPerIp) (e : Arrival) :
    (l.step maxTotal maxPerIp e).Within maxTotal maxPerIp := by
  cases e with
  | accept ip => exact (h.accept hone ip).1
  | ended ip how => exact h.ended ip how
  | reload controls => exact ⟨h.tells, h.total, h.perIp⟩

theorem Within.run {l : Listener} (h : l.Within maxTotal maxPerIp) (hone : 0 < maxPerIp) (es : List Arrival) :
    (l.run maxTotal maxPerIp es).Within maxTotal maxPerIp := by
  induction es generalizing l with
  | nil => exact h
  | cons e es ih => exact ih (h.step hone e)

theorem within_new (controls : NetControls) : (new controls).Within maxTotal maxPerIp :=
  ⟨⟨fun _ => rfl, rfl⟩, Nat.zero_le _, fun _ => Nat.zero_le _⟩

end Listener

/-- However peers come and go and bans change, the table holds a row for just the addresses with open sessions,
the limits are kept, and a peer gets a session exactly if it is not banned and the open sessions leave it room. -/
theorem sessions_admitted {maxTotal maxPerIp : Nat} (hone : 0 < maxPerIp) (controls : NetControls) (es : List Arrival) :
    let l := (Listener.new controls).run maxTotal maxPerIp es
    l.Within maxTotal maxPerIp ∧ ∀ ip,
      (l.accept maxTotal maxPerIp ip).slots =
        if l.controls.ipBanned ip = false ∧ l.slots.length < maxTotal ∧ l.slots.count ip < maxPerIp then ip :: l.slots
        else l.slots := by
  intro l
  have hl : l.Within maxTotal maxPerIp := (Listener.within_new controls).run hone es
  refine ⟨hl, fun ip => ?_⟩
  obtain ⟨-, ⟨⟨hban, hroom⟩, hslots⟩ | ⟨hnot, hslots⟩⟩ := hl.accept hone ip
  · rw [if_pos ⟨hban, hroom.total, hroom.perIp⟩, hslots]
  · rw [if_neg fun hall => hnot ⟨hall.1, hall.2.1, hall.2.2⟩, hslots]

/-- A second peer of one address, with one slot for each, is turned away until the first has left. -/
theorem sessions_admitted_pair :
    let l := (Listener.new ⟨.none, []⟩).run 2 1 [.accept (.v4 1#32), .accept (.v4 1#32), .ended (.v4 1#32) .idle]
    l.Within 2 1 ∧ ∀ ip,
      (l.accept 2 1 ip).slots =
        if l.controls.ipBanned ip = false ∧ l.slots.length < 2 ∧ l.slots.count ip < 1 then ip :: l.slots else l.slots :=
  sessions_admitted Nat.one_pos ⟨.none, []⟩ _

end WaviclesPrime.Primed
