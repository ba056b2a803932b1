import WaviclesPrime.Primed.Controls
import WaviclesPrime.Primed.Sections

/-! Which peers an address ban shuts out. -/
namespace WaviclesPrime.Primed

/-- The first bits of two addresses are the same. -/
def PrefixAgrees {width : Nat} (bits : Nat) (a b : BitVec width) : Prop :=
  ∀ i < bits, a.getMsbD i = b.getMsbD i

/-- An address of a network's family that agrees with it in the network's prefix. -/
def Net.Covers (net : Net) (ip : IpAddr) : Prop :=
  match ip, net.addr with
  | .v4 a, .v4 n => PrefixAgrees net.bits a n
  | .v6 a, .v6 n => PrefixAgrees net.bits a n
  | _, _ => False

/-- The host that a peer is: an IPv4 peer may be reported in its mapped form. -/
def IpAddr.host : IpAddr → IpAddr
  | .v4 a => .v4 a
  | .v6 a => ((toIpv4Mapped a).map .v4).getD (.v6 a)

/-- Some entry's network covers an address. -/
def Listed (entries : List String) (ip : IpAddr) : Prop :=
  ∃ s ∈ entries, ∃ net, parseNet s = some net ∧ net.Covers ip

section
variable {width bits : Nat}

theorem getMsbD_netMask (hbits : bits ≤ width) (i : Nat) :
    (netMask width bits).getMsbD i = decide (i < bits) := by
  unfold netMask
  split
  next hzero =>
    subst hzero
    simp
  next =>
    rw [BitVec.getMsbD_shiftLeft, BitVec.getMsbD_allOnes]
    exact decide_eq_decide.mpr (by omega)

/-- Addresses under the mask are the same just when their first bits are. -/
theorem and_netMask_eq_iff (hbits : bits ≤ width) (a b : BitVec width) :
    a &&& netMask width bits = b &&& netMask width bits ↔ PrefixAgrees bits a b := by
  constructor
  · intro h i hi
    have hbit := congrArg (fun x => BitVec.getMsbD x i) h
    simpa [getMsbD_netMask hbits, hi] using hbit
  · intro h
    refine BitVec.eq_of_getMsbD_eq fun i hi => ?_
    rw [BitVec.getMsbD_and, BitVec.getMsbD_and, getMsbD_netMask hbits]
    by_cases hlt : i < bits
    · rw [h i hlt]
    · simp [hlt]

end

/-- The check is that of the network's prefix, for every length of it. -/
theorem inNet_iff (net : Net) (ip : IpAddr) : inNet ip net.addr net.bits = true ↔ net.Covers ip := by
  obtain ⟨addr, bits, fits⟩ := net
  cases addr with
  | v4 n =>
    cases ip with
    | v4 a => exact beq_iff_eq.trans (and_netMask_eq_iff fits a n)
    | v6 a => exact iff_of_false Bool.false_ne_true not_false
  | v6 n =>
    cases ip with
    | v4 a => exact iff_of_false Bool.false_ne_true not_false
    | v6 a => exact beq_iff_eq.trans (and_netMask_eq_iff fits a n)

section
variable {D : Decoders} {quoted : String → String} {f : ControlsFile} {c : NetControls}

/-- Exactly the addresses that an entry covers are banned, as they are reported. -/
theorem ControlsFile.InForce.ipBanned_iff (h : f.InForce D c) (ip : IpAddr) :
    c.ipBanned ip = true ↔ Listed f.bannedIps ip := by
  have hnets : (∃ net ∈ c.bannedNets, net.Covers ip) ↔ Listed f.bannedIps ip := by
    have hall := h.nets
    generalize f.bannedIps = entries, c.bannedNets = nets at hall
    unfold Listed
    induction hall with
    | nil => simp
    | cons hs _ ih => simp [hs, ih]
  rw [← hnets, NetControls.ipBanned, List.any_eq_true]
  simp only [inNet_iff]

/-- A ban matches a peer's host unless the peer is reported in the mapped form and the entries of the two
families tell its two forms apart. -/
theorem ban_matches_iff (hload : f.load D quoted = .ok c) (peer : IpAddr) :
    (c.ipBanned peer = true ↔ Listed f.bannedIps peer.host) ↔
      ∀ a b, peer = .v6 b → IpAddr.toIpv4Mapped b = some a →
        (Listed f.bannedIps (.v4 a) ↔ Listed f.bannedIps (.v6 b)) := by
  rw [(ControlsFile.load_ok hload).ipBanned_iff]
  cases peer with
  | v4 a => simp [IpAddr.host]
  | v6 b =>
    cases hmapped : IpAddr.toIpv4Mapped b with
    | none => simp [IpAddr.host, hmapped]
    | some a => simp [IpAddr.host, hmapped, iff_comm]

end

/-- One IPv4 host is banned. -/
def hostFile : ControlsFile where
  feeBps := none
  stratumFeeBps := none
  feeOverrides := .empty
  bannedIdentities := []
  bannedIps := ["203.0.113.9"]

def hostNet : Net := ⟨.v4 0xcb007109#32, 32, Nat.le_refl _⟩

theorem parseNet_host : parseNet "203.0.113.9" = some hostNet := by rfl

def hostControls : NetControls := ⟨.none, [hostNet]⟩

theorem hostFile_load : hostFile.load sampleDecoders id = .ok hostControls := by
  have hnets : ControlsFile.loadNets id hostFile.bannedIps = .ok [hostNet] := by
    rw [hostFile, ControlsFile.loadNets, parseNet_host]
    rfl
  rw [ControlsFile.load, hnets]
  rfl

theorem listed_host : Listed hostFile.bannedIps (.v4 0xcb007109#32) :=
  ⟨_, List.mem_singleton_self _, hostNet, parseNet_host, fun _ _ => rfl⟩

theorem ban_matches_sample : hostControls.ipBanned (.v4 0xcb007109#32) = true :=
  ((ban_matches_iff hostFile_load (.v4 0xcb007109#32)).mpr fun _ _ h => by cases h).mpr listed_host

/-- The same host in the mapped form gets a session. -/
theorem mapped_host_passes : ¬ ∀ (D : Decoders) (quoted : String → String) (f : ControlsFile)
    (c : NetControls), f.load D quoted = .ok c → ∀ peer : IpAddr,
      (c.ipBanned peer = true ↔ Listed f.bannedIps peer.host) := by
  intro hall
  have hmatch := hall _ _ _ _ hostFile_load (.v6 (IpAddr.mapped 0xcb007109#32))
  have hhost : (IpAddr.v6 (IpAddr.mapped 0xcb007109#32)).host = .v4 0xcb007109#32 := by decide
  rw [hhost] at hmatch
  exact absurd (hmatch.mpr listed_host) (by decide)

end WaviclesPrime.Primed
