import Mathlib
import WaviclesPrime.Lib.Journal
import WaviclesPrime.Primed.Attribution
import WaviclesPrime.Primed.Controls

/-! One payout script, one identity: shares and the controls file meet in one spelling. -/
namespace WaviclesPrime.Primed
open Wire Machine Tides

def toAsciiUppercase (s : String) : String := String.ofList (s.toList.map Char.toUpper)

/-- The spellings that the address formats allow: segwit has one string for each prefix, version and
program, in lower case or in upper case throughout; base58 has one string for each payload. -/
structure Decoders.Spelled (D : Decoders) : Prop where
  segwit : ∀ {a hrp ver prog}, D.segwit a = some (hrp, ver, prog) → ∀ b,
    (∃ other, D.segwit b = some (other, ver, prog) ∧ toAsciiLowercase other = toAsciiLowercase hrp) ↔
      b = toAsciiLowercase a ∨ b = toAsciiUppercase a
  base58 : ∀ {a b raw}, D.base58 a = some raw → D.base58 b = some raw → a = b

/-- A username whose identity the share path finds well formed and payable to a script. -/
structure PayableAs (D : Decoders) (net : Network) (username : String) (identity : Identity)
    (script : Bytes) : Prop where
  canonical : identity = canonicalIdentity D (identityOf username)
  formed : ¬ (identity = "" ∨ 128 < identity.utf8ByteSize ∨ ¬ identity.toList.all isAsciiGraphic)
  payable : toScript D identity net = some script

/-- An entry of the controls file resolves to a script, with or without a suffix. -/
def Resolves (D : Decoders) (net : Network) (entry : String) (script : Bytes) : Prop :=
  toScript D (identityOf entry) net = some script

/-- An entry with no white space before its suffix. -/
def Bare (entry : String) : Prop := trim (identityOf entry) = identityOf entry

instance (D : Decoders) (net : Network) (entry : String) (script : Bytes) :
    Decidable (Resolves D net entry script) := inferInstanceAs (Decidable (_ = _))

instance (entry : String) : Decidable (Bare entry) := inferInstanceAs (Decidable (_ = _))

/-- The rate of the last override that passes, in key order. -/
def lastRate (p : String → Bool) (entries : List (String × Nat)) : Option Nat :=
  (entries.filter fun e => p e.1).getLast?.map Prod.snd

/-- The bans and the overrides of a file that resolve to a script are in force for an identity: it is
shut out, and has the rate of the last of them. -/
structure InForceFor (D : Decoders) (net : Network) (f : ControlsFile) (sh : Shared) (username : String)
    (identity : Identity) (script : Bytes) : Prop where
  ban : (∃ entry ∈ f.bannedIdentities, Resolves D net entry script) → admitIdentity D sh username = none
  rate : ∀ bps, lastRate (Resolves D net · script) f.feeOverrides.entries = some bps →
    sh.splitParams.feeOverrides.get identity = some bps

/-- Of the entries that resolve to a script, white space before a suffix takes out none that counts. -/
structure SpacedHarmless (D : Decoders) (net : Network) (f : ControlsFile) (script : Bytes) : Prop where
  ban : (∃ entry ∈ f.bannedIdentities, Resolves D net entry script) →
    ∃ entry ∈ f.bannedIdentities, Bare entry ∧ Resolves D net entry script
  rate : ∀ bps, lastRate (Resolves D net · script) f.feeOverrides.entries = some bps →
    lastRate (fun entry => Bare entry ∧ Resolves D net entry script) f.feeOverrides.entries = some bps

section
variable {s : String}

@[simp] theorem lowercase_lowercase : toAsciiLowercase (toAsciiLowercase s) = toAsciiLowercase s := by
  simp [toAsciiLowercase, Function.comp_def]

@[simp] theorem uppercase_uppercase : toAsciiUppercase (toAsciiUppercase s) = toAsciiUppercase s := by
  simp [toAsciiUppercase, Function.comp_def]

@[simp] theorem lowercase_uppercase : toAsciiLowercase (toAsciiUppercase s) = toAsciiLowercase s := by
  simp [toAsciiLowercase, toAsciiUppercase, Function.comp_def]

end

theorem ascii_utf8Size {c : Char} (h : c.toNat < 128) : c.utf8Size = 1 := by
  have hall : ∀ n < 128, (Char.ofNat n).utf8Size = 1 := by decide
  rw [← Char.ofNat_toNat c]
  exact hall c.toNat h

theorem toLower_utf8Size (c : Char) : c.toLower.utf8Size = c.utf8Size := by
  by_cases h : c.isUpper
  · have hlo : 65 ≤ c.toNat ∧ c.toNat ≤ 90 := by
      simpa [Char.isUpper, UInt32.le_iff_toNat_le] using h
    have hto : c.toLower.toNat = c.toNat + 32 := by
      rw [Char.toLower_eq_of_isUpper h, Char.toNat_ofNat, if_pos (.inl (by omega))]
    rw [ascii_utf8Size (by omega), ascii_utf8Size (by omega)]
  · rw [Char.toLower_eq_of_not_isUpper h]

theorem utf8ByteSize_lowercase (s : String) : (toAsciiLowercase s).utf8ByteSize = s.utf8ByteSize := by
  have hlen : ∀ cs : List Char, String.utf8Len (cs.map Char.toLower) = String.utf8Len cs := by
    intro cs
    induction cs with
    | nil => rfl
    | cons c cs ih => rw [List.map_cons, String.utf8Len_cons, String.utf8Len_cons, ih, toLower_utf8Size]
  rw [toAsciiLowercase, String.utf8ByteSize_ofList, hlen, ← String.utf8ByteSize_ofList, String.ofList_toList]

/-- Nothing is trimmed from a text without white space. -/
theorem trim_of_no_space {s : String} (h : ∀ c ∈ s.toList, isWhiteSpace c = false) : trim s = s := by
  have hdrop : ∀ cs : List Char, (∀ c ∈ cs, isWhiteSpace c = false) → cs.dropWhile isWhiteSpace = cs := by
    intro cs hcs
    cases cs with
    | nil => rfl
    | cons c cs => rw [List.dropWhile_cons_of_neg (by simp [hcs c List.mem_cons_self])]
  rw [trim, hdrop _ h, hdrop _ fun c hc => h c (List.mem_reverse.mp hc), List.reverse_reverse,
    String.ofList_toList]

theorem isWhiteSpace_of_graphic {c : Char} (h : isAsciiGraphic c = true) : isWhiteSpace c = false := by
  have hr : 0x21 ≤ c.toNat ∧ c.toNat ≤ 0x7e := by simpa [isAsciiGraphic] using h
  simp [isWhiteSpace]
  omega

theorem toLower_graphic {c : Char} (h : isAsciiGraphic c.toLower = true) : isAsciiGraphic c = true := by
  by_cases hup : c.isUpper
  · have hlo : 65 ≤ c.toNat ∧ c.toNat ≤ 90 := by
      simpa [Char.isUpper, UInt32.le_iff_toNat_le] using hup
    simp [isAsciiGraphic]
    omega
  · rwa [Char.toLower_eq_of_not_isUpper hup] at h

section
variable {D : Decoders} {net : Network} {script : Bytes}

/-- The ways an address without white space around it resolves. -/
theorem toScript_cases {addr : String} (ht : trim addr = addr) (h : toScript D addr net = some script) :
    rdtsOutputOk script = true ∧ addr ≠ "" ∧ addr.utf8ByteSize ≤ 90 ∧
    ((∃ hrp ver prog, D.segwit addr = some (hrp, ver, prog) ∧
        toAsciiLowercase hrp = toAsciiLowercase net.hrp ∧ script = segwitScript ver prog) ∨
      (D.segwit addr = none ∧ ∃ raw, D.base58 addr = some raw ∧ legacyScript net raw = some script)) := by
  refine ⟨toScript_ok h, ?_⟩
  have hd := decodeScript_of_toScript h
  unfold decodeScript at hd
  rw [ht] at hd
  dsimp only at hd
  split at hd
  next => cases hd
  next hlen =>
    rw [not_or, not_lt] at hlen
    refine ⟨hlen.1, hlen.2, ?_⟩
    split at hd
    next hrp ver prog hs =>
      split at hd
      next => cases hd
      next hhrp => exact .inl ⟨hrp, ver, prog, hs, not_not.mp hhrp, (Option.some.inj hd).symm⟩
    next hs =>
      obtain ⟨raw, hraw, hscript⟩ := Option.bind_eq_some_iff.mp hd
      exact .inr ⟨hs, raw, hraw, hscript⟩

/-- A segwit script says its version and program. -/
theorem segwitScript_inj {ver ver' : UInt8} {prog prog' : Bytes} (hv : ver ≤ 16) (hv' : ver' ≤ 16)
    (h : segwitScript ver prog = segwitScript ver' prog') : ver = ver' ∧ prog = prog' := by
  obtain ⟨hop, hrest⟩ := List.cons.inj h
  refine ⟨?_, (List.cons.inj hrest).2⟩
  have hop16 : ∀ v w : Fin 17, (if UInt8.ofNat v = 0 then (0x00 : UInt8) else 0x50 + UInt8.ofNat v) =
      (if UInt8.ofNat w = 0 then 0x00 else 0x50 + UInt8.ofNat w) → v = w := by decide
  have hlt : ver.toNat < 17 := Nat.lt_succ_of_le hv
  have hlt' : ver'.toNat < 17 := Nat.lt_succ_of_le hv'
  have heq := hop16 ⟨ver.toNat, hlt⟩ ⟨ver'.toNat, hlt'⟩ (by simpa using hop)
  exact UInt8.toNat_inj.mp (Fin.mk.inj heq)

/-- A legacy script is one of two, by the version byte of its payload. -/
theorem legacyScript_cases {raw : Bytes} (h : legacyScript net raw = some script) :
    ∃ hash : Bytes, hash.length = 20 ∧
      ((raw = net.p2pkhVersion :: hash ∧ script = [0x76, 0xa9, 0x14] ++ hash ++ [0x88, 0xac]) ∨
        (raw = net.p2shVersion :: hash ∧ script = [0xa9, 0x14] ++ hash ++ [0x87])) := by
  unfold legacyScript at h
  split at h
  next => cases h
  next ver hash =>
    split_ifs at h with hlen hkey hsh
    · exact ⟨hash, not_not.mp hlen, .inl ⟨by rw [hkey], (Option.some.inj h).symm⟩⟩
    · exact ⟨hash, not_not.mp hlen, .inr ⟨by rw [hsh], (Option.some.inj h).symm⟩⟩

theorem legacyScript_inj {raw raw' : Bytes} (h : legacyScript net raw = some script)
    (h' : legacyScript net raw' = some script) : raw = raw' := by
  obtain ⟨hash, -, hcase⟩ := legacyScript_cases h
  obtain ⟨hash', -, hcase'⟩ := legacyScript_cases h'
  rcases hcase with ⟨rfl, rfl⟩ | ⟨rfl, rfl⟩ <;> rcases hcase' with ⟨rfl, heq⟩ | ⟨rfl, heq⟩
  · simpa using heq
  · simp at heq
  · simp at heq
  · simpa using heq

/-- A segwit script begins with a number, a legacy script does not. -/
theorem legacyScript_ne_segwit {raw prog : Bytes} {ver : UInt8} (hv : ver ≤ 16) :
    legacyScript net raw ≠ some (segwitScript ver prog) := by
  intro h
  have hop : ∀ v : Fin 17, (if UInt8.ofNat v = 0 then (0x00 : UInt8) else 0x50 + UInt8.ofNat v) ≠ 0x76 ∧
      (if UInt8.ofNat v = 0 then (0x00 : UInt8) else 0x50 + UInt8.ofNat v) ≠ 0xa9 := by decide
  have hver := hop ⟨ver.toNat, Nat.lt_succ_of_le hv⟩
  rw [UInt8.ofNat_toNat] at hver
  obtain ⟨hash, -, ⟨-, heq⟩ | ⟨-, heq⟩⟩ := legacyScript_cases h
  · exact hver.1 (List.cons.inj heq).1
  · exact hver.2 (List.cons.inj heq).1

/-- Addresses that resolve to one script have one canonical form. -/
theorem canonical_unique (hd : D.Documented) (hs : D.Spelled) {addr other : String} (ht : trim addr = addr)
    (ht' : trim other = other) (h : toScript D addr net = some script)
    (h' : toScript D other net = some script) : canonicalIdentity D addr = canonicalIdentity D other := by
  obtain ⟨-, -, -, hcase⟩ := toScript_cases ht h
  obtain ⟨-, -, -, hcase'⟩ := toScript_cases ht' h'
  rcases hcase with ⟨hrp, ver, prog, hseg, hhrp, rfl⟩ | ⟨hnone, raw, hraw, hscript⟩
  · rcases hcase' with ⟨hrp', ver', prog', hseg', hhrp', heq⟩ | ⟨hnone', raw', hraw', hscript'⟩
    · obtain ⟨rfl, rfl⟩ := segwitScript_inj (hd.version hseg) (hd.version hseg') heq
      have hother := (hs.segwit hseg other).mp ⟨hrp', hseg', hhrp'.trans hhrp.symm⟩
      rw [canonicalIdentity, canonicalIdentity, hseg, hseg', if_pos Option.isSome_some,
        if_pos Option.isSome_some]
      rcases hother with rfl | rfl
      · rw [lowercase_lowercase]
      · rw [lowercase_uppercase]
    · exact absurd hscript' (legacyScript_ne_segwit (hd.version hseg))
  · rcases hcase' with ⟨hrp', ver', prog', hseg', hhrp', rfl⟩ | ⟨hnone', raw', hraw', hscript'⟩
    · exact absurd hscript (legacyScript_ne_segwit (hd.version hseg'))
    · obtain rfl := legacyScript_inj hscript hscript'
      rw [hs.base58 hraw hraw']

theorem canonical_idem (addr : String) :
    canonicalIdentity D (canonicalIdentity D addr) = canonicalIdentity D addr := by
  unfold canonicalIdentity
  split
  next => rw [lowercase_lowercase, ite_self]
  next => rfl

/-- Folding the case of an address keeps what it resolves to. -/
theorem toScript_canonical (hs : D.Spelled) {addr : String} (ht : trim addr = addr)
    (ht' : trim (canonicalIdentity D addr) = canonicalIdentity D addr) :
    toScript D (canonicalIdentity D addr) net = toScript D addr net := by
  unfold canonicalIdentity at ht' ⊢
  split
  next hseg =>
    rw [if_pos hseg] at ht'
    obtain ⟨⟨hrp, ver, prog⟩, haddr⟩ := Option.isSome_iff_exists.mp hseg
    obtain ⟨other, hlower, hhrp⟩ := (hs.segwit haddr (toAsciiLowercase addr)).mpr (.inl rfl)
    have hempty : toAsciiLowercase addr = "" ↔ addr = "" := by
      rw [← String.utf8ByteSize_eq_zero_iff, ← String.utf8ByteSize_eq_zero_iff, utf8ByteSize_lowercase]
    rw [toScript, toScript, decodeScript, decodeScript, ht, ht', haddr, hlower]
    simp only [hempty, utf8ByteSize_lowercase, hhrp]
  next => rfl

end

section
variable {D : Decoders} {net : Network} {script : Bytes} {username : String} {i : Identity}

namespace PayableAs

theorem graphic (h : PayableAs D net username i script) : ∀ c ∈ i.toList, isAsciiGraphic c = true := by
  have hall := h.formed
  rw [not_or, not_or, not_not] at hall
  exact List.all_eq_true.mp hall.2.2

theorem trimmed (h : PayableAs D net username i script) : trim i = i :=
  trim_of_no_space fun c hc => isWhiteSpace_of_graphic (h.graphic c hc)

theorem folded (h : PayableAs D net username i script) : canonicalIdentity D i = i := by
  rw [h.canonical, canonical_idem]

/-- An entry is for the identity just when it resolves to its script and is bare. -/
theorem entry_iff (h : PayableAs D net username i script) (hd : D.Documented) (hs : D.Spelled)
    (entry : String) :
    ControlsFile.entryIdentity D entry = i ↔ Bare entry ∧ Resolves D net entry script := by
  constructor
  · intro heq
    have hgraphic : ∀ c ∈ (identityOf entry).toList, isAsciiGraphic c = true := by
      intro c hc
      rw [ControlsFile.entryIdentity, canonicalIdentity] at heq
      split at heq
      next =>
        refine toLower_graphic (h.graphic _ ?_)
        rw [← heq, toAsciiLowercase, String.toList_ofList]
        exact List.mem_map_of_mem hc
      next => exact h.graphic c (heq ▸ hc)
    have hbare : trim (identityOf entry) = identityOf entry :=
      trim_of_no_space fun c hc => isWhiteSpace_of_graphic (hgraphic c hc)
    refine ⟨hbare, ?_⟩
    unfold Resolves
    have hsame := @toScript_canonical D net hs _ hbare (by
      rw [← ControlsFile.entryIdentity, heq]
      exact h.trimmed)
    rw [← hsame, ← ControlsFile.entryIdentity, heq]
    exact h.payable
  · rintro ⟨hbare, hpay⟩
    rw [ControlsFile.entryIdentity, canonical_unique hd hs hbare h.trimmed hpay h.payable, h.folded]

theorem unique {other : String} {j : Identity} (h : PayableAs D net username i script)
    (h' : PayableAs D net other j script) (hd : D.Documented) (hs : D.Spelled) : i = j := by
  rw [← h.folded, canonical_unique hd hs h.trimmed h'.trimmed h.payable h'.payable, h'.folded]

/-- The identity is let in unless it is banned. -/
theorem admitIdentity_eq_none (h : PayableAs D net username i script) {sh : Shared} (hnet : sh.network = net) :
    admitIdentity D sh username = none ↔ sh.controls.identityBanned i = true := by
  unfold admitIdentity
  dsimp only
  rw [← h.canonical, if_neg h.formed, hnet, h.payable]
  simp

end PayableAs

namespace ControlsFile
variable {quoted : String → String} {f : ControlsFile} {c : NetControls}

theorem InForce.banned_iff (h : InForce D f c) (hd : D.Documented) (hs : D.Spelled)
    (hu : PayableAs D net username i script) :
    c.identityBanned i = true ↔ ∃ entry ∈ f.bannedIdentities, Bare entry ∧ Resolves D net entry script := by
  rw [Controls.identityBanned, List.contains_iff_mem, h.identities, List.mem_map]
  simp only [hu.entry_iff hd hs]

/-- The override in force for an identity is the last of those for it. -/
theorem loadOverrides_get {entries : List (String × Nat)} {overrides : OrdMap Identity Nat}
    (h : loadOverrides D entries .empty = .ok overrides) (i : Identity) :
    overrides.get i = lastRate (fun entry => entryIdentity D entry = i) entries := by
  obtain ⟨-, hkeep, hlast⟩ := loadOverrides_ok h
  rcases Journal.latest_cases (fun e : String × Nat => entryIdentity D e.1) i entries with
    hno | ⟨before, e, after, rfl, he, hafter⟩
  · have hnone : entries.filter (fun e => decide (entryIdentity D e.1 = i)) = [] :=
      List.filter_eq_nil_iff.mpr fun e he => by simpa using hno e he
    rw [hkeep i hno, lastRate, hnone]
    rfl
  · have hnone : after.filter (fun e => decide (entryIdentity D e.1 = i)) = [] :=
      List.filter_eq_nil_iff.mpr fun e he => by simpa using hafter e he
    subst he
    rw [hlast before e after rfl hafter, lastRate, List.filter_append, List.filter_cons, if_pos (by simp), hnone,
      List.getLast?_concat, Option.map_some]

theorem InForce.override (h : InForce D f c) (hd : D.Documented) (hs : D.Spelled)
    (hu : PayableAs D net username i script) : c.feeOverrides.get i =
      lastRate (fun entry => Bare entry ∧ Resolves D net entry script) f.feeOverrides.entries := by
  rw [loadOverrides_get h.overrides]
  simp only [hu.entry_iff hd hs]

end ControlsFile

/-- Usernames that are payable to one script have one identity; and the bans and overrides of a controls
file that resolve to the script are in force for them exactly when white space before a suffix takes out
none that counts. -/
theorem entries_in_force_iff (hd : D.Documented) (hs : D.Spelled) {other : String} {j : Identity}
    (hu : PayableAs D net username i script) (hv : PayableAs D net other j script) :
    i = j ∧ ∀ (quoted : String → String) (f : ControlsFile) (c : NetControls) (sh : Shared),
      f.load D quoted = .ok c → sh.network = net → sh.controls = c.toControls →
        (InForceFor D net f sh username i script ↔ SpacedHarmless D net f script) := by
  refine ⟨hu.unique hv hd hs, fun quoted f c sh hload hnet hc => ?_⟩
  have hforce := ControlsFile.load_ok hload
  have hban : admitIdentity D sh username = none ↔
      ∃ entry ∈ f.bannedIdentities, Bare entry ∧ Resolves D net entry script := by
    rw [hu.admitIdentity_eq_none hnet, hc]
    exact hforce.banned_iff hd hs hu
  have hrate : sh.splitParams.feeOverrides.get i =
      lastRate (fun entry => Bare entry ∧ Resolves D net entry script) f.feeOverrides.entries := by
    rw [← hforce.override hd hs hu, Shared.splitParams, hc]
  constructor
  · intro h
    exact ⟨fun hany => hban.mp (h.ban hany), fun bps hbps => hrate ▸ h.rate bps hbps⟩
  · intro h
    exact ⟨fun hany => hban.mpr (h.ban hany), fun bps hbps => hrate.trans (h.rate bps hbps)⟩

end

/-- The sample address in both its cases, and a base58 address. -/
def casedDecoders : Decoders where
  segwit a :=
    if a = sampleAddress then some ("bc", 0, sampleProgram)
    else if a = toAsciiUppercase sampleAddress then some ("BC", 0, sampleProgram)
    else none
  base58 := genesisDecoders.base58

/-- A ban and an override, in capitals and with suffixes. -/
def casedFile : ControlsFile where
  feeBps := none
  stratumFeeBps := none
  feeOverrides := OrdMap.empty.insert (toAsciiUppercase sampleAddress ++ "~rig") 50
  bannedIdentities := [toAsciiUppercase sampleAddress ++ ".rig1"]
  bannedIps := []

theorem casedDecoders_segwit {a hrp : String} {ver : UInt8} {prog : Bytes} :
    casedDecoders.segwit a = some (hrp, ver, prog) ↔ ver = 0 ∧ prog = sampleProgram ∧
      (a = sampleAddress ∧ hrp = "bc" ∨ a = toAsciiUppercase sampleAddress ∧ hrp = "BC") := by
  have hne : toAsciiUppercase sampleAddress ≠ sampleAddress := by decide +kernel
  rw [casedDecoders]
  dsimp only
  split
  next h =>
    subst h
    simp [Ne.symm hne, eq_comm, and_comm, and_assoc]
  next h =>
    split
    next hup =>
      subst hup
      simp [hne, eq_comm, and_comm, and_assoc]
    next hup => simp [h, hup]

theorem casedDecoders_documented : casedDecoders.Documented := by
  constructor <;>
  · intro a hrp ver prog h
    obtain ⟨rfl, rfl, -⟩ := casedDecoders_segwit.mp h
    decide

theorem casedDecoders_spelled : casedDecoders.Spelled := by
  constructor
  · intro a hrp ver prog h b
    obtain ⟨rfl, rfl, hcase⟩ := casedDecoders_segwit.mp h
    have hlow : toAsciiLowercase sampleAddress = sampleAddress := by decide +kernel
    have hspelled : (b = toAsciiLowercase a ∨ b = toAsciiUppercase a) ↔
        b = sampleAddress ∨ b = toAsciiUppercase sampleAddress := by
      rcases hcase with ⟨rfl, -⟩ | ⟨rfl, -⟩
      · rw [hlow]
      · rw [lowercase_uppercase, hlow, uppercase_uppercase]
    have hfold : toAsciiLowercase hrp = "bc" := by
      rcases hcase with ⟨-, rfl⟩ | ⟨-, rfl⟩ <;> decide +kernel
    rw [hspelled, hfold]
    constructor
    · rintro ⟨other, hother, -⟩
      exact (casedDecoders_segwit.mp hother).2.2.imp And.left And.left
    · rintro (rfl | rfl)
      · exact ⟨"bc", casedDecoders_segwit.mpr ⟨rfl, rfl, .inl ⟨rfl, rfl⟩⟩, by decide +kernel⟩
      · exact ⟨"BC", casedDecoders_segwit.mpr ⟨rfl, rfl, .inr ⟨rfl, rfl⟩⟩, by decide +kernel⟩
  · intro a b raw ha hb
    simp only [casedDecoders, genesisDecoders, Option.ite_none_right_eq_some] at ha hb
    rw [ha.1, hb.1]

theorem casedPayable : PayableAs casedDecoders .mainnet sampleAddress sampleAddress
    (segwitScript 0 sampleProgram) :=
  ⟨by decide +kernel, by decide +kernel, by decide +kernel⟩

theorem entries_in_force_cased : ∃ c, casedFile.load casedDecoders id = .ok c ∧
    admitIdentity casedDecoders { sampleShared with controls := c.toControls } sampleAddress = none := by
  refine ⟨_, rfl, ?_⟩
  have hforce := ((entries_in_force_iff casedDecoders_documented casedDecoders_spelled casedPayable
    casedPayable).2 id casedFile _ { sampleShared with controls := _ } rfl rfl rfl).mpr
      ⟨fun _ => ⟨_, List.mem_singleton_self _, by decide +kernel, by decide +kernel⟩, by decide +kernel⟩
  exact hforce.ban ⟨_, List.mem_singleton_self _, by decide +kernel⟩

/-- A ban with a blank before the worker's name. -/
def spacedFile : ControlsFile := { casedFile with bannedIdentities := [sampleAddress ++ " .rig1"] }

/-- The blank stays in the identity that is banned, and the miner is let in. -/
theorem spaced_ban_missed : casedDecoders.Documented ∧ casedDecoders.Spelled ∧
    PayableAs casedDecoders .mainnet sampleAddress sampleAddress (segwitScript 0 sampleProgram) ∧
    ∃ c, spacedFile.load casedDecoders id = .ok c ∧
      ¬ InForceFor casedDecoders .mainnet spacedFile { sampleShared with controls := c.toControls }
        sampleAddress sampleAddress (segwitScript 0 sampleProgram) := by
  refine ⟨casedDecoders_documented, casedDecoders_spelled, casedPayable, _, rfl, fun h => ?_⟩
  exact absurd (h.ban ⟨_, List.mem_singleton_self _, by decide +kernel⟩) (by decide +kernel)

end WaviclesPrime.Primed
