import WaviclesPrime.Wire.CompactSize

/-! Which bytes are a coinbase in legacy serialization. -/
namespace WaviclesPrime.Wire

def nullOutpoint : Bytes := List.replicate 32 0 ++ List.replicate 4 0xff

def serializeOutput (o : TxOut) : Bytes :=
  LittleEndian.write 8 o.value ++ writeVarint o.script.length ++ o.script

/-- A coinbase within the limits of the format. -/
structure LegacyCoinbase where
  version : UInt32
  scriptSig : Bytes
  sequence : UInt32
  outputs : List TxOut
  lockTime : UInt32
  sig_length : 2 ≤ scriptSig.length ∧ scriptSig.length ≤ 100
  count : 1 ≤ outputs.length ∧ outputs.length ≤ 10000
  outputs_fit : ∀ o ∈ outputs, o.value < 2 ^ 64 ∧ o.script.length ≤ 10000

/-- The outputs one after another, the length of each script in any form. -/
inductive SpellsOutputs : List TxOut → Bytes → Prop
  | nil : SpellsOutputs [] []
  | cons {o os len rest} (hlen : CompactSize o.script.length len) (hrest : SpellsOutputs os rest) :
      SpellsOutputs (o :: os) (LittleEndian.write 8 o.value ++ len ++ o.script ++ rest)

namespace LegacyCoinbase

/-- The fields in order, given the three counts and the outputs in bytes. -/
def bytes (t : LegacyCoinbase) (inputs sig count outputs : Bytes) : Bytes :=
  LittleEndian.write 4 t.version.toNat ++ inputs ++ nullOutpoint ++ sig ++ t.scriptSig ++
    LittleEndian.write 4 t.sequence.toNat ++ count ++ outputs ++ LittleEndian.write 4 t.lockTime.toNat

def serialize (t : LegacyCoinbase) : Bytes :=
  t.bytes (writeVarint 1) (writeVarint t.scriptSig.length) (writeVarint t.outputs.length)
    (t.outputs.flatMap serializeOutput)

/-- The bytes are the coinbase with its lengths in any form. -/
inductive Spells (t : LegacyCoinbase) : Bytes → Prop
  | mk {inputs sig count outputs} (hin : CompactSize 1 inputs) (hsig : CompactSize t.scriptSig.length sig)
      (hcount : CompactSize t.outputs.length count) (houtputs : SpellsOutputs t.outputs outputs) :
      Spells t (t.bytes inputs sig count outputs)

/-- What the parser makes of it. -/
def parsed (t : LegacyCoinbase) (outputsAt lockTimeAt : Nat) : Coinbase where
  version := t.version
  scriptSig := t.scriptSig
  sequence := t.sequence
  outputs := t.outputs
  lockTime := t.lockTime
  height := bip34Height t.scriptSig
  outputsAt := outputsAt
  lockTimeAt := lockTimeAt

end LegacyCoinbase

/-- A parsed coinbase back in bytes, every length in its shortest form. -/
def Coinbase.serialize (cb : Coinbase) : Bytes :=
  LittleEndian.write 4 cb.version.toNat ++ writeVarint 1 ++ nullOutpoint ++ writeVarint cb.scriptSig.length ++
    cb.scriptSig ++ LittleEndian.write 4 cb.sequence.toNat ++ writeVarint cb.outputs.length ++
    cb.outputs.flatMap serializeOutput ++ LittleEndian.write 4 cb.lockTime.toNat

theorem SpellsOutputs.takes {outputs : List TxOut} {bytes : Bytes} (h : SpellsOutputs outputs bytes)
    (hfit : ∀ o ∈ outputs, o.value < 2 ^ 64 ∧ o.script.length ≤ 10000) :
    Takes (readOutputs outputs.length) bytes outputs := by
  induction h with
  | nil => exact .ret []
  | @cons o os len rest hlen hrest ih =>
    obtain ⟨⟨hvalue, hscript⟩, hfit⟩ := List.forall_mem_cons.mp hfit
    intro after pos
    rw [List.length_cons, readOutputs]
    simp only [List.append_assoc]
    refine (Read.bind_ok (Takes.uint 8 hvalue _ _)).trans ?_
    refine (Read.bind_ok (hlen.takes _ _)).trans ?_
    refine (Read.guard (Nat.not_lt.mpr hscript)).trans ?_
    refine (Read.bind_ok (Takes.take o.script _ _)).trans ?_
    refine (Read.bind_ok (ih hfit _ _)).trans ?_
    simp only [List.length_append, Nat.add_assoc]
    rfl

theorem reads_outputs (n : Nat) : Reads (readOutputs n) fun bytes outputs =>
    SpellsOutputs outputs bytes ∧ outputs.length = n ∧
      ∀ o ∈ outputs, o.value < 2 ^ 64 ∧ o.script.length ≤ 10000 := by
  induction n with
  | zero =>
    refine (Reads.ret []).mono ?_
    rintro _ _ ⟨rfl, rfl⟩
    exact ⟨.nil, rfl, nofun⟩
  | succ n ih =>
    intro c outputs c' hrun
    rw [readOutputs] at hrun
    obtain ⟨value, c₁, h₁, hrun⟩ := Read.bind_eq_ok hrun
    obtain ⟨len, c₂, h₂, hrun⟩ := Read.bind_eq_ok hrun
    obtain ⟨hlen, hrun⟩ := Read.guard_eq_ok hrun
    obtain ⟨script, c₃, h₃, hrun⟩ := Read.bind_eq_ok hrun
    obtain ⟨os, c₄, h₄, hrun⟩ := Read.bind_eq_ok hrun
    cases hrun
    obtain ⟨_, hr₁, hp₁, rfl, hvalue⟩ := Reads.uint 8 _ _ _ h₁
    obtain ⟨form, hr₂, hp₂, hform⟩ := CompactSize.reads _ _ _ h₂
    obtain ⟨_, hr₃, hp₃, rfl, rfl⟩ := Reads.take _ _ _ _ h₃
    obtain ⟨rest, hr₄, hp₄, hrest, rfl, hfit⟩ := ih _ _ _ h₄
    refine ⟨_, ?_, ?_, .cons hform hrest, rfl, List.forall_mem_cons.mpr ⟨⟨hvalue, Nat.not_lt.mp hlen⟩, hfit⟩⟩
    · rw [hr₁, hr₂, hr₃, hr₄]
      simp only [List.append_assoc]
    · rw [hp₄, hp₃, hp₂, hp₁]
      simp only [List.length_append, Nat.add_assoc]

/-- A coinbase is read whole, whatever forms its lengths take. -/
theorem readCoinbase_spelled (t : LegacyCoinbase) {inputs sig count outputs : Bytes} (hin : CompactSize 1 inputs)
    (hsig : CompactSize t.scriptSig.length sig) (hcount : CompactSize t.outputs.length count)
    (houtputs : SpellsOutputs t.outputs outputs) {outputsAt lockTimeAt : Nat}
    (houtputsAt : outputsAt = 4 + inputs.length + 36 + sig.length + t.scriptSig.length + 4)
    (hlockTimeAt : lockTimeAt = outputsAt + count.length + outputs.length) :
    readCoinbase ⟨t.bytes inputs sig count outputs ++ [], 0⟩ =
      .ok (t.parsed outputsAt lockTimeAt, ⟨[], lockTimeAt + 4⟩) := by
  have hnull : Takes (Cursor.take 36) nullOutpoint nullOutpoint := Takes.take nullOutpoint
  have hsigLength := t.sig_length
  have hcountLength := t.count
  subst hlockTimeAt houtputsAt
  unfold readCoinbase LegacyCoinbase.bytes
  simp only [List.append_assoc]
  refine (Read.bind_ok (Takes.uint 4 t.version.toNat_lt _ 0)).trans ?_
  refine (Read.bind_ok (hin.takes _ _)).trans ?_
  refine (Read.guard (by simp)).trans ?_
  refine (Read.bind_ok (hnull _ _)).trans ?_
  refine (Read.guard (by simp [nullOutpoint])).trans ?_
  refine (Read.bind_ok (hsig.takes _ _)).trans ?_
  refine (Read.guard (by omega)).trans ?_
  refine (Read.bind_ok (Takes.take t.scriptSig _ _)).trans ?_
  refine (Read.bind_ok (Takes.uint 4 t.sequence.toNat_lt _ _)).trans ?_
  refine (Read.bind_ok (x := get) rfl).trans ?_
  refine (Read.bind_ok (hcount.takes _ _)).trans ?_
  refine (Read.guard (by omega)).trans ?_
  refine (Read.bind_ok (houtputs.takes t.outputs_fit _ _)).trans ?_
  refine (Read.bind_ok (x := get) rfl).trans ?_
  refine (Read.bind_ok (Takes.uint 4 t.lockTime.toNat_lt _ _)).trans ?_
  refine (Read.bind_ok (x := get) rfl).trans ?_
  refine (Read.guard (by simp [Cursor.remaining])).trans ?_
  simp only [UInt32.ofNat_toNat, LittleEndian.length_write, Nat.zero_add]
  rfl

theorem parse_spelled {t : LegacyCoinbase} {b : Bytes} (h : t.Spells b) :
    ∃ outputsAt, parse b = .ok (t.parsed outputsAt (b.length - 4)) := by
  obtain @⟨inputs, sig, count, outputs, hin, hsig, hcount, houtputs⟩ := h
  have hrun := readCoinbase_spelled t hin hsig hcount houtputs rfl rfl
  have hlength : 4 + inputs.length + 36 + sig.length + t.scriptSig.length + 4 + count.length + outputs.length =
      (t.bytes inputs sig count outputs).length - 4 := by
    simp only [LegacyCoinbase.bytes, List.length_append, LittleEndian.length_write,
      show nullOutpoint.length = 36 from rfl]
    omega
  rw [hlength, List.append_nil] at hrun
  exact ⟨_, congrArg (Except.map Prod.fst) hrun⟩

theorem parse_ok {b : Bytes} {cb : Coinbase} (h : parse b = .ok cb) :
    ∃ c, readCoinbase ⟨b, 0⟩ = .ok (cb, c) := by
  unfold parse at h
  cases hrun : readCoinbase.run (.new b) with
  | error e =>
    rw [hrun] at h
    cases h
  | ok r =>
    rw [hrun] at h
    obtain rfl := Except.ok.inj h
    exact ⟨r.2, hrun⟩

/-- What is parsed is a coinbase spelled in some forms of its lengths. -/
theorem spelled_of_parse {b : Bytes} {cb : Coinbase} (h : parse b = .ok cb) :
    ∃ t : LegacyCoinbase, t.Spells b ∧ cb = t.parsed cb.outputsAt cb.lockTimeAt := by
  obtain ⟨c', hrun⟩ := parse_ok h
  unfold readCoinbase at hrun
  obtain ⟨version, c₁, h₁, hrun⟩ := Read.bind_eq_ok hrun
  obtain ⟨inputs, c₂, h₂, hrun⟩ := Read.bind_eq_ok hrun
  obtain ⟨hinputs, hrun⟩ := Read.guard_eq_ok hrun
  obtain ⟨prevout, c₃, h₃, hrun⟩ := Read.bind_eq_ok hrun
  obtain ⟨hprevout, hrun⟩ := Read.guard_eq_ok hrun
  obtain ⟨n, c₄, h₄, hrun⟩ := Read.bind_eq_ok hrun
  obtain ⟨hn, hrun⟩ := Read.guard_eq_ok hrun
  obtain ⟨scriptSig, c₅, h₅, hrun⟩ := Read.bind_eq_ok hrun
  obtain ⟨sequence, c₆, h₆, hrun⟩ := Read.bind_eq_ok hrun
  obtain ⟨_, _, hget, hrun⟩ := Read.bind_eq_ok hrun
  cases hget
  obtain ⟨nout, c₇, h₇, hrun⟩ := Read.bind_eq_ok hrun
  obtain ⟨hnout, hrun⟩ := Read.guard_eq_ok hrun
  obtain ⟨outputs, c₈, h₈, hrun⟩ := Read.bind_eq_ok hrun
  obtain ⟨_, _, hget, hrun⟩ := Read.bind_eq_ok hrun
  cases hget
  obtain ⟨lockTime, c₉, h₉, hrun⟩ := Read.bind_eq_ok hrun
  obtain ⟨_, _, hget, hrun⟩ := Read.bind_eq_ok hrun
  cases hget
  obtain ⟨hend, hrun⟩ := Read.guard_eq_ok hrun
  cases hrun
  obtain ⟨_, hr₁, -, rfl, hversion⟩ := Reads.uint 4 _ _ _ h₁
  obtain ⟨uin, hr₂, -, hin⟩ := CompactSize.reads _ _ _ h₂
  obtain ⟨_, hr₃, -, rfl, -⟩ := Reads.take _ _ _ _ h₃
  obtain ⟨usig, hr₄, -, hsig⟩ := CompactSize.reads _ _ _ h₄
  obtain ⟨scriptSig, hr₅, -, rfl, rfl⟩ := Reads.take _ _ _ _ h₅
  obtain ⟨_, hr₆, -, rfl, hsequence⟩ := Reads.uint 4 _ _ _ h₆
  obtain ⟨ucount, hr₇, -, hcount⟩ := CompactSize.reads _ _ _ h₇
  obtain ⟨uout, hr₈, -, hout, rfl, hfit⟩ := reads_outputs _ _ _ _ h₈
  obtain ⟨_, hr₉, -, rfl, hlockTime⟩ := Reads.uint 4 _ _ _ h₉
  obtain rfl := not_not.mp hinputs
  obtain rfl := not_not.mp hprevout
  have hnil : c'.rest = [] := List.length_eq_zero_iff.mp (not_not.mp hend)
  let t : LegacyCoinbase := ⟨.ofNat version, scriptSig, .ofNat sequence, outputs, .ofNat lockTime,
    by omega, by omega, hfit⟩
  have hbytes : b = t.bytes uin usig ucount uout := by
    rw [LegacyCoinbase.bytes, UInt32.toNat_ofNat_of_lt' hversion, UInt32.toNat_ofNat_of_lt' hsequence,
      UInt32.toNat_ofNat_of_lt' hlockTime]
    refine hr₁.trans ?_
    rw [hr₂, hr₃, hr₄, hr₅, hr₆, hr₇, hr₈, hr₉, hnil]
    simp only [List.append_assoc, List.append_nil]
    rfl
  refine ⟨t, ?_, rfl⟩
  rw [hbytes]
  exact ⟨hin, hsig, hcount, hout⟩

theorem spellsOutputs_serialize {outputs : List TxOut}
    (hfit : ∀ o ∈ outputs, o.value < 2 ^ 64 ∧ o.script.length ≤ 10000) :
    SpellsOutputs outputs (outputs.flatMap serializeOutput) := by
  induction outputs with
  | nil => exact .nil
  | cons o os ih =>
    obtain ⟨⟨-, hscript⟩, hfit⟩ := List.forall_mem_cons.mp hfit
    exact .cons (compactSize_writeVarint (by omega)) (ih hfit)

theorem LegacyCoinbase.spells_serialize (t : LegacyCoinbase) : t.Spells t.serialize := by
  have hsig := t.sig_length
  have hcount := t.count
  exact ⟨compactSize_writeVarint (by decide), compactSize_writeVarint (by omega),
    compactSize_writeVarint (by omega), spellsOutputs_serialize t.outputs_fit⟩

theorem SpellsOutputs.serialized_or_longer {outputs : List TxOut} {b : Bytes} (h : SpellsOutputs outputs b) :
    b = outputs.flatMap serializeOutput ∨ (outputs.flatMap serializeOutput).length < b.length := by
  induction h with
  | nil => exact .inl rfl
  | @cons o os len rest hlen hrest ih =>
    have hle := hlen.length_le
    simp only [List.flatMap_cons, serializeOutput, List.length_append]
    obtain rfl | hlonger := hlen.written_or_longer
    · obtain rfl | hrestLonger := ih
      · exact .inl rfl
      · exact .inr (by omega)
    · obtain rfl | hrestLonger := ih
      · exact .inr (by omega)
      · exact .inr (by omega)

theorem SpellsOutputs.length_le {outputs : List TxOut} {b : Bytes} (h : SpellsOutputs outputs b) :
    (outputs.flatMap serializeOutput).length ≤ b.length := by
  obtain rfl | hlonger := h.serialized_or_longer
  · exact Nat.le_refl _
  · exact hlonger.le

/-- Bytes that spell a coinbase are its serialization, or more of them than it needs. -/
theorem LegacyCoinbase.Spells.serialized_or_longer {t : LegacyCoinbase} {b : Bytes} (h : t.Spells b) :
    b = t.serialize ∨ t.serialize.length < b.length := by
  obtain @⟨inputs, sig, count, outputs, hin, hsig, hcount, houtputs⟩ := h
  by_cases hlonger : t.serialize.length < (t.bytes inputs sig count outputs).length
  · exact .inr hlonger
  · simp only [serialize, bytes, List.length_append] at hlonger
    have hinLe := hin.length_le
    have hsigLe := hsig.length_le
    have hcountLe := hcount.length_le
    have houtputsLe := houtputs.length_le
    have hin' := hin.written_or_longer.resolve_right (by omega)
    have hsig' := hsig.written_or_longer.resolve_right (by omega)
    have hcount' := hcount.written_or_longer.resolve_right (by omega)
    have houtputs' := houtputs.serialized_or_longer.resolve_right (by omega)
    rw [hin', hsig', hcount', houtputs']
    exact .inl rfl

/-- The parsed fields are serialized as the coinbase is. -/
theorem LegacyCoinbase.serialize_parsed (t : LegacyCoinbase) (outputsAt lockTimeAt : Nat) :
    (t.parsed outputsAt lockTimeAt).serialize = t.serialize := by
  unfold Coinbase.serialize serialize bytes parsed
  rfl

/-- Some length in the bytes of a coinbase takes up more of them than it needs. -/
def Overlong (b : Bytes) : Prop := ∃ t : LegacyCoinbase, t.Spells b ∧ t.serialize.length < b.length

/-- The parser accepts the serializations of coinbases, and they are what it parsed, as far as no length
is longer than it needs to be. -/
theorem parse_iff_canonical (b : Bytes) :
    (((∃ cb, parse b = .ok cb) ↔ ∃ t : LegacyCoinbase, b = t.serialize) ∧
      ∀ cb, parse b = .ok cb → cb.serialize = b) ↔ ¬ Overlong b := by
  constructor
  · rintro ⟨-, hback⟩ ⟨t, hspells, hlonger⟩
    obtain ⟨outputsAt, hparse⟩ := parse_spelled hspells
    have heq : t.serialize = b := (t.serialize_parsed _ _).symm.trans (hback _ hparse)
    exact absurd (heq ▸ hlonger) (Nat.lt_irrefl _)
  · intro hnot
    have hcanonical {t : LegacyCoinbase} (h : t.Spells b) : b = t.serialize :=
      h.serialized_or_longer.resolve_right fun hlonger => hnot ⟨t, h, hlonger⟩
    refine ⟨⟨?_, ?_⟩, ?_⟩
    · rintro ⟨cb, hparse⟩
      obtain ⟨t, hspells, -⟩ := spelled_of_parse hparse
      exact ⟨t, hcanonical hspells⟩
    · rintro ⟨t, rfl⟩
      obtain ⟨outputsAt, hparse⟩ := parse_spelled t.spells_serialize
      exact ⟨_, hparse⟩
    · intro cb hparse
      obtain ⟨t, hspells, hcb⟩ := spelled_of_parse hparse
      rw [hcb, t.serialize_parsed]
      exact (hcanonical hspells).symm

/-- A coinbase whose count of outputs takes three bytes. -/
def overlongCoinbase : Bytes :=
  [1, 0, 0, 0, 1] ++ nullOutpoint ++ [2, 1, 7] ++ List.replicate 4 0xff ++ [0xfd, 1, 0] ++
    LittleEndian.write 8 100 ++ [1, 0x51] ++ [0, 0, 0, 0]

theorem overlong_parsed : ∃ cb, parse overlongCoinbase = .ok cb ∧ cb.serialize ≠ overlongCoinbase ∧
    ¬ ∃ t : LegacyCoinbase, overlongCoinbase = t.serialize := by
  have hrun : (parse overlongCoinbase).toOption.map (fun cb => decide (cb.serialize ≠ overlongCoinbase)) =
      some true := by decide +kernel
  obtain ⟨cb, hparse, hne⟩ := Option.map_eq_some_iff.mp hrun
  replace hparse : parse overlongCoinbase = .ok cb := by
    cases hp : parse overlongCoinbase with
    | error e => simp [hp, Except.toOption] at hparse
    | ok found => simpa [hp, Except.toOption] using hparse
  have hne := of_decide_eq_true hne
  refine ⟨cb, hparse, hne, ?_⟩
  rintro ⟨t, ht⟩
  obtain ⟨outputsAt, hserialized⟩ := parse_spelled t.spells_serialize
  rw [← ht, hparse] at hserialized
  rw [Except.ok.inj hserialized, t.serialize_parsed] at hne
  exact hne ht.symm

end WaviclesPrime.Wire
