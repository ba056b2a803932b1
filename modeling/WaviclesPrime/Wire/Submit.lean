import WaviclesPrime.Lib.Utf8
import WaviclesPrime.Wire.Mining

/-! Share submissions on the wire: a fixed part, then tagged sections up to a terminator. -/
namespace WaviclesPrime.Wire

def subPow : UInt8 := 0x27
def terminator : UInt8 := 0xfe
def maxUsername : Nat := 384
def extranonceLen : Nat := 12
def powAlgoBlake2b : UInt8 := 1

def tagJob : UInt8 := 0x01
def tagCoinbase : UInt8 := 0x02
def tagBlake2b : UInt8 := 0x03
def tagTime : UInt8 := 0x04

namespace Cursor

def uint8 : Read UInt8 := do return .ofNat (← u8)
def uint16 : Read UInt16 := do return .ofNat (← u16)
def uint32 : Read UInt32 := do return .ofNat (← u32)
def uint64 : Read UInt64 := do return .ofNat (← u64)

end Cursor

def u16Bytes (x : UInt16) : Bytes := LittleEndian.write 2 x.toNat
def u32Bytes (x : UInt32) : Bytes := LittleEndian.write 4 x.toNat
def u64Bytes (x : UInt64) : Bytes := LittleEndian.write 8 x.toNat

def Blake2bSection.encode (b : Blake2bSection) : Bytes :=
  [tagBlake2b, powAlgoBlake2b] ++ b.ntime.toList ++ b.nonce.toList

/-- The number of branches is written in one byte. -/
def JobSection.encode (j : JobSection) : Bytes :=
  [tagJob] ++ j.prevHash.toList ++ u16Bytes j.targetByteIndex ++ j.nbits.toList ++ [j.coinbaserId] ++
    u32Bytes j.height ++ u64Bytes j.coinbaseValue ++ u32Bytes j.txnCount ++ u32Bytes j.txnTotalWeight ++
    u32Bytes j.txnTotalSize ++ u32Bytes j.txnTotalSigops ++ [.ofNat j.merkleBranches.length] ++
    j.merkleBranches.flatMap List.Vector.toList

/-- Each length is written in two bytes. -/
def CoinbaseSection.encode (c : CoinbaseSection) : Bytes :=
  [tagCoinbase] ++ [c.coinbaseId] ++ LittleEndian.write 2 c.coinb1.length ++
    LittleEndian.write 2 c.coinb2.length ++ c.coinb1 ++ c.coinb2

def Blake2bSection.read : Read Blake2bSection := do
  if (← Cursor.uint8) ≠ powAlgoBlake2b then throw (.malformed "pow algorithm")
  let ntime ← Cursor.array 8
  let nonce ← Cursor.array 8
  return ⟨ntime, nonce⟩

def JobSection.read : Read JobSection := do
  let prevHash ← Cursor.array 32
  let targetByteIndex ← Cursor.uint16
  let nbits ← Cursor.array 4
  let coinbaserId ← Cursor.uint8
  let height ← Cursor.uint32
  let coinbaseValue ← Cursor.uint64
  let txnCount ← Cursor.uint32
  let txnTotalWeight ← Cursor.uint32
  let txnTotalSize ← Cursor.uint32
  let txnTotalSigops ← Cursor.uint32
  let n ← Cursor.u8
  let merkleBranches ← Read.times n (Cursor.array 32)
  return ⟨prevHash, targetByteIndex, nbits, coinbaserId, height, coinbaseValue, txnCount,
    txnTotalWeight, txnTotalSize, txnTotalSigops, merkleBranches⟩

def CoinbaseSection.read : Read CoinbaseSection := do
  let coinbaseId ← Cursor.uint8
  let l₁ ← Cursor.u16
  let l₂ ← Cursor.u16
  let coinb1 ← Cursor.take l₁
  let coinb2 ← Cursor.take l₂
  return ⟨coinbaseId, coinb1, coinb2⟩

namespace PowSubmit

/-- The time is written with the section it belongs to. -/
def encodeBlake2b (s : PowSubmit) : Bytes :=
  s.blake2b.elim [] fun b => b.encode ++ s.timeOnWire.elim [] fun t => [tagTime] ++ u32Bytes t

/-- Serialize as a gateway would. -/
def encode (s : PowSubmit) : Bytes :=
  [subPow, s.jobId, s.coinbaseId, s.flags, s.targetPot] ++ u32Bytes s.ntime32 ++ u32Bytes s.nonce32 ++
    u32Bytes s.version ++ [.ofNat extranonceLen] ++ s.extranonce.toList ++
    ((asBytes s.username).take maxUsername ++ [0]) ++ s.reserved.toList ++ s.encodeBlake2b ++
    s.job.elim [] JobSection.encode ++ s.coinbase.elim [] CoinbaseSection.encode ++ [terminator]

/-- The part before the sections. -/
def readFixed : Read PowSubmit := do
  let jobId ← Cursor.uint8
  let coinbaseId ← Cursor.uint8
  let flags ← Cursor.uint8
  let targetPot ← Cursor.uint8
  let ntime32 ← Cursor.uint32
  let nonce32 ← Cursor.uint32
  let version ← Cursor.uint32
  if (← Cursor.u8) ≠ extranonceLen then throw (.malformed "extranonce size")
  let extranonce ← Cursor.array extranonceLen
  let username ← Cursor.cstr maxUsername
  let reserved ← Cursor.array 4
  return ⟨jobId, coinbaseId, flags, targetPot, ntime32, nonce32, version, extranonce,
    Utf8.fromUtf8Lossy username, reserved, none, none, none, none⟩

/-- One section of a submission; none at the terminator. -/
def readSection (s : PowSubmit) : Read (Option PowSubmit) := do
  let tag ← Cursor.uint8
  if tag = terminator then return none
  else if tag = tagBlake2b then return some { s with blake2b := some (← Blake2bSection.read) }
  else if tag = tagTime then return some { s with timeOnWire := some (← Cursor.uint32) }
  else if tag = tagJob then return some { s with job := some (← JobSection.read) }
  else if tag = tagCoinbase then return some { s with coinbase := some (← CoinbaseSection.read) }
  else throw (.malformed "pow section")

/-- A section is at least a byte, so there is an end to them. -/
theorem readSection_lt {s : PowSubmit} {o : Option PowSubmit} {c c' : Cursor}
    (h : readSection s c = .ok (o, c')) : c'.rest.length < c.rest.length := by
  obtain ⟨tag, c₁, htag, hsection⟩ := Read.bind_eq_ok h
  obtain ⟨n, c₂, hbyte, hret⟩ := Read.bind_eq_ok htag
  cases hret
  refine Nat.lt_of_le_of_lt ?_ (Cursor.u8_lt hbyte)
  have huint : ∀ {α : Type} (width : Nat) (f : Nat → α), Onward (do return f (← Cursor.uint width)) :=
    fun width f => (Onward.uint width).bind fun _ => .ret _
  have hblake2b : Onward Blake2bSection.read := by
    refine (huint 1 _).bind fun algo => .ite (.bind (.fail _) fun _ => ?_) ?_
    all_goals exact (Onward.array 8).bind fun _ => (Onward.array 8).bind fun _ => .ret _
  have hjob : Onward JobSection.read :=
    (Onward.array 32).bind fun _ => (huint 2 _).bind fun _ => (Onward.array 4).bind fun _ =>
    (huint 1 _).bind fun _ => (huint 4 _).bind fun _ => (huint 8 _).bind fun _ => (huint 4 _).bind fun _ =>
    (huint 4 _).bind fun _ => (huint 4 _).bind fun _ => (huint 4 _).bind fun _ => (Onward.uint 1).bind fun n =>
    (Onward.times n (.array 32)).bind fun _ => .ret _
  have hcoinbase : Onward CoinbaseSection.read :=
    (huint 1 _).bind fun _ => (Onward.uint 2).bind fun l₁ => (Onward.uint 2).bind fun l₂ =>
    (Onward.take l₁).bind fun _ => (Onward.take l₂).bind fun _ => .ret _
  exact (Onward.ite (.ret none) <| .ite (hblake2b.bind fun _ => .ret _) <|
    .ite ((huint 4 _).bind fun _ => .ret _) <| .ite (hjob.bind fun _ => .ret _) <|
    .ite (hcoinbase.bind fun _ => .ret _) (.fail _)) _ _ _ hsection

/-- The section loop. -/
def readSections (s : PowSubmit) (c : Cursor) : Except Error (PowSubmit × Cursor) :=
  match h : readSection s c with
  | .error e => .error e
  | .ok (none, c) => .ok (s, c)
  | .ok (some s, c') => readSections s c'
termination_by c.rest.length
decreasing_by exact readSection_lt h

/-- Parse the bytes after the sub-command byte. -/
def decode (body : Bytes) : Except Error PowSubmit :=
  ((do readSections (← readFixed)) : Read PowSubmit) (.new body) |>.map Prod.fst

end PowSubmit

namespace Takes

theorem uint8 (b : UInt8) : Takes Cursor.uint8 [b] b := by
  have h := (u8 b).map UInt8.ofNat
  rwa [UInt8.ofNat_toNat] at h

theorem uint16 (x : UInt16) : Takes Cursor.uint16 (u16Bytes x) x := by
  have h := (uint 2 x.toNat_lt).map UInt16.ofNat
  rwa [UInt16.ofNat_toNat] at h

theorem uint32 (x : UInt32) : Takes Cursor.uint32 (u32Bytes x) x := by
  have h := (uint 4 x.toNat_lt).map UInt32.ofNat
  rwa [UInt32.ofNat_toNat] at h

theorem uint64 (x : UInt64) : Takes Cursor.uint64 (u64Bytes x) x := by
  have h := (uint 8 x.toNat_lt).map UInt64.ofNat
  rwa [UInt64.ofNat_toNat] at h

theorem blake2b (s : PowSubmit) (b : Blake2bSection) :
    Takes s.readSection b.encode (some { s with blake2b := some b }) := by
  have hread : Takes Blake2bSection.read ([powAlgoBlake2b] ++ (b.ntime.toList ++ b.nonce.toList)) b :=
    (uint8 powAlgoBlake2b).bind ((array b.ntime).bind ((array b.nonce).map _))
  exact (uint8 tagBlake2b).bind (hread.map _)

theorem time (s : PowSubmit) (t : UInt32) :
    Takes s.readSection ([tagTime] ++ u32Bytes t) (some { s with timeOnWire := some t }) :=
  (uint8 tagTime).bind ((uint32 t).map _)

theorem job (s : PowSubmit) {j : JobSection} (h : j.merkleBranches.length ≤ 255) :
    Takes s.readSection j.encode (some { s with job := some j }) := by
  have hn : Takes Cursor.u8 [.ofNat j.merkleBranches.length] j.merkleBranches.length := by
    have h₁ := u8 (.ofNat j.merkleBranches.length)
    rwa [UInt8.toNat_ofNat_of_lt' (Nat.lt_succ_of_le h)] at h₁
  have hbranches := times (fun b (_ : b ∈ j.merkleBranches) => array b)
  simp only [JobSection.encode, List.append_assoc]
  refine (uint8 tagJob).bind (map (x := JobSection.read) (a := j) ?_ _)
  exact (array j.prevHash).bind <| (uint16 j.targetByteIndex).bind <| (array j.nbits).bind <|
    (uint8 j.coinbaserId).bind <| (uint32 j.height).bind <| (uint64 j.coinbaseValue).bind <|
    (uint32 j.txnCount).bind <| (uint32 j.txnTotalWeight).bind <| (uint32 j.txnTotalSize).bind <|
    (uint32 j.txnTotalSigops).bind <| hn.bind <| hbranches.map _

theorem coinbase (s : PowSubmit) {c : CoinbaseSection} (h₁ : c.coinb1.length ≤ 65535)
    (h₂ : c.coinb2.length ≤ 65535) : Takes s.readSection c.encode (some { s with coinbase := some c }) := by
  have hl₁ : Takes Cursor.u16 (LittleEndian.write 2 c.coinb1.length) _ := uint 2 (Nat.lt_succ_of_le h₁)
  have hl₂ : Takes Cursor.u16 (LittleEndian.write 2 c.coinb2.length) _ := uint 2 (Nat.lt_succ_of_le h₂)
  simp only [CoinbaseSection.encode, List.append_assoc]
  refine (uint8 tagCoinbase).bind (map (x := CoinbaseSection.read) (a := c) ?_ _)
  exact (uint8 c.coinbaseId).bind <| hl₁.bind <| hl₂.bind <| (take c.coinb1).bind <| (take c.coinb2).map _

/-- The loop goes on after a section. -/
theorem more {s s' r : PowSubmit} {u v : Bytes} (hu : Takes s.readSection u (some s'))
    (hv : Takes s'.readSections v r) : Takes s.readSections (u ++ v) r := by
  intro rest pos
  have hone := hu (v ++ rest) pos
  rw [List.append_assoc, PowSubmit.readSections]
  split <;> rename_i heq <;> rw [hone] at heq <;> cases heq
  rw [hv rest, List.length_append, Nat.add_assoc]

/-- A section that may be there. -/
theorem optional {α : Type} {s r : PowSubmit} {o : Option α} {g : α → Bytes} {v : Bytes}
    (put : Option α → PowSubmit) (hnone : put none = s) (hone : ∀ a, o = some a → Takes s.readSection (g a) (some (put (some a))))
    (hv : Takes (put o).readSections v r) : Takes s.readSections (o.elim [] g ++ v) r := by
  cases o with
  | none => exact hnone ▸ hv
  | some a => exact more (hone a rfl) hv

theorem finish (s : PowSubmit) : Takes s.readSections [terminator] s := by
  have hend : Takes s.readSection [terminator] none := (uint8 terminator).map fun _ => none
  intro rest pos
  have hone := hend rest pos
  rw [PowSubmit.readSections]
  split <;> rename_i heq <;> rw [hone] at heq <;> cases heq
  rfl

end Takes

namespace PowSubmit

/-- What the format can carry. -/
structure Fits (s : PowSubmit) : Prop where
  username : (asBytes s.username).length ≤ maxUsername
  nul : 0 ∉ asBytes s.username
  time : s.timeOnWire.isSome → s.blake2b.isSome
  branches : ∀ j, s.job = some j → j.merkleBranches.length ≤ 255
  coinbase : ∀ c, s.coinbase = some c → c.coinb1.length ≤ 65535 ∧ c.coinb2.length ≤ 65535

/-- The submission before its sections. -/
def fixed (s : PowSubmit) : PowSubmit :=
  { s with blake2b := none, timeOnWire := none, job := none, coinbase := none }

theorem readFixed_takes {s : PowSubmit} (h : s.Fits) : Takes readFixed
    ([s.jobId] ++ ([s.coinbaseId] ++ ([s.flags] ++ ([s.targetPot] ++ (u32Bytes s.ntime32 ++ (u32Bytes s.nonce32 ++
      (u32Bytes s.version ++ ([.ofNat extranonceLen] ++ (s.extranonce.toList ++
      ((asBytes s.username ++ [0]) ++ s.reserved.toList)))))))))) s.fixed := by
  have hname := Takes.cstr h.username h.nul
  have hfixed : s.fixed = ⟨s.jobId, s.coinbaseId, s.flags, s.targetPot, s.ntime32, s.nonce32, s.version,
      s.extranonce, Utf8.fromUtf8Lossy (asBytes s.username), s.reserved, none, none, none, none⟩ := by
    rw [Utf8.fromUtf8Lossy_asBytes, fixed]
  rw [hfixed]
  exact (Takes.uint8 s.jobId).bind <| (Takes.uint8 s.coinbaseId).bind <| (Takes.uint8 s.flags).bind <|
    (Takes.uint8 s.targetPot).bind <| (Takes.uint32 s.ntime32).bind <| (Takes.uint32 s.nonce32).bind <|
    (Takes.uint32 s.version).bind <| (Takes.u8 (.ofNat extranonceLen)).bind <|
    (Takes.array s.extranonce).bind <| hname.bind <| (Takes.array s.reserved).map _

theorem readSections_takes {s : PowSubmit} (h : s.Fits) : Takes s.fixed.readSections
    (s.encodeBlake2b ++ (s.job.elim [] JobSection.encode ++
      (s.coinbase.elim [] CoinbaseSection.encode ++ [terminator]))) s := by
  have hcoinbase : Takes { s with coinbase := none }.readSections
      (s.coinbase.elim [] CoinbaseSection.encode ++ [terminator]) s :=
    .optional (fun o => { s with coinbase := o }) rfl
      (fun c hc => .coinbase _ (h.coinbase c hc).1 (h.coinbase c hc).2) (.finish s)
  have hjob := Takes.optional (fun o => { s with job := o, coinbase := none }) rfl
    (fun j hj => .job _ (h.branches j hj)) hcoinbase
  unfold encodeBlake2b
  cases hb : s.blake2b with
  | none =>
    have htime : s.timeOnWire = none := by
      cases ht : s.timeOnWire with
      | none => rfl
      | some t => have := h.time (by rw [ht]; rfl); rw [hb] at this; cases this
    have hfixed : s.fixed = { s with job := none, coinbase := none } := by rw [fixed, ← hb, ← htime]
    rw [hfixed]
    exact hjob
  | some b =>
    have htime := Takes.optional (fun o => { s with timeOnWire := o, job := none, coinbase := none }) rfl
      (fun t _ => .time _ t) hjob
    simp only [Option.elim_some, List.append_assoc]
    refine .more (.blake2b _ b) ?_
    rw [fixed, ← hb]
    exact htime

/-- What was encoded is decoded, whatever the padding after it. -/
theorem decode_encode {s : PowSubmit} (h : s.Fits) (padding : Bytes) :
    decode (s.encode.tail ++ padding) = .ok s := by
  have hall : Takes (readFixed >>= readSections) s.encode.tail s := by
    have hparts := (readFixed_takes h).bind (readSections_takes h)
    rw [encode, List.take_of_length_le h.username]
    simpa only [List.append_assoc, List.cons_append, List.nil_append, List.tail_cons] using hparts
  rw [decode, Cursor.new, hall padding 0]
  rfl

end PowSubmit
end WaviclesPrime.Wire
