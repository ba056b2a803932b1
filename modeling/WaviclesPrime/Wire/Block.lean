import WaviclesPrime.Wire.CoinbaseFormat
import WaviclesPrime.Wire.TargetByte

/-! The block assembled from a verified share, as a node reads it. -/
namespace WaviclesPrime.Wire

/-- One reserved value of zeros. -/
def coinbaseWitness : Bytes := [0x01, 0x20] ++ List.replicate 32 0

/-- A coinbase in segwit form. `none` is a slice out of bounds. -/
def withWitness (legacy : Bytes) (parsed : Coinbase) : Option Bytes :=
  if 4 ≤ parsed.lockTimeAt ∧ parsed.lockTimeAt ≤ legacy.length then
    some (legacy.take 4 ++ [0x00, 0x01] ++ (legacy.take parsed.lockTimeAt).drop 4 ++ coinbaseWitness ++
      legacy.drop parsed.lockTimeAt)
  else none

/-- The 164-byte header. The wire carries the last 12 bytes of the extranonce. -/
def serializeHeaderV2 (c : Commitment) (nonce8 ntime8 : ByteArr 8) (extranonce : ByteArr 12) : Bytes :=
  le32 (c.version ||| v2Bit) ++ c.prevHash.toList ++ c.merkleRoot.toList ++ le32 c.timeOnWire ++ le32 c.nbits ++
    nonce8.toList ++ ntime8.toList.drop 4 ++ List.replicate 4 0 ++ extranonce.toList ++ ntime8.toList.take 4 ++
    LittleEndian.write 2 c.txcount.toUInt16.toNat ++ [c.flags] ++ [c.xorClearBits] ++ c.xorKey.toList ++
    le32 c.height ++ c.rhs.toList

/-- A full block from a verified share and the transactions of its job. -/
def assembleBlock (v : VerifiedShare) (s : PowSubmit) (txns : List Bytes) : Option Bytes := do
  let b2 ← s.blake2b
  let cb ← withWitness v.coinbaseLegacy v.coinbase
  some (serializeHeaderV2 v.commitment b2.nonce b2.ntime s.extranonce ++ writeVarint (txns.length + 1) ++ cb ++
    txns.flatten)

/-- What a header says, its time field split around the extranonce. -/
structure HeaderFields where
  version : Nat
  prevHash : Bytes
  merkleRoot : Bytes
  time : Nat
  nbits : Nat
  nonce : Bytes
  ntime : Bytes
  extranonce : Bytes
  txcount : Nat
  flags : Nat
  xorClearBits : Nat
  xorKey : Bytes
  height : Nat
  rhs : Bytes

def readHeader : Read HeaderFields := do
  let version ← Cursor.u32
  let prevHash ← Cursor.take 32
  let merkleRoot ← Cursor.take 32
  let time ← Cursor.u32
  let nbits ← Cursor.u32
  let nonce ← Cursor.take 8
  let ntimeHigh ← Cursor.take 4
  let extranonce ← Cursor.take 16
  let ntimeLow ← Cursor.take 4
  let txcount ← Cursor.u16
  let flags ← Cursor.u8
  let xorClearBits ← Cursor.u8
  let xorKey ← Cursor.take 16
  let height ← Cursor.u32
  let rhs ← Cursor.take 32
  return {
    version, prevHash, merkleRoot, time, nbits, nonce, ntime := ntimeLow ++ ntimeHigh, extranonce, txcount, flags,
    xorClearBits, xorKey, height, rhs }

/-- What is hashed, in the terms of a header. -/
def hashedFields (c : Commitment) (b2 : Blake2bSection) (extranonce : ByteArr 12) : HeaderFields where
  version := (c.version ||| v2Bit).toNat
  prevHash := c.prevHash.toList
  merkleRoot := c.merkleRoot.toList
  time := c.timeOnWire.toNat
  nbits := c.nbits.toNat
  nonce := b2.nonce.toList
  ntime := b2.ntime.toList
  extranonce := List.replicate 4 0 ++ extranonce.toList
  txcount := c.txcount.toNat
  flags := c.flags.toNat
  xorClearBits := c.xorClearBits.toNat
  xorKey := c.xorKey.toList
  height := c.height.toNat
  rhs := c.rhs.toList

/-- The hash of a commitment under a share's grinding fields. -/
def Commitment.powHash (H : Digests) (c : Commitment) (b2 : Blake2bSection) (extranonce : ByteArr 12) : Bytes :=
  powHashLe H (workHeader (siaPrevhash H c.prevHash) b2.nonce b2.ntime (workRoot H (c.h2 H) extranonce)) c.xorKey
    c.xorClearBits

/-- The header is read back as it was hashed, but for the high half of its transaction count. -/
theorem takes_header (c : Commitment) (b2 : Blake2bSection) (extranonce : ByteArr 12) :
    Takes readHeader (serializeHeaderV2 c b2.nonce b2.ntime extranonce)
      { hashedFields c b2 extranonce with txcount := c.txcount.toNat % 2 ^ 16 } := by
  have htake {n : Nat} {bytes : Bytes} (h : bytes.length = n) : Takes (Cursor.take n) bytes bytes :=
    h ▸ Takes.take bytes
  have harray {n : Nat} (bytes : ByteArr n) : Takes (Cursor.take n) bytes.toList bytes.toList := htake bytes.2
  have hbytes : serializeHeaderV2 c b2.nonce b2.ntime extranonce =
      le32 (c.version ||| v2Bit) ++ (c.prevHash.toList ++ (c.merkleRoot.toList ++ (le32 c.timeOnWire ++
        (le32 c.nbits ++ (b2.nonce.toList ++ (b2.ntime.toList.drop 4 ++ ((List.replicate 4 0 ++ extranonce.toList) ++
        (b2.ntime.toList.take 4 ++ (LittleEndian.write 2 c.txcount.toUInt16.toNat ++ ([c.flags] ++
        ([c.xorClearBits] ++ (c.xorKey.toList ++ (le32 c.height ++ (c.rhs.toList ++ [])))))))))))))) := by
    simp only [serializeHeaderV2, List.append_assoc, List.append_nil]
  have hntime : b2.ntime.toList.length = 8 := b2.ntime.2
  rw [hbytes]
  unfold readHeader
  refine (Takes.uint 4 (c.version ||| v2Bit).toNat_lt).bind ?_
  refine (harray c.prevHash).bind ?_
  refine (harray c.merkleRoot).bind ?_
  refine (Takes.uint 4 c.timeOnWire.toNat_lt).bind ?_
  refine (Takes.uint 4 c.nbits.toNat_lt).bind ?_
  refine (harray b2.nonce).bind ?_
  refine (htake (by rw [List.length_drop, hntime])).bind ?_
  refine (htake (by rw [List.length_append, List.length_replicate, extranonce.toList_length])).bind ?_
  refine (htake (by rw [List.length_take, hntime]; rfl)).bind ?_
  refine (Takes.uint 2 c.txcount.toUInt16.toNat_lt).bind ?_
  refine (Takes.u8 c.flags).bind ?_
  refine (Takes.u8 c.xorClearBits).bind ?_
  refine (harray c.xorKey).bind ?_
  refine (Takes.uint 4 c.height.toNat_lt).bind ?_
  refine (harray c.rhs).bind ?_
  rw [List.take_append_drop, UInt32.toNat_toUInt16]
  exact .ret _

theorem length_serializeHeaderV2 (c : Commitment) (nonce8 ntime8 : ByteArr 8) (extranonce : ByteArr 12) :
    (serializeHeaderV2 c nonce8 ntime8 extranonce).length = 164 := by
  simp [serializeHeaderV2, le32]

/-- A coinbase in segwit form is one in legacy form with a marker, a flag and a witness put in. -/
def Spliced (legacy coinbase : Bytes) : Prop := ∃ version body lockTime : Bytes,
  version.length = 4 ∧ lockTime.length = 4 ∧ legacy = version ++ body ++ lockTime ∧
    coinbase = version ++ [0x00, 0x01] ++ body ++ coinbaseWitness ++ lockTime

/-- The witness goes in before the lock time of a parsed coinbase. -/
theorem withWitness_spliced {legacy : Bytes} {parsed : Coinbase} (h : parse legacy = .ok parsed) :
    ∃ coinbase, withWitness legacy parsed = some coinbase ∧ Spliced legacy coinbase := by
  obtain ⟨t, hspells, -⟩ := spelled_of_parse h
  obtain ⟨outputsAt, hparse⟩ := parse_spelled hspells
  obtain rfl := Except.ok.inj (h.symm.trans hparse)
  have hlength : 8 ≤ legacy.length := by
    cases hspells
    simp only [LegacyCoinbase.bytes, List.length_append, LittleEndian.length_write]
    omega
  have hat : (t.parsed outputsAt (legacy.length - 4)).lockTimeAt = legacy.length - 4 := rfl
  rw [withWitness, hat, if_pos (by omega)]
  refine ⟨_, rfl, legacy.take 4, (legacy.take (legacy.length - 4)).drop 4, legacy.drop (legacy.length - 4), ?_, ?_, ?_,
    rfl⟩
  · rw [List.length_take]
    omega
  · rw [List.length_drop]
    omega
  · have hhead : legacy.take 4 = (legacy.take (legacy.length - 4)).take 4 := by
      rw [List.take_take, Nat.min_eq_left (by omega)]
    rw [hhead, List.take_append_drop, List.take_append_drop]

/-- What a share and its slot put into a header, whatever the reading of the transaction count. -/
def JobSlot.attempt? (slot : JobSlot) (s : PowSubmit) : Option Attempt := do
  let b2 ← s.blake2b
  let timeOnWire ← s.timeOnWire
  let job ← slot.job
  let sect ← slot.coinbases.get (coinbaseIdFor s)
  let target ← shareTargetLe s.targetPot
  some ⟨s, b2, job, assemble sect.coinb1 sect.coinb2 job.targetByteIndex.toNat s.targetPot, timeOnWire, target⟩

/-- Under this reading the header's hash is under the target. -/
def Attempt.underTarget (H : Digests) (a : Attempt) (includes : Bool) : Bool :=
  meetsTarget (a.hash H ((a.commitment includes (a.merkleRoot H)).h2 H)) a.target

/-- The transaction count of the header that was mined: that of the first reading, among those the slot
allows, under which the header is under the target. -/
def minedCount (H : Digests) (slot : JobSlot) (s : PowSubmit) : Option UInt32 := do
  let a ← slot.attempt? s
  ((conventions slot.txcountIncludesCoinbase).find? (a.underTarget H)).map a.txcount

/-- What a node finds in an assembled block: a header with these fields, a count, the coinbase and the
transactions. The share's hash is that of its commitment, and its coinbase the leaf of the merkle root. -/
structure NodeReads (H : Digests) (slot : JobSlot) (s : PowSubmit) (v : VerifiedShare) (txns : List Bytes)
    (b2 : Blake2bSection) (job : JobSection) (fields : HeaderFields) (count coinbase : Bytes) : Prop where
  blake2b : s.blake2b = some b2
  ofJob : slot.job = some job
  hash : v.hash = v.commitment.powHash H b2 s.extranonce
  block : ∃ block, assembleBlock v s txns = some block ∧
    readHeader ⟨block, 0⟩ = .ok (fields, ⟨count ++ coinbase ++ txns.flatten, 164⟩)
  spliced : Spliced v.coinbaseLegacy coinbase
  root : v.commitment.merkleRoot = merkleRoot H (sha256d H v.coinbaseLegacy) job.merkleBranches

/-- The assembled block is the one that was mined: its header says what was hashed, and its count is that
of the transactions with the coinbase. -/
def Mined (H : Digests) (slot : JobSlot) (s : PowSubmit) (v : VerifiedShare) (txns : List Bytes) : Prop :=
  ∃ b2 job count coinbase,
    NodeReads H slot s v txns b2 job (hashedFields v.commitment b2 s.extranonce) count coinbase ∧
      Takes readVarint count (txns.length + 1)

section
variable {H : Digests} {slot next : JobSlot} {s : PowSubmit} {p : Policy} {v : VerifiedShare}

/-- Without cached commitment hashes a reading is judged by its own header. -/
theorem tryConvention_uncached (a : Attempt) (hh2 : slot.h2Cache = .empty) (includes : Bool) :
    (a.tryConvention H slot includes).2 = if a.underTarget H includes then
      some (a.commitment includes (a.merkleRoot H), a.hash H ((a.commitment includes (a.merkleRoot H)).h2 H), includes)
    else none := by
  unfold Attempt.tryConvention Attempt.underTarget
  rw [hh2, KeyMap.get_empty]
  dsimp only
  split <;> rfl

/-- What was hashed for a share accepted on a slot without caches. -/
theorem verify_hashed (hh2 : slot.h2Cache = .empty) (hcb : slot.cbCache = .empty)
    (run : verify H slot s p = some (next, .ok v)) :
    ∃ (a : Attempt) (includes : Bool), a.share = s ∧ s.blake2b = some a.b2 ∧ slot.job = some a.job ∧
      minedCount H slot s = some (a.txcount includes) ∧
      v.commitment = a.commitment includes (a.merkleRoot H) ∧ v.hash = a.hash H (v.commitment.h2 H) ∧
      v.coinbaseLegacy = a.legacy ∧ parse a.legacy = .ok v.coinbase := by
  obtain ⟨target, a, mid, found, parsed, kind, chosen, -, htarget, hproven, rfl⟩ := verify_ok run
  have hsection := openCoinbase_result (fun _ _ => hcb ▸ KeyMap.sound_empty) hproven.job s
  obtain ⟨cache, hmid, -⟩ := openCoinbase_frame hproven.job s
  rw [hproven.opened] at hsection hmid
  obtain ⟨sect, hsect, hbuilt⟩ := sectionCoinbase_ok hsection.symm
  obtain ⟨hlegacy, hparse⟩ := buildCoinbase_ok hbuilt
  dsimp only at hmid hlegacy hparse
  subst hmid
  obtain ⟨before, includes, after, horder, hbefore, htried⟩ := a.tryConventions_found hproven.met
  have hcache : ({ slot with cbCache := cache } : JobSlot).h2Cache = .empty := hh2
  have hchosen := congrArg Prod.snd htried
  rw [tryConvention_uncached a hcache] at hchosen
  split at hchosen
  next hunder =>
    obtain rfl := Option.some.inj hchosen
    have hattempt : slot.attempt? s = some a := by
      unfold JobSlot.attempt?
      rw [hproven.blake2b, hproven.timeOnWire, hproven.job]
      simp only [Option.bind_eq_bind, Option.bind_some, hsect, htarget, ← hlegacy]
      exact congrArg₂ (fun share target => some (Attempt.mk share a.b2 a.job a.legacy a.timeOnWire target))
        hproven.share.symm hproven.target.symm
    have hfirst : (conventions slot.txcountIncludesCoinbase).find? (a.underTarget H) = some includes := by
      refine List.find?_eq_some_iff_append.mpr ⟨hunder, before, after, horder, fun i hi => ?_⟩
      have hnone := hbefore i hi
      rw [tryConvention_uncached a hcache] at hnone
      split at hnone
      next => cases hnone
      next hover => simpa using hover
    have hpatch : a.patch H (a.commitment includes (a.merkleRoot H)) = a.commitment includes (a.merkleRoot H) := by
      unfold Attempt.patch
      split <;> rfl
    refine ⟨a, includes, hproven.share, hproven.blake2b, hproven.job, ?_, hpatch, ?_, rfl, hparse⟩
    · unfold minedCount
      rw [hattempt, Option.bind_eq_bind, Option.bind_some, hfirst]
      rfl
    · change a.hash H _ = a.hash H ((a.patch H (a.commitment includes (a.merkleRoot H))).h2 H)
      rw [hpatch]
  next => cases hchosen

/-- The assembled block says all that was hashed, but for the high half of the transaction count. -/
theorem assembled_low (hh2 : slot.h2Cache = .empty) (hcb : slot.cbCache = .empty)
    (run : verify H slot s p = some (next, .ok v)) (txns : List Bytes) :
    minedCount H slot s = some v.commitment.txcount ∧ ∃ b2 job coinbase,
      NodeReads H slot s v txns b2 job { hashedFields v.commitment b2 s.extranonce with
        txcount := v.commitment.txcount.toNat % 2 ^ 16 } (writeVarint (txns.length + 1)) coinbase := by
  obtain ⟨a, includes, rfl, hb2, hjob, hcount, hcommitment, hhash, hlegacy, hparse⟩ := verify_hashed hh2 hcb run
  obtain ⟨coinbase, hwitness, hspliced⟩ := withWitness_spliced hparse
  have hread := takes_header v.commitment a.b2 a.share.extranonce
    (writeVarint (txns.length + 1) ++ coinbase ++ txns.flatten) 0
  rw [length_serializeHeaderV2, Nat.zero_add] at hread
  refine ⟨?_, a.b2, a.job, coinbase, hb2, hjob, ?_, ⟨_, ?_, hread⟩, hlegacy ▸ hspliced, ?_⟩
  · rw [hcount, hcommitment]
    rfl
  · rw [hhash, hcommitment]
    rfl
  · unfold assembleBlock
    rw [hb2, hlegacy]
    simp only [Option.bind_eq_bind, Option.bind_some, hwitness, List.append_assoc]
  · rw [hcommitment, hlegacy]
    rfl

/-- A block that was mined had a count that fits two bytes. -/
theorem Mined.count_lt {txns : List Bytes} (h : Mined H slot s v txns) (hh2 : slot.h2Cache = .empty)
    (hcb : slot.cbCache = .empty) (run : verify H slot s p = some (next, .ok v)) {n : UInt32}
    (hn : minedCount H slot s = some n) : n.toNat < 2 ^ 16 := by
  obtain ⟨hcount, b2, job, coinbase, hlow⟩ := assembled_low hh2 hcb run txns
  obtain ⟨b2', job', count, coinbase', hmined, -⟩ := h
  obtain ⟨block, hblock, hread⟩ := hlow.block
  obtain ⟨block', hblock', hread'⟩ := hmined.block
  obtain rfl := Option.some.inj (hblock.symm.trans hblock')
  obtain rfl := Option.some.inj (hcount.symm.trans hn)
  have hfields := congrArg HeaderFields.txcount (Prod.mk.inj (Except.ok.inj (hread.symm.trans hread'))).1
  have hmod : v.commitment.txcount.toNat % 2 ^ 16 = v.commitment.txcount.toNat := hfields
  exact hmod ▸ Nat.mod_lt _ (by decide)

/-- The assembled block is the one that was mined exactly if the transaction count that was hashed fits
the header's two bytes. -/
theorem mined_iff (hh2 : slot.h2Cache = .empty) (hcb : slot.cbCache = .empty)
    (run : verify H slot s p = some (next, .ok v)) {txns : List Bytes} (htxns : txns.length + 1 < 2 ^ 64) :
    Mined H slot s v txns ↔ ∀ n, minedCount H slot s = some n → n.toNat < 2 ^ 16 := by
  refine ⟨fun h n hn => h.count_lt hh2 hcb run hn, fun hfits => ?_⟩
  obtain ⟨hcount, b2, job, coinbase, hlow⟩ := assembled_low hh2 hcb run txns
  rw [Nat.mod_eq_of_lt (hfits _ hcount)] at hlow
  exact ⟨b2, job, _, coinbase, hlow, (compactSize_writeVarint htxns).takes⟩

end

/-- A share of a job with so many transactions. -/
def countedShare (n : UInt32) : PowSubmit :=
  { sampleShare 5 4 with job := some { sampleJob with txnCount := n } }

theorem mined_sample : ∃ v, Mined zeroDigests (JobSlot.default.absorb (countedShare 0)).1 (countedShare 0) v [] := by
  obtain ⟨next, v, run, -⟩ := verified_of_legacy (H := zeroDigests) (s := countedShare 0) (by decide +kernel)
  refine ⟨v, (mined_iff rfl rfl run (by decide)).mpr fun n hn => ?_⟩
  have hone : minedCount zeroDigests (JobSlot.default.absorb (countedShare 0)).1 (countedShare 0) = some 1 := by
    decide +kernel
  obtain rfl := Option.some.inj (hone.symm.trans hn)
  decide

/-- The header of a block of 65536 transactions says that there are none. -/
theorem full_count_not_mined : ∃ next v,
    verify zeroDigests (JobSlot.default.absorb (countedShare 65535)).1 (countedShare 65535) samplePolicy
      = some (next, .ok v) ∧
    ¬ Mined zeroDigests (JobSlot.default.absorb (countedShare 65535)).1 (countedShare 65535) v [] := by
  obtain ⟨next, v, run, -⟩ := verified_of_legacy (H := zeroDigests) (s := countedShare 65535) (by decide +kernel)
  refine ⟨next, v, run, fun h => ?_⟩
  have hfull : minedCount zeroDigests (JobSlot.default.absorb (countedShare 65535)).1 (countedShare 65535)
      = some 65536 := by decide +kernel
  exact absurd (h.count_lt rfl rfl run hfull) (by decide)

end WaviclesPrime.Wire
