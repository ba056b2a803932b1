import WaviclesPrime.Wire.CoinbaseFormat

/-! A gateway-shaped coinbase, split around its extranonce slot and put back together. -/
namespace WaviclesPrime.Wire

/-- The height in as few bytes as it takes, one at least, behind their count. -/
def heightPush (height : UInt32) : Bytes :=
  let bytes := LittleEndian.write 4 height.toNat
  let n := max (4 - (bytes.reverse.takeWhile (· == 0)).length) 1
  UInt8.ofNat n :: bytes.take n

/-- A coinbase with a height, a tag, a target byte of ones and an extranonce slot, and the place of the
target byte. -/
def build (height : UInt32) (tag : Bytes) (outputs : List TxOut) (lockTime : UInt32) : Bytes × Nat :=
  let head := heightPush height ++ [UInt8.ofNat (tag.length + 1 + extranonceSlot)] ++ tag
  let sig := head ++ [0xff] ++ List.replicate extranonceSlot 0
  let before := LittleEndian.write 4 1 ++ [1] ++ List.replicate 32 0 ++ List.replicate 4 0xff ++
    writeVarint sig.length
  (before ++ sig ++ LittleEndian.write 4 0xffffffff ++ writeVarint outputs.length ++
    outputs.flatMap serializeOutput ++ LittleEndian.write 4 lockTime.toNat, before.length + head.length)

/-- The count of a pushed height is right, and what it leaves out is zero. -/
theorem heightPush_count (bytes : Bytes) (h : bytes.length = 4) :
    ∃ n, max (4 - (bytes.reverse.takeWhile (· == 0)).length) 1 = n ∧ 1 ≤ n ∧ n ≤ 4 ∧ ∀ b ∈ bytes.drop n, b = 0 := by
  refine ⟨_, rfl, Nat.le_max_right _ _, by omega, fun b hb => ?_⟩
  generalize hk : (bytes.reverse.takeWhile (· == 0)).length = k at hb
  have hmem : b ∈ bytes.reverse.take k := by
    rw [List.take_reverse, h, List.mem_reverse]
    exact List.mem_of_mem_drop (i := max (4 - k) 1 - (4 - k)) (by
      rwa [List.drop_drop, Nat.add_sub_cancel' (Nat.le_max_left _ _)])
  rw [← hk, ← List.prefix_iff_eq_take.mp (List.takeWhile_prefix _)] at hmem
  simpa using List.all_eq_true.mp List.all_takeWhile b hmem

theorem bip34Height_push (height : UInt32) (rest : Bytes) : bip34Height (heightPush height ++ rest) = some height := by
  have hlen : (LittleEndian.write 4 height.toNat).length = 4 := LittleEndian.length_write 4 _
  obtain ⟨n, hn, hone, hfour, hzeros⟩ := heightPush_count _ hlen
  have hbyte : (UInt8.ofNat n).toNat = n := UInt8.toNat_ofNat_of_lt' (by change n < 256; omega)
  have htake : ((LittleEndian.write 4 height.toNat).take n).length = n := List.length_take_of_le (hlen ▸ hfour)
  have hsmall : ¬ (0x51 ≤ UInt8.ofNat n ∧ UInt8.ofNat n ≤ 0x60) := by
    rw [UInt8.le_iff_toNat_le, hbyte]
    exact fun h => absurd (h.1.trans hfour) (by decide)
  have hpush : 1 ≤ UInt8.ofNat n ∧ UInt8.ofNat n ≤ 4 := by
    rw [UInt8.le_iff_toNat_le, UInt8.le_iff_toNat_le, hbyte]
    exact ⟨hone, hfour⟩
  unfold heightPush
  dsimp only
  rw [hn, List.cons_append, bip34Height, if_neg hsmall, if_pos hpush, hbyte, List.length_append, htake,
    if_neg (by omega), List.take_left' htake, LittleEndian.read_take_of_zeros hzeros,
    LittleEndian.read_write height.toNat_lt, UInt32.ofNat_toNat]

theorem length_heightPush (height : UInt32) : 2 ≤ (heightPush height).length ∧ (heightPush height).length ≤ 5 := by
  obtain ⟨n, hn, hone, hfour, -⟩ := heightPush_count _ (LittleEndian.length_write 4 height.toNat)
  unfold heightPush
  dsimp only
  rw [hn, List.length_cons, List.length_take, LittleEndian.length_write]
  omega

/-- A tag that leaves room, and outputs as the format has them. -/
structure Buildable (tag : Bytes) (outputs : List TxOut) : Prop where
  tag_le : tag.length ≤ 81
  count : 1 ≤ outputs.length ∧ outputs.length ≤ 10000
  outputs_fit : ∀ o ∈ outputs, o.value < 2 ^ 64 ∧ o.script.length ≤ 10000

section
variable (height : UInt32) (tag : Bytes) {outputs : List TxOut} (lockTime : UInt32)

/-- The pushes before the target byte. -/
def sigHead : Bytes := heightPush height ++ [UInt8.ofNat (tag.length + 1 + extranonceSlot)] ++ tag

/-- The coinbase that is built, with any target byte. -/
def builtWith (hb : Buildable tag outputs) (target : UInt8) : LegacyCoinbase where
  version := 1
  scriptSig := sigHead height tag ++ [target] ++ List.replicate extranonceSlot 0
  sequence := 0xffffffff
  outputs := outputs
  lockTime := lockTime
  sig_length := by
    have hpush := length_heightPush height
    have htag := hb.tag_le
    simp only [sigHead, List.length_append, List.length_replicate, List.length_singleton, extranonceSlot]
    omega
  count := hb.count
  outputs_fit := hb.outputs_fit

end

variable {height : UInt32} {tag : Bytes} {outputs : List TxOut} {lockTime : UInt32}

/-- What is built, cut at the target byte and after the extranonce slot. -/
theorem build_pieces (hb : Buildable tag outputs) (height lockTime : UInt32) : ∃ before after : Bytes,
    build height tag outputs lockTime =
      (before ++ [0xff] ++ List.replicate extranonceSlot 0 ++ after, before.length) ∧ before ≠ [] ∧
    ∀ target, (builtWith height tag lockTime hb target).serialize =
      before ++ [target] ++ List.replicate extranonceSlot 0 ++ after := by
  let sigLength := (sigHead height tag ++ [0xff] ++ List.replicate extranonceSlot 0).length
  let before := LittleEndian.write 4 1 ++ [1] ++ nullOutpoint ++ writeVarint sigLength ++ sigHead height tag
  let after := LittleEndian.write 4 0xffffffff ++ writeVarint outputs.length ++
    outputs.flatMap serializeOutput ++ LittleEndian.write 4 lockTime.toNat
  refine ⟨before, after, ?_, by simp [before], fun target => ?_⟩
  · unfold build
    refine Prod.ext ?_ ?_
    · simp only [before, after, sigLength, sigHead, nullOutpoint, List.append_assoc]
    · simp only [before, sigLength, sigHead, nullOutpoint, List.append_assoc, List.length_append, Nat.add_assoc]
  · have hlength : (sigHead height tag ++ [target] ++ List.replicate extranonceSlot 0).length = sigLength := by
      simp only [sigLength, List.length_append, List.length_singleton]
    have hone : writeVarint 1 = [1] := by decide
    have hversion : (builtWith height tag lockTime hb target).version.toNat = 1 := rfl
    have hsequence : (builtWith height tag lockTime hb target).sequence.toNat = 0xffffffff := rfl
    have hsig : (builtWith height tag lockTime hb target).scriptSig =
        sigHead height tag ++ [target] ++ List.replicate extranonceSlot 0 := rfl
    have houtputs : (builtWith height tag lockTime hb target).outputs = outputs := rfl
    have hlock : (builtWith height tag lockTime hb target).lockTime = lockTime := rfl
    unfold LegacyCoinbase.serialize LegacyCoinbase.bytes
    rw [hversion, hsequence, hsig, houtputs, hlock, hlength, hone]
    simp only [before, after, List.append_assoc]

/-- Split where a gateway splits it, a built coinbase is put back together and parsed as it was built,
with the target byte in it. -/
theorem build_reassembled (hb : Buildable tag outputs) (height lockTime : UInt32) (target : UInt8) :
    let (bytes, index) := build height tag outputs lockTime
    let again := assemble (bytes.take (index + 1)) (bytes.drop (index + 1 + extranonceSlot)) index target
    again = bytes.set index target ∧
      ∃ cb, parse again = .ok cb ∧ cb.outputs = outputs ∧ cb.height = some height ∧ cb.lockTime = lockTime := by
  obtain ⟨before, after, hbuild, hne, hserialize⟩ := build_pieces hb height lockTime
  rw [hbuild]
  dsimp only
  have htake : (before ++ [0xff] ++ List.replicate extranonceSlot 0 ++ after).take (before.length + 1) =
      before ++ [0xff] := by
    rw [List.append_assoc]
    exact List.take_left' (by simp)
  have hdrop : (before ++ [0xff] ++ List.replicate extranonceSlot 0 ++ after).drop
      (before.length + 1 + extranonceSlot) = after := List.drop_left' (by simp; omega)
  have hset (x : UInt8) : (before ++ [x] ++ List.replicate extranonceSlot 0 ++ after).set before.length target =
      before ++ [target] ++ List.replicate extranonceSlot 0 ++ after := by
    simp
  have hindex : before.length ≠ 0 := fun h => hne (List.length_eq_zero_iff.mp h)
  have hagain : assemble (before ++ [0xff]) after before.length target =
      before ++ [target] ++ List.replicate extranonceSlot 0 ++ after := by
    rw [assemble, if_neg fun h => hindex h.2]
    dsimp only
    rw [if_pos (by simp), hset]
  rw [htake, hdrop, hagain, hset]
  refine ⟨rfl, ?_⟩
  rw [← hserialize]
  obtain ⟨outputsAt, hparse⟩ := parse_spelled (builtWith height tag lockTime hb target).spells_serialize
  refine ⟨_, hparse, rfl, ?_, rfl⟩
  change bip34Height (sigHead height tag ++ [target] ++ List.replicate extranonceSlot 0) = some height
  unfold sigHead
  simp only [List.append_assoc]
  exact bip34Height_push height _

theorem build_reassembled_sample :
    let (bytes, index) := build 966267 [0x4c, 0x61, 0x7a] [⟨100, [0x51, 9]⟩] 0
    ∃ cb, parse (assemble (bytes.take (index + 1)) (bytes.drop (index + 1 + extranonceSlot)) index 9) = .ok cb ∧
      cb.outputs = [⟨100, [0x51, 9]⟩] ∧ cb.height = some 966267 ∧ cb.lockTime = 0 :=
  (@build_reassembled [0x4c, 0x61, 0x7a] [⟨100, [0x51, 9]⟩] ⟨by decide, by decide, by simp⟩ 966267 0 9).2

end WaviclesPrime.Wire
