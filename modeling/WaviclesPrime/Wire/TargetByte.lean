import WaviclesPrime.Wire.Transparency

/-! The target byte: what binds a share's claimed difficulty to the bytes it hashed. -/
namespace WaviclesPrime.Wire

section
variable {coinb1 coinb2 : Bytes} {index : Nat}

/-- The shape that comes in one piece, with no byte for the target. -/
abbrev OnePiece (coinb2 : Bytes) (index : Nat) : Prop := coinb2 = [] ∧ index = 0

theorem assemble_onePiece (h : OnePiece coinb2 index) (pot : UInt8) :
    assemble coinb1 coinb2 index pot = coinb1 := if_pos h

/-- Outside the one-piece shape, the target byte can be read back where the job says it is. -/
theorem assemble_getElem? (h : ¬ OnePiece coinb2 index)
    (hi : index < coinb1.length + extranonceSlot + coinb2.length) (pot : UInt8) :
    (assemble coinb1 coinb2 index pot)[index]? = some pot := by
  have hlen : index < (coinb1 ++ List.replicate extranonceSlot 0 ++ coinb2).length := by
    simpa only [List.length_append, List.length_replicate] using hi
  rw [assemble, if_neg h, if_pos hlen]
  exact List.getElem?_set_self hlen

theorem assemble_ne (h : ¬ OnePiece coinb2 index)
    (hi : index < coinb1.length + extranonceSlot + coinb2.length) {pot pot' : UInt8}
    (hne : pot ≠ pot') :
    assemble coinb1 coinb2 index pot ≠ assemble coinb1 coinb2 index pot' := by
  intro heq
  have hget := congrArg (·[index]?) heq
  simp only [assemble_getElem? h hi, Option.some.injEq] at hget
  exact hne hget

end

section
variable {H : Digests} {slot slot' next next' : JobSlot} {job : JobSection} {sect : CoinbaseSection}

/-- Two shares that differ in their target only, and both pass on the same job and coinbase
section: the one-piece shape is taken as it is, and where the job's index lies in the coinbase
the two of any other shape hash different bytes. -/
theorem claimed_difficulty_in_bytes {ops ops' : List SlotOp} {s : PowSubmit} {pot : UInt8}
    {p p' : Policy} {v v' : VerifiedShare}
    (reach : ops.foldlM (SlotOp.step H) .default = some slot)
    (reach' : ops'.foldlM (SlotOp.step H) .default = some slot')
    (hj : slot.job = some job) (hj' : slot'.job = some job)
    (hs : slot.coinbases.get (coinbaseIdFor s) = some sect)
    (hs' : slot'.coinbases.get (coinbaseIdFor s) = some sect)
    (run : verify H slot s p = some (next, .ok v))
    (run' : verify H slot' { s with targetPot := pot } p' = some (next', .ok v'))
    (hne : pot ≠ s.targetPot) :
    (OnePiece sect.coinb2 job.targetByteIndex.toNat →
      v.coinbaseLegacy = sect.coinb1 ∧ v'.coinbaseLegacy = sect.coinb1) ∧
    (¬ OnePiece sect.coinb2 job.targetByteIndex.toNat →
      job.targetByteIndex.toNat < sect.coinb1.length + extranonceSlot + sect.coinb2.length →
      v.coinbaseLegacy ≠ v'.coinbaseLegacy) := by
  obtain ⟨j, c, hjj, hcc, hl⟩ := (verify_frame run).legacy (cbHonest_run reach) v rfl
  obtain ⟨j', c', hjj', hcc', hl'⟩ := (verify_frame run').legacy (cbHonest_run reach') v' rfl
  obtain rfl : job = j := Option.some.inj (hj.symm.trans hjj)
  obtain rfl : job = j' := Option.some.inj (hj'.symm.trans hjj')
  obtain rfl : sect = c := Option.some.inj (hs.symm.trans hcc)
  obtain rfl : sect = c' := Option.some.inj (hs'.symm.trans hcc')
  rw [hl, hl']
  exact ⟨fun h => ⟨assemble_onePiece h _, assemble_onePiece h _⟩,
    fun h hi => assemble_ne h hi (Ne.symm hne)⟩

end

/-- Digests under which any work passes. -/
def zeroDigests : Digests := ⟨fun _ => zeros 32, fun _ => zeros 32⟩

/-- A gateway's usual shape: the coinbase in two pieces around the extranonce slot. -/
def splitShare (pot : UInt8) : PowSubmit :=
  let coinb1 := [1, 0, 0, 0, 1] ++ List.replicate 32 0 ++ List.replicate 4 0xff ++ [15, 1, 7, 0]
  let coinb2 := List.replicate 4 0xff ++ [1] ++ LittleEndian.write 8 100 ++ [2, 0x51, 9] ++ [0, 0, 0, 0]
  { sampleShare 5 pot with
    job := some { sampleJob with targetByteIndex := 44 }
    coinbase := some ⟨0, coinb1, coinb2⟩ }

/-- The coinbase a share is verified against, on a slot that holds its sections. -/
def legacyOf (H : Digests) (s : PowSubmit) : Option Bytes :=
  (verify H (JobSlot.default.absorb s).1 s samplePolicy).bind fun r =>
    r.2.toOption.map VerifiedShare.coinbaseLegacy

theorem verified_of_legacy {H : Digests} {s : PowSubmit} (h : (legacyOf H s).isSome) :
    ∃ next v, verify H (JobSlot.default.absorb s).1 s samplePolicy = some (next, .ok v) ∧
      legacyOf H s = some v.coinbaseLegacy := by
  unfold legacyOf at h ⊢
  cases hv : verify H (JobSlot.default.absorb s).1 s samplePolicy with
  | none => simp [hv] at h
  | some r =>
    obtain ⟨next, r⟩ := r
    cases r with
    | error code => simp [hv, Except.toOption] at h
    | ok v => exact ⟨next, v, rfl, rfl⟩

theorem claimed_difficulty_in_bytes_split : ∃ slot slot' next next' v v',
    verify zeroDigests slot (splitShare 4) samplePolicy = some (next, .ok v) ∧
    verify zeroDigests slot' (splitShare 9) samplePolicy = some (next', .ok v') ∧
    v.coinbaseLegacy ≠ v'.coinbaseLegacy := by
  obtain ⟨next, v, run, -⟩ := verified_of_legacy (H := zeroDigests) (s := splitShare 4) (by decide +kernel)
  obtain ⟨next', v', run', -⟩ := verified_of_legacy (H := zeroDigests) (s := splitShare 9) (by decide +kernel)
  exact ⟨_, _, next, next', v, v', run, run', (claimed_difficulty_in_bytes
    (show [SlotOp.absorb (splitShare 4)].foldlM (SlotOp.step zeroDigests) .default = some _ from rfl)
    (show [SlotOp.absorb (splitShare 9)].foldlM (SlotOp.step zeroDigests) .default = some _ from rfl)
    rfl rfl rfl rfl run run' (by decide)).2 (by decide) (by decide)⟩

/-- One piece of work, presented under two claimed difficulties. -/
theorem one_piece_two_difficulties : ∃ slot slot' next next' v v',
    verify zeroDigests slot (sampleShare 5 4) samplePolicy = some (next, .ok v) ∧
    verify zeroDigests slot' { sampleShare 5 4 with targetPot := 9 } samplePolicy = some (next', .ok v') ∧
    slot.job = slot'.job ∧ slot.coinbases.get 0 = slot'.coinbases.get 0 ∧
    v.coinbaseLegacy = v'.coinbaseLegacy := by
  obtain ⟨next, v, run, hl⟩ := verified_of_legacy (H := zeroDigests) (s := sampleShare 5 4) (by decide +kernel)
  obtain ⟨next', v', run', hl'⟩ := verified_of_legacy (H := zeroDigests) (s := sampleShare 5 9) (by decide +kernel)
  have heq : legacyOf zeroDigests (sampleShare 5 4) = legacyOf zeroDigests (sampleShare 5 9) := by
    decide +kernel
  exact ⟨_, _, next, next', v, v', run, run', rfl, rfl,
    Option.some.inj (hl.symm.trans (heq.trans hl'))⟩

end WaviclesPrime.Wire
