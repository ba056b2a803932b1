import WaviclesPrime.Wire.TargetByte

/-! The work a share is credited with, and the work its hash shows. -/
namespace WaviclesPrime.Wire
open LittleEndian

/-- The comparison from the top is that of the numbers. -/
theorem leFromTop_iff {as bs : Bytes} (h : as.length = bs.length) :
    leFromTop as bs = true ↔ LittleEndian.read as.reverse ≤ LittleEndian.read bs.reverse := by
  induction as generalizing bs with
  | nil =>
    obtain rfl : bs = [] := List.length_eq_zero_iff.mp h.symm
    simp [leFromTop]
  | cons a as ih =>
    cases bs with
    | nil => cases h
    | cons b bs =>
      have hlen : as.length = bs.length := Nat.succ.inj h
      have ha := read_lt as.reverse
      have hb := read_lt bs.reverse
      rw [List.length_reverse] at ha hb
      rw [← hlen] at hb
      rw [leFromTop, List.reverse_cons, List.reverse_cons, read_append, read_append, List.length_reverse,
        List.length_reverse, ← hlen, read_singleton, read_singleton]
      split
      next hne =>
        have hne' : a.toNat ≠ b.toNat := fun heq => hne (UInt8.toNat_inj.mp heq)
        rw [decide_eq_true_iff, UInt8.lt_iff_toNat_lt]
        obtain hlt | hlt := Nat.lt_or_gt_of_ne hne'
        · have hmul := Nat.mul_le_mul_left (256 ^ as.length) (Nat.succ_le_of_lt hlt)
          rw [Nat.mul_succ] at hmul
          omega
        · have hmul := Nat.mul_le_mul_left (256 ^ as.length) (Nat.succ_le_of_lt hlt)
          rw [Nat.mul_succ] at hmul
          omega
      next heq =>
        obtain rfl : a = b := not_not.mp heq
        rw [ih hlen]
        omega

theorem meetsTarget_iff {hash target : Bytes} (h : hash.length = target.length) :
    meetsTarget hash target = true ↔ LittleEndian.read hash ≤ LittleEndian.read target := by
  have hrev : hash.reverse.length = target.reverse.length := by rwa [List.length_reverse, List.length_reverse]
  rw [meetsTarget, leFromTop_iff hrev, List.reverse_reverse, List.reverse_reverse]

@[simp] theorem length_shrBits (rem : UInt8) (n : Bytes) : (shrBits rem n).length = n.length := by
  induction n with
  | nil => rfl
  | cons x rest ih =>
    cases rest with
    | nil => rfl
    | cons y rest => rw [shrBits, List.length_cons, ih, List.length_cons (a := x)]

/-- One byte of a shift: its own high bits, under the low bits of the next. -/
theorem shr_byte {rem : UInt8} (hpos : 0 < rem.toNat) (hlt : rem.toNat < 8) (x y : UInt8) :
    ((x >>> rem) ||| (y <<< (8 - rem))).toNat =
      x.toNat / 2 ^ rem.toNat + 2 ^ (8 - rem.toNat) * (y.toNat % 2 ^ rem.toNat) := by
  have hsub : (8 - rem).toNat = 8 - rem.toNat :=
    UInt8.toNat_sub_of_le _ _ (UInt8.le_iff_toNat_le.mpr hlt.le)
  have hx : x.toNat / 2 ^ rem.toNat < 2 ^ (8 - rem.toNat) := by
    rw [Nat.div_lt_iff_lt_mul (Nat.two_pow_pos _), ← Nat.pow_add, Nat.sub_add_cancel hlt.le]
    exact x.toNat_lt
  have hy : y.toNat * 2 ^ (8 - rem.toNat) % 2 ^ 8 = 2 ^ (8 - rem.toNat) * (y.toNat % 2 ^ rem.toNat) := by
    rw [← Nat.mul_mod_mul_left, ← Nat.pow_add, Nat.sub_add_cancel hlt.le, Nat.mul_comm]
  rw [UInt8.toNat_or, UInt8.toNat_shiftRight, UInt8.toNat_shiftLeft, hsub, Nat.mod_eq_of_lt hlt,
    Nat.mod_eq_of_lt (by omega : 8 - rem.toNat < 8), Nat.shiftRight_eq_div_pow, Nat.shiftLeft_eq, hy,
    Nat.or_comm, ← Nat.two_pow_add_eq_or_of_lt hx, Nat.add_comm]

/-- A shift by bits divides by the power of two. -/
theorem read_shrBits {rem : UInt8} (hpos : 0 < rem.toNat) (hlt : rem.toNat < 8) (n : Bytes) :
    LittleEndian.read (shrBits rem n) = LittleEndian.read n / 2 ^ rem.toNat := by
  induction n with
  | nil => simp [shrBits, LittleEndian.read]
  | cons x rest ih =>
    cases rest with
    | nil =>
      rw [shrBits, read_singleton, read_singleton, UInt8.toNat_shiftRight, Nat.mod_eq_of_lt hlt,
        Nat.shiftRight_eq_div_pow]
    | cons y rest =>
      have hpow : 2 ^ rem.toNat * 2 ^ (8 - rem.toNat) = 256 := by
        rw [← Nat.pow_add, Nat.add_sub_cancel' hlt.le]
      have htail (r : Nat) : (y.toNat + 256 * r) % 2 ^ rem.toNat = y.toNat % 2 ^ rem.toNat := by
        rw [← hpow, Nat.mul_assoc, Nat.add_mul_mod_self_left]
      rw [shrBits, LittleEndian.read, ih, shr_byte hpos hlt]
      simp only [LittleEndian.read]
      generalize LittleEndian.read rest = r
      have hdivide := Nat.div_add_mod (y.toNat + 256 * r) (2 ^ rem.toNat)
      rw [htail] at hdivide
      calc x.toNat / 2 ^ rem.toNat + 2 ^ (8 - rem.toNat) * (y.toNat % 2 ^ rem.toNat) +
            256 * ((y.toNat + 256 * r) / 2 ^ rem.toNat)
          = x.toNat / 2 ^ rem.toNat + 2 ^ (8 - rem.toNat) *
            (2 ^ rem.toNat * ((y.toNat + 256 * r) / 2 ^ rem.toNat) + y.toNat % 2 ^ rem.toNat) := by
              rw [← hpow]; ring
        _ = x.toNat / 2 ^ rem.toNat + 2 ^ (8 - rem.toNat) * (y.toNat + 256 * r) := by rw [hdivide]
        _ = (x.toNat + 2 ^ rem.toNat * (2 ^ (8 - rem.toNat) * (y.toNat + 256 * r))) / 2 ^ rem.toNat :=
              (Nat.add_mul_div_left _ _ (Nat.two_pow_pos _)).symm
        _ = (x.toNat + 256 * (y.toNat + 256 * r)) / 2 ^ rem.toNat := by rw [← Nat.mul_assoc, hpow]

theorem length_shrLe (n : Bytes) (bits : Nat) (h : bits / 8 ≤ n.length) : (shrLe n bits).length = n.length := by
  unfold shrLe
  dsimp only
  split
  · simp [h]
  · simp [h]

theorem read_shrLe (n : Bytes) (bits : Nat) : LittleEndian.read (shrLe n bits) = LittleEndian.read n / 2 ^ bits := by
  have hmoved : LittleEndian.read (n.drop (bits / 8) ++ List.replicate (bits / 8) 0) =
      LittleEndian.read n / 2 ^ (8 * (bits / 8)) := by
    rw [read_append, read_zeros, Nat.mul_zero, Nat.add_zero, read_drop, Nat.pow_mul]
  have hbits := Nat.div_add_mod bits 8
  have hrem : (UInt8.ofNat (bits % 8)).toNat = bits % 8 := UInt8.toNat_ofNat_of_lt' ((Nat.mod_lt _ (by decide)).trans (by decide))
  unfold shrLe
  dsimp only
  split
  next hzero =>
    rw [hmoved]
    congr 2
    omega
  next hpos =>
    rw [read_shrBits (by omega) (by omega), hmoved, hrem, Nat.div_div_eq_div_mul, ← Nat.pow_add, hbits]

/-- The target of a claim is the greatest difficulty divided by it. -/
theorem read_shareTargetLe {pot : UInt8} {target : Bytes} (h : shareTargetLe pot = some target) :
    target.length = 32 ∧ LittleEndian.read target = (2 ^ 224 - 1) / 2 ^ pot.toNat := by
  have hones : LittleEndian.read (List.replicate 28 0xff) = 2 ^ 224 - 1 := Nat.eq_sub_of_add_eq (read_ones 28)
  unfold shareTargetLe at h
  split at h
  next => cases h
  next hpot =>
    obtain rfl := Option.some.inj h
    refine ⟨?_, ?_⟩
    · refine length_shrLe _ _ ?_
      have hbyte := pot.toNat_lt
      simp only [List.length_append, List.length_replicate]
      omega
    · rw [read_shrLe, read_append, read_zeros, Nat.mul_zero, Nat.add_zero, hones]

theorem length_nbitsToTargetLe {nbits : UInt32} {target : Bytes} (h : nbitsToTargetLe nbits = some target) :
    target.length = 32 := by
  unfold nbitsToTargetLe at h
  dsimp only at h
  generalize (nbits >>> 24).toNat = exp at h
  split at h
  next => cases h
  next =>
    split at h
    next =>
      obtain rfl := Option.some.inj h
      simp
    next =>
      split at h
      next => cases h
      next =>
        obtain rfl := Option.some.inj h
        simp only [List.length_append, List.length_replicate, length_write]
        omega

theorem Attempt.length_hash (H : Digests) (a : Attempt) (h2 : Hash) : (a.hash H h2).length = 32 := by
  have hmask : (xorMask H (zeros 16) 0).length = 32 := by
    rw [xorMask, if_pos (by decide)]
    rfl
  simp [hash, powHashLe, hmask]

/-- No share is credited with more than its claim. -/
theorem claimedWork_le (s : PowSubmit) : s.claimedWork ≤ 2 ^ s.targetPot.toNat := by
  unfold PowSubmit.claimedWork
  split
  next hge => exact (Nat.sub_le _ _).trans (Nat.pow_le_pow_right (by decide) (UInt8.le_iff_toNat_le.mp hge))
  next => exact Nat.le_refl _

theorem le_claimedWork {s : PowSubmit} {pot : UInt8} (hpot : pot ≤ 63) (hle : pot ≤ s.targetPot) :
    2 ^ pot.toNat ≤ s.claimedWork := by
  have h63 : pot.toNat ≤ 63 := UInt8.le_iff_toNat_le.mp hpot
  unfold PowSubmit.claimedWork
  split
  next => exact (Nat.pow_le_pow_right (by decide) h63).trans (by decide)
  next => exact Nat.pow_le_pow_right (by decide) (UInt8.le_iff_toNat_le.mp hle)

/-- What an accepted share shows: a hash under the target of its claim, and its job's bits. -/
structure Shown (job : JobSection) (s : PowSubmit) (v : VerifiedShare) : Prop where
  length : v.hash.length = 32
  le : LittleEndian.read v.hash ≤ (2 ^ 224 - 1) / 2 ^ s.targetPot.toNat
  work : v.work = s.claimedWork
  candidate : v.isBlockCandidate = (nbitsToTargetLe job.nbitsU32).any (meetsTarget v.hash)

theorem verify_shown {H : Digests} {slot next : JobSlot} {s : PowSubmit} {p : Policy} {v : VerifiedShare}
    (run : verify H slot s p = some (next, .ok v)) :
    p.minPot ≤ s.targetPot ∧ ∃ job, slot.job = some job ∧ Shown job s v := by
  obtain ⟨target, a, mid, found, parsed, kind, chosen, hpot, htarget, hproven, rfl⟩ := verify_ok run
  obtain ⟨hlength, hvalue⟩ := read_shareTargetLe htarget
  obtain ⟨before, includes, after, -, -, htried⟩ := a.tryConventions_found hproven.met
  rcases a.tryConvention_cases htried with ⟨-, hnone⟩ | ⟨c, h2, -, hchosen, hmeets, hc⟩
  · cases hnone
  obtain rfl := Option.some.inj hchosen
  have hlen : (a.hash H h2).length = 32 := a.length_hash H h2
  have hnbits : (a.patch H c).nbits = a.job.nbitsU32 := by
    obtain ⟨-, rfl⟩ | ⟨-, rfl, -⟩ := hc
    · unfold Attempt.patch
      split <;> rfl
    · unfold Attempt.patch
      split <;> rfl
  refine ⟨hpot, a.job, hproven.job, hlen, ?_, hproven.share ▸ rfl, ?_⟩
  · rw [hproven.target, meetsTarget_iff (hlen.trans hlength.symm), hvalue] at hmeets
    exact hmeets
  · change (nbitsToTargetLe (a.patch H c).nbits).any _ = _
    rw [hnbits]
    rfl

/-- A share is credited with no more work than its hash shows and no less than the least accepted,
and is a block candidate exactly if its hash is under its job's target. -/
theorem credit_le_shown {H : Digests} {slot next : JobSlot} {s : PowSubmit} {p : Policy} {v : VerifiedShare}
    (hmin : p.minPot ≤ 63) (run : verify H slot s p = some (next, .ok v)) :
    v.hash.length = 32 ∧ v.work * LittleEndian.read v.hash ≤ 2 ^ 224 - 1 ∧ 2 ^ p.minPot.toNat ≤ v.work ∧
      ∃ job, slot.job = some job ∧ (v.isBlockCandidate = true ↔
        ∃ target, nbitsToTargetLe job.nbitsU32 = some target ∧ LittleEndian.read v.hash ≤ LittleEndian.read target) := by
  obtain ⟨hpot, job, hjob, hshown⟩ := verify_shown run
  refine ⟨hshown.length, ?_, ?_, job, hjob, ?_⟩
  · rw [hshown.work]
    calc s.claimedWork * LittleEndian.read v.hash
        ≤ 2 ^ s.targetPot.toNat * ((2 ^ 224 - 1) / 2 ^ s.targetPot.toNat) :=
          Nat.mul_le_mul (claimedWork_le s) hshown.le
      _ ≤ 2 ^ 224 - 1 := Nat.mul_div_le _ _
  · rw [hshown.work]
    exact le_claimedWork hmin hpot
  · rw [hshown.candidate, Option.any_eq_true]
    refine exists_congr fun target => and_congr_right fun htarget => ?_
    exact meetsTarget_iff (hshown.length.trans (length_nbitsToTargetLe htarget).symm)

theorem credit_le_shown_sample : ∃ slot next v,
    verify zeroDigests slot (sampleShare 5 4) samplePolicy = some (next, .ok v) ∧
    v.work * LittleEndian.read v.hash ≤ 2 ^ 224 - 1 ∧ 2 ^ samplePolicy.minPot.toNat ≤ v.work := by
  obtain ⟨next, v, run, -⟩ := verified_of_legacy (H := zeroDigests) (s := sampleShare 5 4) (by decide +kernel)
  obtain ⟨-, hcredit, hwork, -⟩ := credit_le_shown (by decide) run
  exact ⟨_, next, v, run, hcredit, hwork⟩

end WaviclesPrime.Wire
