import Mathlib.Data.UInt
import WaviclesPrime.Wire.CoinbaseCache

/-! What the caches of a slot may answer, and when they answer as if they were not there. -/
namespace WaviclesPrime.Wire

/-- The time and flags of the shares on one job, coinbase section, target byte and version. -/
abbrev Stamp := JobSection → CoinbaseSection → UInt8 → UInt32 → UInt32 × UInt8

/-- A share carries the time and flags of its stamp. -/
def Stamped (τ : Stamp) (slot : JobSlot) (s : PowSubmit) : Prop :=
  ∀ job sect t, slot.job = some job → slot.coinbases.get (coinbaseIdFor s) = some sect →
    s.timeOnWire = some t → τ job sect s.targetPot s.version = (t, s.headerFlags)

/-- An attempt on this job and section, under the stamp. -/
structure Attempt.Fits (a : Attempt) (τ : Stamp) (job : JobSection) (sect : CoinbaseSection) : Prop where
  onJob : a.job = job
  legacy : a.legacy = assemble sect.coinb1 sect.coinb2 job.targetByteIndex.toNat a.share.targetPot
  stamp : τ job sect a.share.targetPot a.share.version = (a.timeOnWire, a.share.headerFlags)

def Attempt.fullCommitment (H : Digests) (a : Attempt) (includes : Bool) : Commitment :=
  a.commitment includes (a.merkleRoot H)

/-- A stored hash is the one every stamped attempt under its key computes. -/
def Answers (H : Digests) (τ : Stamp) (job : JobSection) (coinbases : KeyMap UInt8 CoinbaseSection)
    (k : H2Key) (h : Hash) : Prop :=
  ∀ (a : Attempt) (includes : Bool) (sect : CoinbaseSection), coinbases.get k.1 = some sect →
    a.Fits τ job sect → a.key includes = k → h = (a.fullCommitment H includes).h2 H

structure Valid (H : Digests) (τ : Stamp) (slot : JobSlot) : Prop where
  cb : CbHonest slot
  h2 : ∀ job, slot.job = some job → slot.h2Cache.Sound (Answers H τ job slot.coinbases)

section
variable {H : Digests} {τ : Stamp} {slot : JobSlot}

/-- The key and the stamp determine everything the header commits to. -/
theorem fullCommitment_congr {a b : Attempt} {i j : Bool} {job : JobSection} {sect : CoinbaseSection}
    (ha : a.Fits τ job sect) (hb : b.Fits τ job sect) (hk : a.key i = b.key j) :
    a.fullCommitment H i = b.fullCommitment H j := by
  simp only [Attempt.key, Prod.mk.injEq] at hk
  obtain ⟨-, hpot, htx, hver⟩ := hk
  have hlegacy : a.legacy = b.legacy := by rw [ha.legacy, hb.legacy, hpot]
  have hjob : a.job = b.job := ha.onJob.trans hb.onJob.symm
  have hstamp : (a.timeOnWire, a.share.headerFlags) = (b.timeOnWire, b.share.headerFlags) := by
    rw [← ha.stamp, ← hb.stamp, hpot, hver]
  obtain ⟨htime, hflags⟩ := Prod.mk.injEq .. ▸ hstamp
  simp only [Attempt.fullCommitment, Attempt.commitment, Attempt.merkleRoot, hlegacy, hjob, hver,
    htx, htime, hflags]

theorem valid_default : Valid H τ .default where
  cb := cbHonest_default
  h2 := fun _ h => by simp [JobSlot.default] at h

private theorem Valid.replace (h : Valid H τ slot) {id : UInt8}
    {coinbases : KeyMap UInt8 CoinbaseSection}
    (hsame : ∀ k, k ≠ id → coinbases.get k = slot.coinbases.get k) :
    Valid H τ ({ slot with coinbases := coinbases }.dropDerived id) where
  cb := h.cb.replace hsame
  h2 := fun job hj => (h.h2 job hj).retain fun k v hkeep hans a includes sect hs =>
    hans a includes sect ((hsame _ (by simpa using hkeep)).symm.trans hs)

theorem valid_kept : JobSlot.Kept (Valid H τ) :=
  ⟨fun _ => ⟨fun _ _ => KeyMap.sound_empty, fun _ _ => KeyMap.sound_empty⟩, fun h hsame => h.replace hsame⟩

theorem Valid.evictSections : Valid H τ slot.evictSections where
  cb := cbHonest_evictSections
  h2 := fun _ _ => KeyMap.sound_empty

theorem valid_uncached : Valid H τ slot.uncached where
  cb := cbHonest_uncached
  h2 := fun _ _ => KeyMap.sound_empty

/-- The share an attempt is for, with its coinbase open. -/
theorem fits_of_open (b2 : Blake2bSection) (target : Bytes) {job : JobSection} (hj : slot.job = some job)
    {s : PowSubmit} (hst : Stamped τ slot s) {t : UInt32} (ht : s.timeOnWire = some t) {legacy : Bytes}
    {parsed : Coinbase}
    (ho : sectionCoinbase slot job s = .ok (legacy, parsed)) :
    ∃ sect, slot.coinbases.get (coinbaseIdFor s) = some sect ∧
      Attempt.Fits ⟨s, b2, job, legacy, t, target⟩ τ job sect := by
  obtain ⟨sect, hs, hb⟩ := sectionCoinbase_ok ho
  exact ⟨sect, hs, rfl, (buildCoinbase_ok hb).1, hst job sect t hj hs ht⟩

namespace Attempt
variable {a : Attempt}

/-- The cached hashes an attempt could meet are the ones it would compute. -/
def Trusts (H : Digests) (a : Attempt) (slot : JobSlot) : Prop :=
  ∀ includes h, slot.h2Cache.get (a.key includes) = some h → h = (a.fullCommitment H includes).h2 H

def settle (H : Digests) (a : Attempt) (chosen : Commitment × Bytes × Bool) :
    Commitment × Bytes × Bool := (a.patch H chosen.1, chosen.2)

/-- What a convention gives without any cache. -/
def expected (H : Digests) (a : Attempt) (includes : Bool) : Option (Commitment × Bytes × Bool) :=
  let c := a.fullCommitment H includes
  if meetsTarget (a.hash H (c.h2 H)) a.target then some (c, a.hash H (c.h2 H), includes) else none

theorem patch_commitment (includes : Bool) (root : Hash)
    (h : root = zeros 32 ∨ root = a.merkleRoot H) :
    a.patch H (a.commitment includes root) = a.fullCommitment H includes := by
  unfold patch
  rcases h with rfl | rfl
  · exact if_pos rfl
  · split <;> rfl

theorem tryConvention_settle (ht : a.Trusts H slot) (includes : Bool) :
    (a.tryConvention H slot includes).2.map (a.settle H) = a.expected H includes := by
  unfold tryConvention expected
  cases hg : slot.h2Cache.get (a.key includes) with
  | some h =>
    obtain rfl := ht includes h hg
    dsimp only
    split
    · simp [settle, patch_commitment]
    · rfl
  | none =>
    dsimp only [fullCommitment]
    split
    · simp [settle, patch_commitment, fullCommitment]
    · rfl

theorem tryConvention_none {includes : Bool} (h : (a.tryConvention H slot includes).2 = none) :
    (a.tryConvention H slot includes).1 = slot := by
  unfold tryConvention at h ⊢
  dsimp only at h ⊢
  split_ifs at h ⊢ with hmeets
  rfl

/-- The conventions are tried in order, cached or not. -/
theorem tryConventions_settle (ht : a.Trusts H slot) (order : List Bool) :
    (a.tryConventions H slot order).2.map (a.settle H) = order.findSome? (a.expected H) := by
  induction order with
  | nil => rfl
  | cons includes rest ih =>
    have hone := tryConvention_settle ht includes
    unfold tryConventions
    split
    next next chosen hrun =>
      rw [hrun] at hone
      simp [← hone]
    next next hrun =>
      have hslot : (a.tryConvention H slot includes).1 = slot := tryConvention_none (by rw [hrun])
      rw [hrun] at hone hslot
      dsimp only at hslot
      subst hslot
      simpa [List.findSome?_cons, ← hone] using ih

end Attempt

theorem verifiedShare_congr {a : Attempt} {p : Policy} {kind : CoinbaseKind} {parsed : Coinbase}
    {x y : Commitment × Bytes × Bool} (h : a.settle H x = a.settle H y) :
    verifiedShare H a p kind parsed x = verifiedShare H a p kind parsed y := by
  simp only [Attempt.settle, Prod.mk.injEq] at h
  simp only [verifiedShare, h.1, h.2]

/-- Two slots that agree on the convention and can be trusted check a share alike. -/
theorem checkShare_result {a : Attempt} {other : JobSlot} (ht : a.Trusts H slot)
    (ho : a.Trusts H other) (hconv : slot.txcountIncludesCoinbase = other.txcountIncludesCoinbase)
    (parsed : Coinbase) (p : Policy) :
    (checkShare H slot a parsed p).map Prod.snd = (checkShare H other a parsed p).map Prod.snd := by
  unfold checkShare
  cases classifyCoinbase parsed p.poolScript p.issued p.tolerance with
  | none => rfl
  | some kind =>
    have hs := Attempt.tryConventions_settle ht (conventions slot.txcountIncludesCoinbase)
    have hs' := Attempt.tryConventions_settle ho (conventions slot.txcountIncludesCoinbase)
    rw [← hs'] at hs
    simp only [Option.bind_eq_bind, Option.bind_some, ← hconv]
    split
    · rfl
    · split
      · rfl
      · generalize a.tryConventions H slot _ = x at hs ⊢
        generalize a.tryConventions H other _ = y at hs ⊢
        obtain ⟨sx, x⟩ := x
        obtain ⟨sy, y⟩ := y
        cases x <;> cases y <;> simp only [Option.map_none, Option.map_some, Option.some.injEq,
          reduceCtorEq] at hs ⊢
        exact congrArg Except.ok (verifiedShare_congr hs)

theorem Valid.trusts (h : Valid H τ slot) {a : Attempt} {sect : CoinbaseSection}
    (hj : slot.job = some a.job) (hs : slot.coinbases.get (coinbaseIdFor a.share) = some sect)
    (hf : a.Fits τ a.job sect) : a.Trusts H slot :=
  fun includes _ hg => h.h2 a.job hj _ _ hg a includes sect hs hf rfl

/-- On a slot with honest caches, a stamped share verifies as on the same slot without them. -/
theorem verifyWithTarget_uncached (h : Valid H τ slot) {s : PowSubmit} (hst : Stamped τ slot s)
    (p : Policy) (target : Bytes) :
    (verifyWithTarget H slot s p target).map Prod.snd =
      (verifyWithTarget H slot.uncached s p target).map Prod.snd := by
  unfold verifyWithTarget
  split
  · rfl
  · cases hb : s.blake2b with
    | none => rfl
    | some b2 =>
      cases ht : s.timeOnWire with
      | none => rfl
      | some t =>
        cases hj : slot.job with
        | none => simp [JobSlot.uncached, hj]
        | some job =>
          have hju : slot.uncached.job = some job := hj
          have hres := openCoinbase_result h.cb hj s
          have hresu := openCoinbase_result cbHonest_uncached hju s
          obtain ⟨cache, hslot, hcb⟩ := openCoinbase_frame hj s
          obtain ⟨cacheu, hslotu, hcbu⟩ := openCoinbase_frame hju s
          simp only [hju]
          generalize slot.openCoinbase job s = x at hres hslot ⊢
          generalize slot.uncached.openCoinbase job s = y at hresu hslotu ⊢
          obtain ⟨sx, x⟩ := x
          obtain ⟨sy, y⟩ := y
          dsimp only at hres hresu hslot hslotu
          obtain rfl : x = y := hres.trans hresu.symm
          cases x with
          | error code => rfl
          | ok found =>
            obtain ⟨sect, hs, hf⟩ := fits_of_open b2 target hj hst ht hres.symm
            subst hslot hslotu
            have hv : Valid H τ { slot with cbCache := cache } := ⟨hcb h.cb, h.h2⟩
            have hvu : Valid H τ { slot.uncached with cbCache := cacheu } :=
              ⟨hcbu cbHonest_uncached, valid_uncached.h2⟩
            have htrusts := hv.trusts (a := ⟨s, b2, job, found.1, t, target⟩) hj hs hf
            exact checkShare_result htrusts (hvu.trusts hj hs hf) rfl found.2 p

/-- An attempt that may store under its keys keeps the commitment cache honest. -/
theorem Valid.tryConvention (h : Valid H τ slot) {a : Attempt} {sect : CoinbaseSection}
    (hj : slot.job = some a.job) (hs : slot.coinbases.get (coinbaseIdFor a.share) = some sect)
    (hf : a.Fits τ a.job sect) (includes : Bool) :
    ∃ cache, (a.tryConvention H slot includes).1 = { slot with h2Cache := cache } ∧
      Valid H τ { slot with h2Cache := cache } := by
  have hnew : ∀ h2, h2 = (a.fullCommitment H includes).h2 H →
      Answers H τ a.job slot.coinbases (a.key includes) h2 := by
    intro h2 heq b j sect' hs' hb hk
    obtain rfl : sect = sect' := Option.some.inj (hs.symm.trans hs')
    exact heq.trans (congrArg _ (fullCommitment_congr hf hb hk.symm))
  have hstore : ∀ h2, Answers H τ a.job slot.coinbases (a.key includes) h2 →
      Valid H τ { slot with h2Cache :=
        (if maxH2Cache ≤ slot.h2Cache.size then .empty else slot.h2Cache).insert (a.key includes) h2 } := by
    intro h2 hans
    refine ⟨h.cb, fun job hj' => ?_⟩
    obtain rfl : a.job = job := Option.some.inj (hj.symm.trans hj')
    exact (h.h2 _ hj).store _ hans
  unfold Attempt.tryConvention
  cases hg : slot.h2Cache.get (a.key includes) with
  | none =>
    dsimp only
    split
    · exact ⟨_, rfl, hstore _ (hnew _ rfl)⟩
    · exact ⟨_, rfl, h⟩
  | some cached =>
    dsimp only
    split
    · exact ⟨_, rfl, hstore _ (hnew _ (h.trusts hj hs hf includes cached hg))⟩
    · exact ⟨_, rfl, h⟩

theorem Valid.tryConventions (h : Valid H τ slot) {a : Attempt} {sect : CoinbaseSection}
    (hj : slot.job = some a.job) (hs : slot.coinbases.get (coinbaseIdFor a.share) = some sect)
    (hf : a.Fits τ a.job sect) (order : List Bool) :
    ∃ cache, (a.tryConventions H slot order).1 = { slot with h2Cache := cache } ∧
      Valid H τ { slot with h2Cache := cache } := by
  induction order with
  | nil => exact ⟨_, rfl, h⟩
  | cons includes rest ih =>
    have hone := h.tryConvention hj hs hf includes
    unfold Attempt.tryConventions
    split
    next next chosen hrun => rwa [hrun] at hone
    next next hrun =>
      have hslot : (a.tryConvention H slot includes).1 = slot := Attempt.tryConvention_none (by rw [hrun])
      rw [hrun] at hslot
      exact hslot.symm ▸ ih

/-- Verification keeps the job, the sections and honest caches. -/
theorem Valid.checkShare (h : Valid H τ slot) {a : Attempt} {sect : CoinbaseSection}
    (hj : slot.job = some a.job) (hs : slot.coinbases.get (coinbaseIdFor a.share) = some sect)
    (hf : a.Fits τ a.job sect) {parsed : Coinbase} {p : Policy} {slot' : JobSlot}
    {r : Except Reject VerifiedShare} (run : checkShare H slot a parsed p = some (slot', r)) :
    Valid H τ slot' := by
  obtain ⟨cache, hslot, hv⟩ := h.tryConventions hj hs hf (conventions slot.txcountIncludesCoinbase)
  rcases checkShare_cases run with ⟨rfl, -⟩ | ⟨htry, -⟩ | ⟨kind, mid, chosen, -, -, htry, rfl, -⟩
  · exact h
  · rw [htry] at hslot
    obtain rfl : slot' = { slot with h2Cache := cache } := hslot
    exact hv
  · rw [htry] at hslot
    obtain rfl : mid = { slot with h2Cache := cache } := hslot
    exact ⟨hv.cb, hv.h2⟩

theorem Valid.verifyWithTarget (h : Valid H τ slot) {s : PowSubmit} (hst : Stamped τ slot s)
    {p : Policy} {target : Bytes} {slot' : JobSlot} {r : Except Reject VerifiedShare}
    (run : verifyWithTarget H slot s p target = some (slot', r)) : Valid H τ slot' := by
  rcases verifyWithTarget_cases run with ⟨rfl, -⟩ | ⟨b2, t, job, -, ht, hj, hopen⟩
  · exact h
  have hres := openCoinbase_result h.cb hj s
  obtain ⟨cache, hslot, hcb⟩ := openCoinbase_frame hj s
  have hv : Valid H τ { slot with cbCache := cache } := ⟨hcb h.cb, h.h2⟩
  obtain ⟨code, hopen, -⟩ | ⟨mid, legacy, parsed, hopen, run⟩ := hopen
  · rw [hopen] at hslot
    obtain rfl : slot' = { slot with cbCache := cache } := hslot
    exact hv
  · rw [hopen] at hslot hres
    obtain rfl : mid = { slot with cbCache := cache } := hslot
    obtain ⟨sect, hs, hf⟩ := fits_of_open b2 target hj hst ht hres.symm
    exact hv.checkShare (a := ⟨s, b2, job, legacy, t, target⟩) hj hs hf run

end

def SlotOp.Stamped (τ : Stamp) (slot : JobSlot) : SlotOp → Prop
  | .verify s _ => Wire.Stamped τ slot s
  | .verifyWithTarget s _ _ => Wire.Stamped τ slot s
  | _ => True

/-- A run from a slot whose shares, wherever they are verified, carry their stamp. -/
def StampedRun (H : Digests) (τ : Stamp) : JobSlot → List SlotOp → Prop
  | _, [] => True
  | slot, op :: rest =>
    op.Stamped τ slot ∧ ∀ slot', op.step H slot = some slot' → StampedRun H τ slot' rest

section
variable {H : Digests} {τ : Stamp} {slot slot' : JobSlot}

/-- Every call keeps the caches honest. -/
theorem Valid.step (h : Valid H τ slot) {op : SlotOp} (hst : op.Stamped τ slot)
    (run : op.step H slot = some slot') : Valid H τ slot' := by
  cases op with
  | absorb s => exact Option.some.inj run ▸ valid_kept.absorb h s
  | verify s p =>
    obtain ⟨⟨next, r⟩, hv, rfl⟩ := Option.map_eq_some_iff.mp run
    rcases verify_cases hv with ⟨rfl, -⟩ | ⟨target, -, -, hv⟩
    · exact h
    · exact h.verifyWithTarget hst hv
  | verifyWithTarget s p target =>
    obtain ⟨⟨next, r⟩, hv, rfl⟩ := Option.map_eq_some_iff.mp run
    exact h.verifyWithTarget hst hv
  | forgetCoinbase id => exact Option.some.inj run ▸ valid_kept.forgetCoinbase h id
  | evictSections => exact Option.some.inj run ▸ Valid.evictSections

theorem Valid.run {ops : List SlotOp} (h : Valid H τ slot) (hst : StampedRun H τ slot ops)
    (run : ops.foldlM (SlotOp.step H) slot = some slot') : Valid H τ slot' := by
  induction ops generalizing slot with
  | nil => exact Option.some.inj run ▸ h
  | cons op ops ih =>
    simp only [List.foldlM_cons, Option.bind_eq_bind, Option.bind_eq_some_iff] at run
    obtain ⟨mid, hop, hrest⟩ := run
    exact ih (h.step hst.1 hop) (hst.2 mid hop) hrest

/-- In every run whose shares carry one time and one set of flags for each job, coinbase section,
target byte and version, verification answers as if the caches were empty. -/
theorem verify_transparent {ops : List SlotOp} (hrun : StampedRun H τ .default ops)
    (run : ops.foldlM (SlotOp.step H) .default = some slot) {s : PowSubmit} (hst : Stamped τ slot s)
    (p : Policy) (target : Bytes) :
    (verifyWithTarget H slot s p target).map Prod.snd =
      (verifyWithTarget H slot.uncached s p target).map Prod.snd :=
  verifyWithTarget_uncached (valid_default.run hrun run) hst p target

end

/-- Digests that tell two inputs apart by their byte sum. -/
def sumDigests : Digests where
  sha256 data := ⟨data.sum :: List.replicate 31 0, rfl⟩
  blake2b256 data := ⟨data.sum :: List.replicate 31 0, rfl⟩

/-- A whole coinbase at height 7 that pays the pool's script 100 sats. -/
def poolCoinbase : Bytes :=
  [1, 0, 0, 0, 1] ++ List.replicate 32 0 ++ List.replicate 4 0xff ++ [3, 2, 7, 0] ++
    List.replicate 4 0xff ++ [1] ++ LittleEndian.write 8 100 ++ [2, 0x51, 9] ++ [0, 0, 0, 0]

def sampleJob : JobSection := ⟨zeros 32, 0, zeros 4, 1, 7, 100, 0, 0, 0, 0, []⟩

/-- A share that carries its sections, at a given time and claimed difficulty. -/
def sampleShare (time : UInt32) (pot : UInt8) : PowSubmit :=
  ⟨0, 0, 8, pot, 0, 0, 2, zeros 12, "m", zeros 4, some ⟨zeros 8, zeros 8⟩, some time, some sampleJob,
    some ⟨0, poolCoinbase, []⟩⟩

def samplePolicy : Policy := ⟨[0x51, 9], none, 0, 0, 0⟩

def easiest : Bytes := List.replicate 32 0xff

def sampleOps : List SlotOp :=
  [.absorb (sampleShare 5 4), .verifyWithTarget (sampleShare 5 4) samplePolicy easiest]

theorem verify_transparent_repeat : ∃ slot, sampleOps.foldlM (SlotOp.step sumDigests) .default = some slot ∧
    (verifyWithTarget sumDigests slot (sampleShare 5 4) samplePolicy easiest).map Prod.snd =
      (verifyWithTarget sumDigests slot.uncached (sampleShare 5 4) samplePolicy easiest).map Prod.snd := by
  have hst : ∀ slot, Stamped (fun _ _ _ _ => (5, 0)) slot (sampleShare 5 4) :=
    fun _ _ _ _ _ _ ht => Option.some.inj ht ▸ rfl
  obtain ⟨slot, run⟩ := Option.isSome_iff_exists.mp
    (show (sampleOps.foldlM (SlotOp.step sumDigests) .default).isSome by decide +kernel)
  have hrun : StampedRun sumDigests (fun _ _ _ _ => (5, 0)) .default sampleOps :=
    ⟨trivial, fun _ _ => ⟨hst _, fun _ _ => trivial⟩⟩
  exact ⟨slot, run, verify_transparent hrun run (hst _) samplePolicy easiest⟩

/-- A second share with another time meets the first one's cached commitment hash. -/
theorem stale_time_in_cache : ∃ slot, sampleOps.foldlM (SlotOp.step sumDigests) .default = some slot ∧
    (verifyWithTarget sumDigests slot (sampleShare 6 4) samplePolicy easiest).map Prod.snd ≠
      (verifyWithTarget sumDigests slot.uncached (sampleShare 6 4) samplePolicy easiest).map Prod.snd := by
  have h : (sampleOps.foldlM (SlotOp.step sumDigests) .default).map (fun slot =>
      decide ((verifyWithTarget sumDigests slot (sampleShare 6 4) samplePolicy easiest).map Prod.snd ≠
        (verifyWithTarget sumDigests slot.uncached (sampleShare 6 4) samplePolicy easiest).map
          Prod.snd)) = some true := by decide +kernel
  obtain ⟨slot, run, hne⟩ := Option.map_eq_some_iff.mp h
  exact ⟨slot, run, of_decide_eq_true hne⟩

end WaviclesPrime.Wire
