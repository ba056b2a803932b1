import WaviclesPrime.Lib.Loop
import WaviclesPrime.Wire.Verify

/-! The coinbase cache of a slot, over every sequence of calls. -/
namespace WaviclesPrime.Wire

/-- A stored coinbase is the one its section builds. -/
def Built (job : JobSection) (coinbases : KeyMap UInt8 CoinbaseSection) (k : CbKey)
    (v : Bytes × Coinbase) : Prop :=
  ∃ sect, coinbases.get k.1 = some sect ∧ buildCoinbase job sect k.2 = .ok v

/-- The coinbase cache holds what the slot's own sections build. -/
def CbHonest (slot : JobSlot) : Prop :=
  ∀ job, slot.job = some job → slot.cbCache.Sound (Built job slot.coinbases)

section
variable {H : Digests} {slot slot' : JobSlot}

theorem cbHonest_default : CbHonest .default := fun _ h => by simp [JobSlot.default] at h

/-- Changing one section and dropping what was derived from it keeps the cache honest. -/
theorem CbHonest.replace (h : CbHonest slot) {id : UInt8}
    {coinbases : KeyMap UInt8 CoinbaseSection}
    (hsame : ∀ k, k ≠ id → coinbases.get k = slot.coinbases.get k) :
    CbHonest ({ slot with coinbases := coinbases }.dropDerived id) :=
  fun job hj => (h job hj).retain fun k v hkeep ⟨sect, hs, hb⟩ =>
    ⟨sect, (hsame _ (by simpa using hkeep)).trans hs, hb⟩

theorem cbHonest_kept : JobSlot.Kept CbHonest := ⟨fun _ _ _ => KeyMap.sound_empty, fun h hsame => h.replace hsame⟩

theorem cbHonest_evictSections : CbHonest slot.evictSections := fun _ _ => KeyMap.sound_empty

theorem cbHonest_uncached : CbHonest slot.uncached := fun _ _ => KeyMap.sound_empty

/-- What opening a coinbase answers, in terms of the sections alone. -/
def sectionCoinbase (slot : JobSlot) (job : JobSection) (s : PowSubmit) :
    Except Reject (Bytes × Coinbase) :=
  match slot.coinbases.get (coinbaseIdFor s) with
  | none => .error rejectCoinbaseMissing
  | some sect => buildCoinbase job sect s.targetPot

theorem openCoinbase_result (h : CbHonest slot) {job : JobSection} (hj : slot.job = some job)
    (s : PowSubmit) : (slot.openCoinbase job s).2 = sectionCoinbase slot job s := by
  unfold JobSlot.openCoinbase sectionCoinbase
  dsimp only
  split
  next found hf =>
    obtain ⟨sect, hs, hb⟩ := h job hj _ _ hf
    simp only [hs, hb]
  next =>
    cases slot.coinbases.get (coinbaseIdFor s) with
    | none => rfl
    | some sect =>
      dsimp only
      split <;> simp_all

/-- Opening a coinbase changes the coinbase cache only, and keeps it honest. -/
theorem openCoinbase_frame {job : JobSection} (hj : slot.job = some job) (s : PowSubmit) :
    ∃ cache, (slot.openCoinbase job s).1 = { slot with cbCache := cache } ∧
      (CbHonest slot → CbHonest { slot with cbCache := cache }) := by
  unfold JobSlot.openCoinbase
  dsimp only
  split
  next => exact ⟨_, rfl, id⟩
  next =>
    split
    next => exact ⟨_, rfl, id⟩
    next sect hs =>
      split
      next => exact ⟨_, rfl, id⟩
      next built hb =>
        refine ⟨_, rfl, fun h job' hj' => ?_⟩
        obtain rfl : job = job' := Option.some.inj (hj.symm.trans hj')
        exact (h job hj).store _ ⟨sect, hs, hb⟩

theorem sectionCoinbase_ok {job : JobSection} {s : PowSubmit} {v : Bytes × Coinbase}
    (h : sectionCoinbase slot job s = .ok v) : ∃ sect,
      slot.coinbases.get (coinbaseIdFor s) = some sect ∧ buildCoinbase job sect s.targetPot = .ok v := by
  unfold sectionCoinbase at h
  split at h
  next => simp at h
  next sect hs => exact ⟨sect, hs, h⟩

theorem buildCoinbase_ok {job : JobSection} {sect : CoinbaseSection} {pot : UInt8} {v : Bytes × Coinbase}
    (h : buildCoinbase job sect pot = .ok v) :
    v.1 = assemble sect.coinb1 sect.coinb2 job.targetByteIndex.toNat pot ∧ parse v.1 = .ok v.2 := by
  unfold buildCoinbase at h
  dsimp only at h
  split at h
  next => cases h
  next parsed hp =>
    split at h
    next => cases h
    next =>
      obtain rfl := Except.ok.inj h
      exact ⟨rfl, hp⟩

/-- Trying conventions touches the commitment cache only. -/
theorem Attempt.tryConvention_frame (a : Attempt) (H : Digests) (slot : JobSlot) (includes : Bool) :
    ∃ cache, (a.tryConvention H slot includes).1 = { slot with h2Cache := cache } := by
  unfold Attempt.tryConvention
  dsimp only
  split_ifs <;> exact ⟨_, rfl⟩

theorem Attempt.tryConventions_frame (a : Attempt) (H : Digests) (slot : JobSlot) (order : List Bool) :
    ∃ cache, (a.tryConventions H slot order).1 = { slot with h2Cache := cache } := by
  induction order generalizing slot with
  | nil => exact ⟨_, rfl⟩
  | cons includes rest ih =>
    obtain ⟨cache, hone⟩ := a.tryConvention_frame H slot includes
    unfold Attempt.tryConventions
    split
    next next chosen hrun => exact ⟨cache, by rwa [hrun] at hone⟩
    next next hrun =>
      rw [hrun] at hone
      dsimp only at hone
      subst hone
      obtain ⟨cache', hrest⟩ := ih { slot with h2Cache := cache }
      exact ⟨cache', hrest⟩

/-- What a check of an open share leaves of the slot, and which coinbase it answers for. -/
theorem checkShare_frame {a : Attempt} {parsed : Coinbase} {p : Policy} {r : Except Reject VerifiedShare}
    (run : checkShare H slot a parsed p = some (slot', r)) :
    (∃ cache pinned, slot' = { slot with h2Cache := cache, txcountIncludesCoinbase := pinned }) ∧
      ∀ v, r = .ok v → v.coinbaseLegacy = a.legacy := by
  obtain ⟨cache, hslot⟩ := a.tryConventions_frame H slot (conventions slot.txcountIncludesCoinbase)
  rcases checkShare_cases run with ⟨rfl, code, rfl⟩ | ⟨htry, code, rfl⟩ | ⟨kind, mid, chosen, -, -, htry, rfl, rfl⟩
  · exact ⟨⟨_, _, rfl⟩, nofun⟩
  · rw [htry] at hslot
    exact ⟨⟨cache, _, hslot⟩, nofun⟩
  · rw [htry] at hslot
    dsimp only at hslot
    subst hslot
    exact ⟨⟨cache, _, rfl⟩, fun v hv => Except.ok.inj hv ▸ rfl⟩

/-- What a verification leaves of the slot: the job and the sections as they were and, over an
honest coinbase cache, an honest one and an answer about the coinbase of the slot's section. -/
structure Verified (slot slot' : JobSlot) (s : PowSubmit) (r : Except Reject VerifiedShare) : Prop where
  job : slot'.job = slot.job
  coinbases : slot'.coinbases = slot.coinbases
  honest : CbHonest slot → CbHonest slot'
  legacy : CbHonest slot → ∀ v, r = .ok v → ∃ job sect, slot.job = some job ∧
    slot.coinbases.get (coinbaseIdFor s) = some sect ∧
    v.coinbaseLegacy = assemble sect.coinb1 sect.coinb2 job.targetByteIndex.toNat s.targetPot

/-- A refusal that leaves the slot alone. -/
private theorem verified_refl {s : PowSubmit} {code : Reject} : Verified slot slot s (.error code) :=
  ⟨rfl, rfl, id, fun _ _ h => by simp at h⟩

theorem verifyWithTarget_frame {s : PowSubmit} {p : Policy} {target : Bytes}
    {r : Except Reject VerifiedShare}
    (run : verifyWithTarget H slot s p target = some (slot', r)) : Verified slot slot' s r := by
  rcases verifyWithTarget_cases run with ⟨rfl, code, rfl⟩ | ⟨b2, timeOnWire, job, -, -, hj, hcase⟩
  · exact verified_refl
  · have hres : CbHonest slot → (slot.openCoinbase job s).2 = sectionCoinbase slot job s :=
      fun h => openCoinbase_result h hj s
    obtain ⟨cache, hslot, hv⟩ := openCoinbase_frame hj s
    rcases hcase with ⟨code, hopen, rfl⟩ | ⟨mid, legacy, parsed, hopen, hcheck⟩
    · rw [hopen] at hslot
      dsimp only at hslot
      subst hslot
      exact ⟨rfl, rfl, hv, fun _ _ h => by cases h⟩
    · rw [hopen] at hslot hres
      dsimp only at hslot hres
      subst hslot
      obtain ⟨⟨cache, pinned, rfl⟩, hlegacy⟩ := checkShare_frame hcheck
      refine ⟨rfl, rfl, hv, fun h v hrv => ?_⟩
      obtain ⟨sect, hs, hb⟩ := sectionCoinbase_ok (hres h).symm
      exact ⟨job, sect, hj, hs, (hlegacy v hrv).trans (buildCoinbase_ok hb).1⟩

theorem verify_frame {s : PowSubmit} {p : Policy} {r : Except Reject VerifiedShare}
    (run : verify H slot s p = some (slot', r)) : Verified slot slot' s r := by
  rcases verify_cases run with ⟨rfl, code, rfl⟩ | ⟨target, -, -, hwith⟩
  · exact verified_refl
  · exact verifyWithTarget_frame hwith

end

/-- The calls a session makes on a slot. -/
inductive SlotOp where
  | absorb (s : PowSubmit)
  | verify (s : PowSubmit) (p : Policy)
  | verifyWithTarget (s : PowSubmit) (p : Policy) (target : Bytes)
  | forgetCoinbase (id : UInt8)
  | evictSections

def SlotOp.step (H : Digests) (slot : JobSlot) : SlotOp → Option JobSlot
  | .absorb s => some (slot.absorb s).1
  | .verify s p => (Wire.verify H slot s p).map Prod.fst
  | .verifyWithTarget s p target => (Wire.verifyWithTarget H slot s p target).map Prod.fst
  | .forgetCoinbase id => some (slot.forgetCoinbase id)
  | .evictSections => some slot.evictSections

section
variable {H : Digests} {slot slot' : JobSlot}

/-- Every call keeps the coinbase cache honest. -/
theorem CbHonest.step (h : CbHonest slot) {op : SlotOp} (run : op.step H slot = some slot') :
    CbHonest slot' := by
  cases op with
  | absorb s => exact Option.some.inj run ▸ cbHonest_kept.absorb h s
  | verify s p =>
    obtain ⟨⟨next, r⟩, hv, rfl⟩ := Option.map_eq_some_iff.mp run
    exact (verify_frame hv).honest h
  | verifyWithTarget s p target =>
    obtain ⟨⟨next, r⟩, hv, rfl⟩ := Option.map_eq_some_iff.mp run
    exact (verifyWithTarget_frame hv).honest h
  | forgetCoinbase id => exact Option.some.inj run ▸ cbHonest_kept.forgetCoinbase h id
  | evictSections => exact Option.some.inj run ▸ cbHonest_evictSections

/-- The coinbase cache is honest in every state a session can bring a slot to. -/
theorem cbHonest_run {ops : List SlotOp} (run : ops.foldlM (SlotOp.step H) .default = some slot) :
    CbHonest slot :=
  Loop.run_invariant (P := fun _ s => CbHonest s) (fun _ _ _ _ _ h hs => h.step hs)
    cbHonest_default run

end
end WaviclesPrime.Wire
