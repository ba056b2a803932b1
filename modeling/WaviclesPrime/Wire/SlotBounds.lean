import WaviclesPrime.Wire.Transparency

/-! What a slot may hold, over every sequence of calls. -/
namespace WaviclesPrime.Wire

theorem coinbaseBytes_congr {slot slot' : JobSlot} (h : slot'.coinbases = slot.coinbases) :
    slot'.coinbaseBytes = slot.coinbaseBytes := congrArg (KeyMap.weight CoinbaseSection.size) h

theorem coinbaseBytes_le {slot slot' : JobSlot}
    (h : slot'.coinbases = slot.coinbases ∨ slot'.coinbases = .empty) :
    slot'.coinbaseBytes ≤ slot.coinbaseBytes := by
  rcases h with h | h
  · exact (coinbaseBytes_congr h).le
  · rw [JobSlot.coinbaseBytes, h]
    exact Nat.zero_le _

/-- The caps of one slot. -/
structure SlotCaps (slot : JobSlot) : Prop where
  ids : slot.coinbases.size ≤ maxCoinbasesPerSlot
  section_le : ∀ e ∈ slot.coinbases.entries, e.2.size ≤ maxCoinbaseSectionBytes

namespace SlotCaps

theorem empty {slot : JobSlot} (h : slot.coinbases = .empty) : SlotCaps slot :=
  ⟨by rw [h]; exact Nat.zero_le _, by rw [h]; exact fun _ he => absurd he (List.not_mem_nil)⟩

theorem of_eq {slot slot' : JobSlot} (hs : SlotCaps slot) (h : slot'.coinbases = slot.coinbases) :
    SlotCaps slot' := ⟨h ▸ hs.ids, h ▸ hs.section_le⟩

theorem bytes_le {slot : JobSlot} (hs : SlotCaps slot) : slot.coinbaseBytes ≤ 160000 :=
  (KeyMap.weight_le hs.section_le).trans (Nat.mul_le_mul_right _ hs.ids)

theorem forgetCoinbase {slot : JobSlot} (hs : SlotCaps slot) (id : UInt8) :
    SlotCaps (slot.forgetCoinbase id) :=
  ⟨(List.length_filter_le ..).trans hs.ids, fun e he => hs.section_le e (List.mem_of_mem_filter he)⟩

end SlotCaps

/-- What absorbing a share's sections does to those a slot holds. A job change empties the slot
first, so a refusal never follows one. -/
inductive AbsorbedInto (slot slot' : JobSlot) : Except Reject Absorbed → Prop
  | refused {code} (h : slot'.coinbases = slot.coinbases) : AbsorbedInto slot slot' (.error code)
  | kept (h : slot'.coinbases = slot.coinbases) : AbsorbedInto slot slot' (.ok ⟨false, none⟩)
  | emptied (h : slot'.coinbases = .empty) : AbsorbedInto slot slot' (.ok ⟨true, none⟩)
  | added {changed} {base : KeyMap UInt8 CoinbaseSection} {c : CoinbaseSection}
      (hbase : base = if changed then .empty else slot.coinbases) (hsize : c.size ≤ maxCoinbaseSectionBytes)
      (hids : base.get c.coinbaseId ≠ none ∨ base.size < maxCoinbasesPerSlot)
      (h : slot'.coinbases = base.insert c.coinbaseId c) :
      AbsorbedInto slot slot' (.ok ⟨changed, some c.coinbaseId⟩)

/-- A share brings a slot no job but the one it has. -/
def RepeatsJob (slot : JobSlot) (s : PowSubmit) : Prop := ∀ j, s.job = some j → slot.job = some j

theorem takeJob_cases (slot : JobSlot) (s : PowSubmit) :
    (slot.takeJob s.job = (slot, false) ∧ RepeatsJob slot s) ∨
    ∃ base, slot.takeJob s.job = (base, true) ∧ base.coinbases = .empty ∧ ¬ RepeatsJob slot s := by
  unfold RepeatsJob
  cases s.job with
  | none => exact .inl ⟨rfl, fun _ hj => nomatch hj⟩
  | some j =>
    rw [JobSlot.takeJob]
    split
    next hsame => exact .inl ⟨rfl, fun _ hj => Option.some.inj hj ▸ hsame⟩
    next hnew => exact .inr ⟨_, rfl, rfl, fun h => hnew (h j rfl)⟩

theorem takeCoinbase_cases (slot : JobSlot) (c : Option CoinbaseSection) :
    slot.takeCoinbase c = (slot, .ok none) ∨
    (slot.takeCoinbase c = (slot, .error rejectBadCoinbaseId) ∧ maxCoinbasesPerSlot ≤ slot.coinbases.size) ∨
    ∃ sect, c = some sect ∧
      (slot.coinbases.get sect.coinbaseId ≠ none ∨ slot.coinbases.size < maxCoinbasesPerSlot) ∧
      slot.takeCoinbase c = ({ slot with
        coinbases := slot.coinbases.insert sect.coinbaseId sect }.dropDerived sect.coinbaseId,
        .ok (some sect.coinbaseId)) := by
  cases c with
  | none => exact .inl rfl
  | some c =>
    by_cases hsame : slot.coinbases.get c.coinbaseId = some c
    · exact .inl (if_pos hsame)
    by_cases hfull : slot.coinbases.get c.coinbaseId = none ∧ maxCoinbasesPerSlot ≤ slot.coinbases.size
    · exact .inr (.inl ⟨(if_neg hsame).trans (if_pos hfull), hfull.2⟩)
    · refine .inr (.inr ⟨c, rfl, ?_, (if_neg hsame).trans (if_neg hfull)⟩)
      rw [not_and_or] at hfull
      exact hfull.imp_right Nat.not_le.mp

/-- A refusal changes nothing, whatever job came with it: a slot whose job changed has room. -/
theorem absorb_cases (slot : JobSlot) (s : PowSubmit) :
    (∃ code, slot.absorb s = (slot, .error code)) ∨
    ∃ base changed, slot.takeJob s.job = (base, changed) ∧
      (slot.absorb s = (base, .ok ⟨changed, none⟩) ∨
        ∃ c, s.coinbase = some c ∧ c.size ≤ maxCoinbaseSectionBytes ∧
          (base.coinbases.get c.coinbaseId ≠ none ∨ base.coinbases.size < maxCoinbasesPerSlot) ∧
          slot.absorb s = ({ base with
            coinbases := base.coinbases.insert c.coinbaseId c }.dropDerived c.coinbaseId,
            .ok ⟨changed, some c.coinbaseId⟩)) := by
  unfold JobSlot.absorb
  split
  next => exact .inl ⟨_, rfl⟩
  next hlarge =>
    have hsize (c : CoinbaseSection) (hc : s.coinbase = some c) : c.size ≤ maxCoinbaseSectionBytes := by
      simpa [JobSlot.tooLarge, hc] using hlarge
    generalize hjob : slot.takeJob s.job = x
    obtain ⟨base, changed⟩ := x
    dsimp only
    obtain hc | ⟨hc, hfull⟩ | ⟨c, hsome, hids, hc⟩ := takeCoinbase_cases base s.coinbase
    · rw [hc]
      exact .inr ⟨base, changed, rfl, .inl rfl⟩
    · rw [hc]
      obtain ⟨hsame, -⟩ | ⟨emptied, hnew, hempty, -⟩ := takeJob_cases slot s
      · obtain ⟨rfl, rfl⟩ := Prod.mk.inj (hjob.symm.trans hsame)
        exact .inl ⟨_, rfl⟩
      · obtain ⟨rfl, rfl⟩ := Prod.mk.inj (hjob.symm.trans hnew)
        rw [hempty] at hfull
        exact absurd (show maxCoinbasesPerSlot ≤ 0 from hfull) (by decide)
    · rw [hc]
      exact .inr ⟨base, changed, rfl, .inr ⟨c, hsome, hsize c hsome, hids, rfl⟩⟩

theorem absorb_into (slot : JobSlot) (s : PowSubmit) :
    AbsorbedInto slot (slot.absorb s).1 (slot.absorb s).2 := by
  obtain ⟨code, h⟩ | ⟨base, changed, hjob, h⟩ := absorb_cases slot s
  · rw [h]
    exact .refused rfl
  obtain ⟨hsame, -⟩ | ⟨emptied, hnew, hempty, -⟩ := takeJob_cases slot s
  · obtain ⟨rfl, rfl⟩ := Prod.mk.inj (hjob.symm.trans hsame)
    obtain h | ⟨c, -, hsize, hids, h⟩ := h
    · rw [h]
      exact .kept rfl
    · rw [h]
      exact .added rfl hsize hids rfl
  · obtain ⟨rfl, rfl⟩ := Prod.mk.inj (hjob.symm.trans hnew)
    obtain h | ⟨c, -, hsize, hids, h⟩ := h
    · rw [h]
      exact .emptied hempty
    · rw [h]
      exact .added hempty hsize hids rfl

theorem absorb_refused (slot : JobSlot) {s : PowSubmit} {code : Reject} (h : (slot.absorb s).2 = .error code) :
    (slot.absorb s).1 = slot := by
  obtain ⟨code, hrun⟩ | ⟨base, changed, -, hrun | ⟨c, -, -, -, hrun⟩⟩ := absorb_cases slot s
  · rw [hrun]
  · rw [hrun] at h
    cases h
  · rw [hrun] at h
    cases h

/-- The caps hold on, and without the added section a slot holds no more than it did. -/
theorem AbsorbedInto.caps {slot slot' : JobSlot} {r : Except Reject Absorbed} (hi : AbsorbedInto slot slot' r)
    (hs : SlotCaps slot) : SlotCaps slot' := by
  cases hi with
  | refused h => exact hs.of_eq h
  | kept h => exact hs.of_eq h
  | emptied h => exact .empty h
  | @added changed base c hbase hsize hids h =>
    have hb : SlotCaps { slot with coinbases := base } := by
      cases changed with
      | false => exact hs.of_eq hbase
      | true => exact .empty hbase
    refine ⟨?_, ?_⟩
    · rw [h]
      obtain hget | hlt := hids
      · exact (KeyMap.size_insert_of_get hget c).trans hb.ids
      · exact (base.size_insert_le c.coinbaseId c).trans hlt
    · rw [h]
      intro e he
      obtain rfl | he := List.mem_cons.mp he
      · exact hsize
      · exact hb.section_le e (List.mem_of_mem_filter he)

/-- A slot that gained no section holds no more than it did. -/
theorem AbsorbedInto.bytes_le {slot slot' : JobSlot} {r : Except Reject Absorbed} (hi : AbsorbedInto slot slot' r)
    (hr : ∀ a id, r = .ok a → a.coinbaseAdded ≠ some id) : slot'.coinbaseBytes ≤ slot.coinbaseBytes := by
  cases hi with
  | refused h => exact coinbaseBytes_le (.inl h)
  | kept h => exact coinbaseBytes_le (.inl h)
  | emptied h => exact coinbaseBytes_le (.inr h)
  | added => exact absurd rfl (hr _ _ rfl)

/-- Nor does one that forgets the section it gained. -/
theorem AbsorbedInto.forget_le {slot slot' : JobSlot} {changed : Bool} {id : UInt8}
    (hi : AbsorbedInto slot slot' (.ok ⟨changed, some id⟩)) :
    (slot'.forgetCoinbase id).coinbaseBytes ≤ slot.coinbaseBytes := by
  cases hi with
  | @added _ base c hbase hsize hids h =>
    have hforget : (slot'.forgetCoinbase c.coinbaseId).coinbases = base.erase c.coinbaseId := by
      change slot'.coinbases.erase c.coinbaseId = _
      rw [h, KeyMap.erase_insert]
    unfold JobSlot.coinbaseBytes
    rw [hforget]
    refine (base.weight_erase_le CoinbaseSection.size c.coinbaseId).trans ?_
    rw [hbase]
    cases changed with
    | false => exact Nat.le_refl _
    | true => exact Nat.zero_le _

theorem takeJob_changed {slot base : JobSlot} {s : PowSubmit} {changed : Bool}
    (h : slot.takeJob s.job = (base, changed)) : changed = false ↔ RepeatsJob slot s := by
  obtain ⟨hsame, hrepeats⟩ | ⟨emptied, hnew, -, hdiffers⟩ := takeJob_cases slot s
  · obtain ⟨-, rfl⟩ := Prod.mk.inj (h.symm.trans hsame)
    exact ⟨fun _ => hrepeats, fun _ => rfl⟩
  · obtain ⟨-, rfl⟩ := Prod.mk.inj (h.symm.trans hnew)
    exact ⟨fun hfalse => (nomatch hfalse), fun hrepeats => absurd hrepeats hdiffers⟩

/-- An absorbed share changes the job of its slot unless it repeats it. -/
theorem absorb_jobChanged {slot : JobSlot} {s : PowSubmit} {absorbed : Absorbed}
    (h : (slot.absorb s).2 = .ok absorbed) : absorbed.jobChanged = false ↔ RepeatsJob slot s := by
  obtain ⟨code, hrun⟩ | ⟨base, changed, hjob, hrun | ⟨c, -, -, -, hrun⟩⟩ := absorb_cases slot s
  · rw [hrun] at h
    cases h
  · rw [hrun] at h
    exact Except.ok.inj h ▸ takeJob_changed hjob
  · rw [hrun] at h
    exact Except.ok.inj h ▸ takeJob_changed hjob

/-- A slot without sections takes up any small enough one for the job it has. -/
theorem absorb_refill {slot : JobSlot} {s : PowSubmit} (hempty : slot.coinbases = .empty)
    (hrepeats : RepeatsJob slot s) :
    (slot.absorb s).1 = slot ∧ (∀ absorbed, (slot.absorb s).2 = .ok absorbed → absorbed = ⟨false, none⟩) ∧
        (∀ c, s.coinbase = some c → maxCoinbaseSectionBytes < c.size) ∨
      ∃ c, s.coinbase = some c ∧ c.size ≤ maxCoinbaseSectionBytes ∧
        (slot.absorb s).2 = .ok ⟨false, some c.coinbaseId⟩ ∧
        (slot.absorb s).1.coinbases = KeyMap.empty.insert c.coinbaseId c := by
  obtain ⟨hjob, -⟩ | ⟨base, -, -, hnew⟩ := takeJob_cases slot s
  · unfold JobSlot.absorb
    split
    next hlarge =>
      refine .inl ⟨rfl, nofun, fun c hc => ?_⟩
      simpa [JobSlot.tooLarge, hc] using hlarge
    next hsmall =>
      dsimp only
      rw [hjob]
      cases hc : s.coinbase with
      | none => exact .inl ⟨rfl, fun _ h => (Except.ok.inj h).symm, nofun⟩
      | some c =>
        have htake : slot.takeCoinbase (some c) = ({ slot with
            coinbases := slot.coinbases.insert c.coinbaseId c }.dropDerived c.coinbaseId,
            .ok (some c.coinbaseId)) := by
          rw [JobSlot.takeCoinbase, hempty, if_neg (by simp), if_neg fun h => absurd h.2 (by decide)]
        rw [htake]
        exact .inr ⟨c, rfl, by simpa [JobSlot.tooLarge, hc] using hsmall, rfl, hempty ▸ rfl⟩
  · exact absurd hrepeats hnew

/-- The caches are bounded, and derived from sections the slot holds. -/
structure CacheBounds (slot : JobSlot) : Prop where
  cb_le : slot.cbCache.size ≤ maxCbCache
  h2_le : slot.h2Cache.size ≤ maxH2Cache
  cb_held : slot.cbCache.Sound fun k _ => slot.coinbases.get k.1 ≠ none
  h2_held : slot.h2Cache.Sound fun k _ => slot.coinbases.get k.1 ≠ none

namespace CacheBounds
variable {H : Digests} {slot slot' : JobSlot}

theorem empty (hcb : slot.cbCache = .empty) (hh2 : slot.h2Cache = .empty) : CacheBounds slot where
  cb_le := hcb ▸ Nat.zero_le _
  h2_le := hh2 ▸ Nat.zero_le _
  cb_held := hcb ▸ KeyMap.sound_empty
  h2_held := hh2 ▸ KeyMap.sound_empty

/-- Changing one section and dropping what was derived from it keeps the caches among the ids held. -/
theorem replace (h : CacheBounds slot) {id : UInt8} {coinbases : KeyMap UInt8 CoinbaseSection}
    (hsame : ∀ k, k ≠ id → coinbases.get k = slot.coinbases.get k) :
    CacheBounds ({ slot with coinbases := coinbases }.dropDerived id) where
  cb_le := (slot.cbCache.size_retain_le _).trans h.cb_le
  h2_le := (slot.h2Cache.size_retain_le _).trans h.h2_le
  cb_held := h.cb_held.retain fun k _ hkeep hheld => hsame k.1 (by simpa using hkeep) ▸ hheld
  h2_held := h.h2_held.retain fun k _ hkeep hheld => hsame k.1 (by simpa using hkeep) ▸ hheld

theorem kept : JobSlot.Kept CacheBounds := ⟨fun _ => .empty rfl rfl, fun h hsame => h.replace hsame⟩

/-- A coinbase that opens is one of a section the slot holds. -/
theorem openCoinbase (h : CacheBounds slot) {job : JobSection} {s : PowSubmit} {mid : JobSlot}
    {r : Except Reject (Bytes × Coinbase)} (hopen : slot.openCoinbase job s = (mid, r)) :
    CacheBounds mid ∧ ∀ v, r = .ok v → mid.coinbases.get (coinbaseIdFor s) ≠ none := by
  unfold JobSlot.openCoinbase at hopen
  dsimp only at hopen
  split at hopen
  next found hfound =>
    obtain ⟨rfl, rfl⟩ := Prod.mk.inj hopen
    exact ⟨h, fun _ _ => h.cb_held _ _ hfound⟩
  next =>
    split at hopen
    next =>
      obtain ⟨rfl, rfl⟩ := Prod.mk.inj hopen
      exact ⟨h, fun _ hv => nomatch hv⟩
    next sect hsect =>
      have hheld : slot.coinbases.get (coinbaseIdFor s) ≠ none := hsect ▸ Option.some_ne_none sect
      split at hopen
      next =>
        obtain ⟨rfl, rfl⟩ := Prod.mk.inj hopen
        exact ⟨h, fun _ hv => nomatch hv⟩
      next built _ =>
        obtain ⟨rfl, rfl⟩ := Prod.mk.inj hopen
        refine ⟨?_, fun _ _ => hheld⟩
        exact {
          cb_le := KeyMap.size_store_le (by decide) _ _ _
          h2_le := h.h2_le
          cb_held := h.cb_held.store _ hheld
          h2_held := h.h2_held }

/-- Only a share whose section is held gets a commitment cached. -/
theorem tryConvention (h : CacheBounds slot) (a : Attempt)
    (hheld : slot.coinbases.get (coinbaseIdFor a.share) ≠ none) (includes : Bool) :
    CacheBounds (a.tryConvention H slot includes).1 := by
  generalize hrun : a.tryConvention H slot includes = x
  obtain ⟨next, found⟩ := x
  rcases a.tryConvention_cases hrun with ⟨rfl, -⟩ | ⟨c, h2, rfl, -⟩
  · exact h
  · exact {
      cb_le := h.cb_le
      h2_le := KeyMap.size_store_le (by decide) _ _ _
      cb_held := h.cb_held
      h2_held := h.h2_held.store _ hheld }

theorem tryConventions (h : CacheBounds slot) (a : Attempt)
    (hheld : slot.coinbases.get (coinbaseIdFor a.share) ≠ none) (order : List Bool) :
    CacheBounds (a.tryConventions H slot order).1 := by
  induction order generalizing slot with
  | nil => exact h
  | cons includes rest ih =>
    have hone := h.tryConvention (H := H) a hheld includes
    obtain ⟨cache, hframe⟩ := a.tryConvention_frame H slot includes
    unfold Attempt.tryConventions
    split
    next next chosen hrun => rwa [hrun] at hone
    next next hrun =>
      rw [hrun] at hone hframe
      exact ih hone (by rw [show next = _ from hframe]; exact hheld)

theorem checkShare (h : CacheBounds slot) {a : Attempt} (hheld : slot.coinbases.get (coinbaseIdFor a.share) ≠ none)
    {parsed : Coinbase} {p : Policy} {r : Except Reject VerifiedShare}
    (run : checkShare H slot a parsed p = some (slot', r)) : CacheBounds slot' := by
  have htried := h.tryConventions (H := H) a hheld (conventions slot.txcountIncludesCoinbase)
  rcases checkShare_cases run with ⟨rfl, -⟩ | ⟨htry, -⟩ | ⟨kind, mid, chosen, -, -, htry, rfl, -⟩
  · exact h
  · rwa [htry] at htried
  · rw [htry] at htried
    exact ⟨htried.cb_le, htried.h2_le, htried.cb_held, htried.h2_held⟩

theorem verifyWithTarget (h : CacheBounds slot) {s : PowSubmit} {p : Policy} {target : Bytes}
    {r : Except Reject VerifiedShare} (run : verifyWithTarget H slot s p target = some (slot', r)) :
    CacheBounds slot' := by
  rcases verifyWithTarget_cases run with
    ⟨rfl, -⟩ | ⟨b2, timeOnWire, job, -, -, -, ⟨code, hopen, -⟩ | ⟨mid, legacy, parsed, hopen, run⟩⟩
  · exact h
  · exact (h.openCoinbase hopen).1
  · obtain ⟨hmid, hheld⟩ := h.openCoinbase hopen
    have hsect : mid.coinbases.get (coinbaseIdFor s) ≠ none := hheld _ rfl
    exact hmid.checkShare (a := ⟨s, b2, job, legacy, timeOnWire, target⟩) hsect run

theorem verify (h : CacheBounds slot) {s : PowSubmit} {p : Policy} {r : Except Reject VerifiedShare}
    (run : verify H slot s p = some (slot', r)) : CacheBounds slot' := by
  rcases verify_cases run with ⟨rfl, -⟩ | ⟨target, -, -, run⟩
  · exact h
  · exact h.verifyWithTarget run

end CacheBounds

/-- What a slot may hold. -/
structure SlotBounds (slot : JobSlot) : Prop where
  caps : SlotCaps slot
  caches : CacheBounds slot

section
variable {H : Digests} {slot slot' : JobSlot}

/-- Every call keeps a slot within its bounds. -/
theorem SlotBounds.step (h : SlotBounds slot) {op : SlotOp} (run : op.step H slot = some slot') :
    SlotBounds slot' := by
  cases op with
  | absorb s => exact Option.some.inj run ▸ ⟨(absorb_into slot s).caps h.caps, CacheBounds.kept.absorb h.caches s⟩
  | verify s p =>
    obtain ⟨⟨next, r⟩, hv, rfl⟩ := Option.map_eq_some_iff.mp run
    exact ⟨h.caps.of_eq (verify_frame hv).coinbases, h.caches.verify hv⟩
  | verifyWithTarget s p target =>
    obtain ⟨⟨next, r⟩, hv, rfl⟩ := Option.map_eq_some_iff.mp run
    exact ⟨h.caps.of_eq (verifyWithTarget_frame hv).coinbases, h.caches.verifyWithTarget hv⟩
  | forgetCoinbase id => exact Option.some.inj run ▸ ⟨h.caps.forgetCoinbase id, CacheBounds.kept.forgetCoinbase h.caches id⟩
  | evictSections => exact Option.some.inj run ▸ ⟨.empty rfl, .empty rfl rfl⟩

/-- A slot stays within its bounds whatever it is sent, and a section it refuses leaves it alone. -/
theorem slotBounds_run {ops : List SlotOp} (run : ops.foldlM (SlotOp.step H) .default = some slot) :
    SlotBounds slot ∧ ∀ s code, (slot.absorb s).2 = .error code → (slot.absorb s).1 = slot :=
  ⟨Loop.run_invariant (P := fun _ s => SlotBounds s) (fun _ _ _ _ _ h hs => h.step hs)
    ⟨.empty rfl, .empty rfl rfl⟩ run, fun _ _ => absorb_refused slot⟩

theorem slotBounds_sample : ∃ slot, sampleOps.foldlM (SlotOp.step sumDigests) .default = some slot ∧
    SlotBounds slot ∧ ∀ s code, (slot.absorb s).2 = .error code → (slot.absorb s).1 = slot := by
  obtain ⟨slot, run⟩ := Option.isSome_iff_exists.mp
    (show (sampleOps.foldlM (SlotOp.step sumDigests) .default).isSome by decide +kernel)
  exact ⟨slot, run, slotBounds_run run⟩

end
end WaviclesPrime.Wire
