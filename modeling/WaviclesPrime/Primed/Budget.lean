import WaviclesPrime.Primed.Sections
import WaviclesPrime.Wire.SlotBounds

/-! The bytes of coinbase sections a session holds, and the budget for them. -/
namespace WaviclesPrime.Primed
open Wire Machine

/-- A sum in which one place changes. -/
theorem sum_replace {ι : Type} {l : List ι} (hl : l.Nodup) {i : ι} (hi : i ∈ l) {f g : ι → Nat}
    (h : ∀ j, j ≠ i → g j = f j) : (l.map g).sum + f i = (l.map f).sum + g i := by
  induction l with
  | nil => cases hi
  | cons a l ih =>
    obtain ⟨ha, hl⟩ := List.nodup_cons.mp hl
    simp only [List.map_cons, List.sum_cons]
    obtain rfl | hi := List.mem_cons.mp hi
    · have htail : l.map g = l.map f := List.map_congr_left fun j hj => h j fun heq => ha (heq ▸ hj)
      rw [htail]
      omega
    · have hrest := ih hl hi
      have hhead := h a fun heq => ha (heq ▸ hi)
      omega

theorem mem_allSlots (i : UInt8) : i ∈ allSlots :=
  List.mem_map.mpr ⟨i.toNat, List.mem_range.mpr i.toNat_lt, UInt8.ofNat_toNat⟩

theorem allSlots_nodup : allSlots.Nodup := by
  refine (List.nodup_map_iff_inj_on List.nodup_range).mpr fun a ha b hb h => ?_
  have hval := congrArg UInt8.toNat h
  rwa [UInt8.toNat_ofNat_of_lt' (List.mem_range.mp ha), UInt8.toNat_ofNat_of_lt' (List.mem_range.mp hb)] at hval

namespace Session
variable {ss ss' : Session}

theorem totalBytes_mono (h : ∀ i, (ss'.slots i).coinbaseBytes ≤ (ss.slots i).coinbaseBytes) :
    ss'.totalBytes ≤ ss.totalBytes := List.sum_le_sum fun i _ => h i

theorem bytes_le_total (i : UInt8) : (ss.slots i).coinbaseBytes ≤ ss.totalBytes :=
  List.single_le_sum (by simp) _ (List.mem_map_of_mem (mem_allSlots i))

theorem total_setSlot (id : UInt8) (slot : JobSlot) :
    (ss.setSlot id slot).totalBytes + (ss.slots id).coinbaseBytes = ss.totalBytes + slot.coinbaseBytes := by
  have h := sum_replace allSlots_nodup (mem_allSlots id) (f := fun i => (ss.slots i).coinbaseBytes)
    (g := fun i => ((ss.setSlot id slot).slots i).coinbaseBytes) fun j hj => by rw [setSlot_other hj]
  rwa [setSlot_self] at h

/-- What a session keeps: the caps of every slot, and the count of what they hold. -/
structure Counted (ss : Session) : Prop where
  caps : ∀ i, SlotCaps (ss.slots i)
  counter : ss.coinbaseBytes = ss.totalBytes

theorem totalBytes_lt (h : ∀ i, SlotCaps (ss.slots i)) : ss.totalBytes < sizeU64 := by
  have hsum := List.sum_le_card_nsmul (allSlots.map fun i => (ss.slots i).coinbaseBytes) 160000 (by
    intro x hx
    obtain ⟨i, -, rfl⟩ := List.mem_map.mp hx
    exact (h i).bytes_le)
  have hlen : (allSlots.map fun i => (ss.slots i).coinbaseBytes).length = 256 := by
    rw [List.length_map, allSlots, List.length_map, List.length_range]
  rw [hlen] at hsum
  exact Nat.lt_of_le_of_lt hsum (by decide)

theorem totalBytes_recount (n : Nat) : ({ ss with coinbaseBytes := n } : Session).totalBytes = ss.totalBytes := by
  unfold totalBytes
  rfl

theorem caps_setSlot (h : ∀ i, SlotCaps (ss.slots i)) {id : UInt8} {slot : JobSlot} (hs : SlotCaps slot) (i : UInt8) :
    SlotCaps ((ss.setSlot id slot).slots i) := by
  by_cases hi : i = id
  · rw [hi, setSlot_self]
    exact hs
  · rw [setSlot_other hi]
    exact h i

theorem touchSlot_slot (id i : UInt8) : ((ss.touchSlot id).slots i).coinbases = (ss.slots i).coinbases ∨
    ((ss.touchSlot id).slots i).coinbases = .empty := by
  unfold touchSlot
  dsimp only
  split
  · exact .inr rfl
  · exact .inl rfl

/-- The slots a share does not name lose sections at most. -/
theorem foldSections_other {id i : UInt8} {s : PowSubmit} (hid : s.jobId = id) (hi : i ≠ id) :
    ((ss.foldSections s).1.slots i).coinbases = (ss.slots i).coinbases ∨
    ((ss.foldSections s).1.slots i).coinbases = .empty := by
  subst hid
  have hinto := ss.folded_into s
  generalize ss.foldSections s = x at hinto ⊢
  have hset (slot : JobSlot) : ((ss.setSlot s.jobId slot).slots i).coinbases = (ss.slots i).coinbases := by
    rw [setSlot_other hi]
  cases hinto with
  | refused => exact .inl (hset _)
  | @started slot =>
    have htouch := @touchSlot_slot (ss.setSlot s.jobId slot) s.jobId i
    exact htouch.imp_left (·.trans (hset slot))
  | joined => exact .inl (hset _)

theorem foldSections_caps (h : ∀ i, SlotCaps (ss.slots i)) (s : PowSubmit) (i : UInt8) :
    SlotCaps ((ss.foldSections s).1.slots i) := by
  by_cases hi : i = s.jobId
  · rw [hi, foldSections_slot]
    exact (absorb_into _ s).caps (h _)
  · obtain hkept | hempty := foldSections_other rfl hi
    · exact (h i).of_eq hkept
    · exact .empty hempty

/-- However the count is taken after a share's sections, it is right. -/
theorem Counted.fold (h : ss.Counted) (s : PowSubmit) : (ss.foldSections s).1.Counted := by
  refine ⟨foldSections_caps h.caps s, ?_⟩
  have hcounter := h.counter
  have hbefore := ss.bytes_le_total s.jobId
  have hslot := absorb_into (ss.slots s.jobId) s
  have hcaps := hslot.caps (h.caps _)
  have hinto := ss.folded_into s
  generalize ss.foldSections s = x at hinto ⊢
  cases hinto with
  | @refused slot code absorbs =>
    have htotal := ss.total_setSlot s.jobId slot
    rw [absorbs] at hslot
    cases hslot with
    | refused hsame =>
      have hbytes : slot.coinbaseBytes = (ss.slots s.jobId).coinbaseBytes := coinbaseBytes_congr hsame
      change ss.coinbaseBytes = (ss.setSlot s.jobId slot).totalBytes
      omega
  | started => exact (totalBytes_recount _).symm
  | @joined slot absorbed absorbs =>
    have htotal := ss.total_setSlot s.jobId slot
    rw [absorbs] at hcaps
    have hsmall := @totalBytes_lt (ss.setSlot s.jobId slot) (caps_setSlot h.caps hcaps)
    rw [totalBytes_recount]
    change satAdd sizeU64 (ss.coinbaseBytes - (ss.slots s.jobId).coinbaseBytes) slot.coinbaseBytes = _
    rw [satAdd_of_lt (by omega)]
    omega

theorem Counted.drop (h : ss.Counted) (id : UInt8) (added : Option UInt8) :
    (ss.dropCoinbase id added).Counted := by
  cases added with
  | none => exact h
  | some added =>
    have htotal := ss.total_setSlot id ((ss.slots id).forgetCoinbase added)
    have hbefore := ss.bytes_le_total id
    have hcounter := h.counter
    have hless : ((ss.slots id).forgetCoinbase added).coinbaseBytes ≤ (ss.slots id).coinbaseBytes :=
      KeyMap.weight_erase_le ..
    refine ⟨caps_setSlot h.caps ((h.caps id).forgetCoinbase added), ?_⟩
    change ss.coinbaseBytes - _ = (ss.setSlot id ((ss.slots id).forgetCoinbase added)).totalBytes
    omega

end Session

section
variable {D : Decoders} {H : Digests} {sh sh' : Shared} {clock : Nat} {now : UInt32} {ss ss' : Session}
  {s : PowSubmit} {out : PowOutcome}

/-- Judging a share changes nothing that is counted. -/
theorem Session.Counted.judged (h : ss.Counted) {identity : Identity}
    (run : judgeShare H sh clock now ss identity s = some (sh', ss', out)) :
    ss'.Counted ∧ ss'.coinbaseBytes = ss.coinbaseBytes := by
  obtain rfl | ⟨slot, rfl, hsame⟩ := judgeShare_session run
  · exact ⟨h, rfl⟩
  · have hbytes := coinbaseBytes_congr hsame.2
    have htotal := ss.total_setSlot s.jobId slot
    have hcounter := h.counter
    refine ⟨⟨caps_setSlot h.caps ((h.caps _).of_eq hsame.2), ?_⟩, rfl⟩
    change ss.coinbaseBytes = (ss.setSlot s.jobId slot).totalBytes
    omega

/-- A session that gains no section with a share holds no more than before. -/
theorem foldSections_le (hr : ∀ a id, (ss.foldSections s).2 = .ok a → a.coinbaseAdded ≠ some id) :
    (ss.foldSections s).1.totalBytes ≤ ss.totalBytes := by
  refine Session.totalBytes_mono fun i => ?_
  by_cases hi : i = s.jobId
  · rw [hi, Session.foldSections_slot]
    rw [Session.foldSections_result] at hr
    exact (absorb_into _ s).bytes_le hr
  · exact coinbaseBytes_le (Session.foldSections_other rfl hi)

/-- Nor does one that drops the section it gained. -/
theorem drop_foldSections_le {changed : Bool} {id : UInt8} (hr : (ss.foldSections s).2 = .ok ⟨changed, some id⟩) :
    ((ss.foldSections s).1.dropCoinbase s.jobId (some id)).totalBytes ≤ ss.totalBytes := by
  refine Session.totalBytes_mono fun i => ?_
  unfold Session.dropCoinbase
  dsimp only
  by_cases hi : i = s.jobId
  · rw [hi, Session.setSlot_self, Session.foldSections_slot]
    rw [Session.foldSections_result] at hr
    have hinto := absorb_into (ss.slots s.jobId) s
    rw [hr] at hinto
    exact hinto.forget_le
  · rw [Session.setSlot_other hi]
    exact coinbaseBytes_le (Session.foldSections_other rfl hi)

/-- One share keeps the count, and the budget. -/
theorem onPow_counted (h : ss.Counted) (hb : ss.coinbaseBytes ≤ sh.cfg.sessionCoinbaseBudget)
    (run : onPow D H sh clock now ss s = some (sh', ss', out)) :
    ss'.Counted ∧ ss'.coinbaseBytes ≤ sh.cfg.sessionCoinbaseBudget := by
  have hfold := h.fold s
  have hle := @foldSections_le ss s
  have hwithin {mid : Session} (hmid : mid.Counted) (hless : mid.totalBytes ≤ ss.totalBytes) :
      mid.coinbaseBytes ≤ sh.cfg.sessionCoinbaseBudget := by
    rw [hmid.counter]
    exact hless.trans (h.counter ▸ hb)
  rcases onPow_cases run with ⟨-, -, rfl, -⟩ | ⟨identity, -, ⟨code, hsections, -, -⟩ |
    ⟨mid, ⟨changed, added⟩, hsections, ⟨hover, -, rfl, -⟩ | ⟨hunder, hjudge⟩⟩⟩
  · exact ⟨h, hb⟩
  · rw [hsections] at hfold hle
    exact ⟨hfold, hwithin hfold (hle fun _ _ herr => nomatch herr)⟩
  · obtain ⟨id, rfl⟩ := Option.isSome_iff_exists.mp hover.1
    have hless := drop_foldSections_le (congrArg Prod.snd hsections)
    rw [hsections] at hfold hless
    exact ⟨hfold.drop _ _, hwithin (hfold.drop _ _) hless⟩
  · rw [hsections] at hfold hle
    obtain ⟨hcounted, hsame⟩ := hfold.judged hjudge
    refine ⟨hcounted, hsame ▸ ?_⟩
    cases added with
    | none => exact hwithin hfold (hle fun _ _ hok => by cases hok; exact nofun)
    | some id => exact Nat.not_lt.mp fun hlt => hunder ⟨rfl, hlt⟩

end

/-- The shares a session processes; in between, the rest of the pool and the coinbasers it was
sent may change, but not the configuration. -/
inductive Processed (D : Decoders) (H : Digests) (cfg : Config) : Session → Prop
  | start : Processed D H cfg .fresh
  | coinbaser {ss} (before : Processed D H cfg ss) (coinbasers nextCoinbaserId) :
      Processed D H cfg { ss with coinbasers, nextCoinbaserId }
  | share {ss ss' sh sh' clock now s out} (before : Processed D H cfg ss) (hcfg : sh.cfg = cfg)
      (run : onPow D H sh clock now ss s = some (sh', ss', out)) : Processed D H cfg ss'

theorem fresh_counted : Session.fresh.Counted := by
  refine ⟨fun i => .empty rfl, ?_⟩
  change 0 = (allSlots.map fun _ => 0).sum
  simp

/-- After every share, the counter is what the slots hold, and within the budget. -/
theorem coinbaseBytes_counted {D : Decoders} {H : Digests} {cfg : Config} {ss : Session}
    (h : Processed D H cfg ss) :
    ss.coinbaseBytes = ss.totalBytes ∧ ss.coinbaseBytes ≤ cfg.sessionCoinbaseBudget := by
  have hall : ss.Counted ∧ ss.coinbaseBytes ≤ cfg.sessionCoinbaseBudget := by
    induction h with
    | start => exact ⟨fresh_counted, Nat.zero_le _⟩
    | coinbaser _ _ _ ih => exact ⟨⟨ih.1.caps, ih.1.counter⟩, ih.2⟩
    | share _ hcfg run ih => subst hcfg; exact onPow_counted ih.1 ih.2 run
  exact ⟨hall.1.counter, hall.2⟩

theorem coinbaseBytes_counted_sample : ∃ sh' ss' out, onPow sampleDecoders sumDigests sampleShared 1 1 .fresh
      (rename (sampleShare 5 4) sampleAddress) = some (sh', ss', out) ∧
    ss'.coinbaseBytes = ss'.totalBytes ∧ ss'.coinbaseBytes ≤ sampleConfig.sessionCoinbaseBudget := by
  have hrun : (onPow sampleDecoders sumDigests sampleShared 1 1 .fresh
      (rename (sampleShare 5 4) sampleAddress)).isSome = true := by decide +kernel
  obtain ⟨⟨sh', ss', out⟩, run⟩ := Option.isSome_iff_exists.mp hrun
  exact ⟨sh', ss', out, run, coinbaseBytes_counted (.share .start rfl run)⟩

end WaviclesPrime.Primed
