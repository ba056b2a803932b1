import WaviclesPrime.Primed.Budget

/-! Which slots of a session hold coinbase sections. -/
namespace WaviclesPrime.Primed
open Wire Machine

namespace Session
variable {ss mid : Session} {s : PowSubmit}

def holding (ss : Session) : List UInt8 := allSlots.filter fun i => 0 < (ss.slots i).coinbases.size

/-- Only live slots hold sections, and no more than may be live. -/
structure OnlyLive (ss : Session) : Prop where
  count : ss.holding.length ≤ maxLiveSlots
  live : ∀ i ∈ ss.holding, i ∈ ss.liveSlots

theorem mem_holding {i : UInt8} : i ∈ ss.holding ↔ 0 < (ss.slots i).coinbases.size := by
  simp [holding, mem_allSlots]

/-- What carries over from share to share: the live slots are few, and hold all sections. -/
structure Live (ss : Session) : Prop where
  bounded : ss.liveSlots.length ≤ maxLiveSlots
  held : ∀ i, 0 < (ss.slots i).coinbases.size → i ∈ ss.liveSlots

theorem Live.onlyLive (h : ss.Live) : ss.OnlyLive := by
  have hsub : ss.holding ⊆ ss.liveSlots := fun i hi => h.held i (mem_holding.mp hi)
  have hnodup : ss.holding.Nodup := allSlots_nodup.filter _
  exact ⟨(List.subperm_of_subset hnodup hsub).length_le.trans h.bounded, fun i hi => hsub hi⟩

/-- A session with the same live slots and no new holder. -/
theorem Live.of_held (h : ss.Live) (hlive : mid.liveSlots = ss.liveSlots)
    (hheld : ∀ i, 0 < (mid.slots i).coinbases.size → i ∈ ss.liveSlots) : mid.Live :=
  ⟨hlive ▸ h.bounded, fun i hi => hlive ▸ hheld i hi⟩

theorem Live.setSlot (h : ss.Live) {id : UInt8} {slot : JobSlot}
    (hslot : 0 < slot.coinbases.size → id ∈ ss.liveSlots) : (ss.setSlot id slot).Live := by
  refine h.of_held rfl fun i hi => ?_
  by_cases heq : i = id
  · subst heq
    rw [setSlot_self] at hi
    exact hslot hi
  · rw [setSlot_other heq] at hi
    exact h.held i hi

theorem setSlot_eta (id : UInt8) : ss.setSlot id (ss.slots id) = ss := by
  obtain ⟨slots, _, _, _, _⟩ := ss
  unfold Session.setSlot
  congr 1
  funext i
  split
  next heq => rw [heq]
  next => rfl

/-- The slots that fall out of the live ones are emptied, so any slot may be touched. -/
theorem live_touchSlot {id : UInt8} (hheld : ∀ i, i ≠ id → 0 < (ss.slots i).coinbases.size → i ∈ ss.liveSlots) :
    (ss.touchSlot id).Live := by
  unfold touchSlot
  dsimp only
  generalize hlive : ss.liveSlots.filter (· ≠ id) ++ [id] = live
  refine ⟨?_, fun i hi => ?_⟩
  · rw [List.length_drop]
    omega
  · dsimp only at hi
    have hout : i ∉ live.take (live.length - maxLiveSlots) := by
      intro hin
      rw [if_pos hin] at hi
      exact absurd hi (Nat.lt_irrefl 0)
    rw [if_neg hout] at hi
    have hmem : i ∈ live := by
      rw [← hlive, List.mem_append, List.mem_filter, List.mem_singleton]
      by_cases heq : i = id
      · exact .inr heq
      · exact .inl ⟨hheld i heq hi, by simpa using heq⟩
    rw [← List.take_append_drop (live.length - maxLiveSlots) live] at hmem
    exact (List.mem_append.mp hmem).resolve_left hout

theorem foldSections_refused {code : Reject} (hfold : ss.foldSections s = (mid, .error code)) : mid = ss := by
  obtain ⟨slot, code', habs, hrun⟩ | ⟨slot, absorbed, -, ⟨-, hrun⟩ | ⟨-, hrun⟩⟩ := foldSections_cases ss s
  · have hsame := absorb_refused (ss.slots s.jobId) (congrArg Prod.snd habs)
    rw [habs] at hsame
    obtain rfl : slot = ss.slots s.jobId := hsame
    rw [setSlot_eta] at hrun
    exact (Prod.mk.inj (hfold.symm.trans hrun)).1
  · cases (Prod.mk.inj (hfold.symm.trans hrun)).2
  · cases (Prod.mk.inj (hfold.symm.trans hrun)).2

/-- A share with a new job makes its slot live, and one without leaves the live slots alone. -/
theorem foldSections_taken {absorbed : Absorbed} (hfold : ss.foldSections s = (mid, .ok absorbed)) :
    (absorbed.jobChanged = true ∧ ∃ slot n,
      mid = { (ss.setSlot s.jobId slot).touchSlot s.jobId with coinbaseBytes := n }) ∨
    absorbed.jobChanged = false ∧ mid = { ss.setSlot s.jobId ((ss.slots s.jobId).absorb s).1 with
      coinbaseBytes := satAdd sizeU64 (ss.coinbaseBytes - (ss.slots s.jobId).coinbaseBytes)
        ((ss.slots s.jobId).absorb s).1.coinbaseBytes } := by
  obtain ⟨slot, code, -, hrun⟩ | ⟨slot, absorbed', habs, ⟨hnew, hrun⟩ | ⟨hold, hrun⟩⟩ :=
    foldSections_cases ss s
  · cases (Prod.mk.inj (hfold.symm.trans hrun)).2
  · obtain ⟨rfl, hok⟩ := Prod.mk.inj (hfold.symm.trans hrun)
    exact .inl ⟨Except.ok.inj hok ▸ hnew, slot, _, rfl⟩
  · obtain ⟨rfl, hok⟩ := Prod.mk.inj (hfold.symm.trans hrun)
    rw [habs]
    exact .inr ⟨Except.ok.inj hok ▸ hold, rfl⟩

/-- A share brings a section, and no new job, to a slot that is not live. -/
structure Refill (ss : Session) (s : PowSubmit) (c : CoinbaseSection) : Prop where
  dead : s.jobId ∉ ss.liveSlots
  repeats : RepeatsJob (ss.slots s.jobId) s
  carried : s.coinbase = some c
  small : c.size ≤ maxCoinbaseSectionBytes

/-- What a refill makes of a session: one more slot holds a section, and no more are live. -/
structure Refilled (ss mid : Session) (s : PowSubmit) (c : CoinbaseSection) : Prop where
  coinbases : (mid.slots s.jobId).coinbases = KeyMap.empty.insert c.coinbaseId c
  others : ∀ i, i ≠ s.jobId → mid.slots i = ss.slots i
  liveSlots : mid.liveSlots = ss.liveSlots
  bytes : mid.coinbaseBytes = satAdd sizeU64 ss.coinbaseBytes c.size

theorem dead_empty (held : ∀ i, 0 < (ss.slots i).coinbases.size → i ∈ ss.liveSlots) {id : UInt8}
    (dead : id ∉ ss.liveSlots) : (ss.slots id).coinbases = .empty :=
  KeyMap.eq_empty_of_size (Nat.eq_zero_of_not_pos fun h => dead (held id h))

theorem Refill.refilled {c : CoinbaseSection} {r : Except Reject Absorbed} (h : ss.Refill s c)
    (held : ∀ i, 0 < (ss.slots i).coinbases.size → i ∈ ss.liveSlots) (hfold : ss.foldSections s = (mid, r)) :
    r = .ok ⟨false, some c.coinbaseId⟩ ∧ Refilled ss mid s c := by
  have hempty := dead_empty held h.dead
  obtain ⟨-, -, hnone⟩ | ⟨c', hc, hsmall, hok, hslot⟩ := absorb_refill hempty h.repeats
  · exact absurd (hnone c h.carried) (Nat.not_lt.mpr h.small)
  · obtain rfl := Option.some.inj (h.carried.symm.trans hc)
    obtain rfl : r = .ok ⟨false, some c.coinbaseId⟩ :=
      (congrArg Prod.snd hfold).symm.trans ((foldSections_result s).trans hok)
    obtain ⟨hnew, -⟩ | ⟨-, hmid⟩ := foldSections_taken hfold
    · cases hnew
    refine ⟨rfl, ?_, fun i hi => ?_, ?_, ?_⟩
    · rw [hmid]
      exact (congrArg JobSlot.coinbases (setSlot_self _ _)).trans hslot
    · rw [hmid]
      exact setSlot_other hi _
    · rw [hmid]
      rfl
    · have hbefore : (ss.slots s.jobId).coinbaseBytes = 0 := by
        rw [JobSlot.coinbaseBytes, hempty]
        rfl
      have hafter : ((ss.slots s.jobId).absorb s).1.coinbaseBytes = c.size := by
        rw [JobSlot.coinbaseBytes, hslot]
        simp [KeyMap.insert, KeyMap.erase, KeyMap.retain, KeyMap.empty]
      rw [hmid, hbefore, hafter, Nat.sub_zero]

/-- Folding sections in leaves them in live slots unless it is a refill. -/
theorem Live.fold (h : ss.Live) {absorbed : Absorbed} (hfold : ss.foldSections s = (mid, .ok absorbed)) :
    mid.Live ∨ ∃ c, ss.Refill s c := by
  have hok : ((ss.slots s.jobId).absorb s).2 = .ok absorbed :=
    (foldSections_result s).symm.trans (congrArg Prod.snd hfold)
  obtain ⟨-, slot, n, rfl⟩ | ⟨hjob, rfl⟩ := foldSections_taken hfold
  · have htouch : ((ss.setSlot s.jobId slot).touchSlot s.jobId).Live := by
      refine live_touchSlot fun i hi hheld => ?_
      rw [setSlot_other hi] at hheld
      exact h.held i hheld
    exact .inl ⟨htouch.bounded, htouch.held⟩
  · have hrepeats := (absorb_jobChanged hok).mp hjob
    by_cases hlive : s.jobId ∈ ss.liveSlots
    · have hset : (ss.setSlot s.jobId ((ss.slots s.jobId).absorb s).1).Live := h.setSlot fun _ => hlive
      exact .inl ⟨hset.bounded, hset.held⟩
    · obtain ⟨hsame, -, -⟩ | ⟨c, hc, hsmall, -, -⟩ := absorb_refill (dead_empty h.held hlive) hrepeats
      · rw [hsame, setSlot_eta]
        exact .inl ⟨h.bounded, h.held⟩
      · exact .inr ⟨c, hlive, hrepeats, hc, hsmall⟩

theorem Live.drop (h : ss.Live) (id : UInt8) (added : Option UInt8) : (ss.dropCoinbase id added).Live := by
  cases added with
  | none => exact h
  | some added =>
    have hset : (ss.setSlot id ((ss.slots id).forgetCoinbase added)).Live := h.setSlot fun hheld =>
      h.held id (Nat.lt_of_lt_of_le hheld (KeyMap.size_retain_le _ _))
    exact ⟨hset.bounded, hset.held⟩

/-- A refill that is dropped again leaves the sections in the live slots. -/
theorem Refilled.drop {c : CoinbaseSection} (hr : Refilled ss mid s c) (h : ss.Live) :
    (mid.dropCoinbase s.jobId (some c.coinbaseId)).Live := by
  refine h.of_held hr.liveSlots fun i hi => ?_
  unfold dropCoinbase at hi
  dsimp only at hi
  by_cases heq : i = s.jobId
  · subst heq
    rw [setSlot_self] at hi
    have hforget : ((mid.slots s.jobId).forgetCoinbase c.coinbaseId).coinbases =
        (KeyMap.empty.insert c.coinbaseId c).erase c.coinbaseId := hr.coinbases ▸ rfl
    rw [hforget, KeyMap.erase_insert] at hi
    exact absurd hi (Nat.not_lt.mpr (KeyMap.size_retain_le KeyMap.empty _))
  · rw [setSlot_other heq, hr.others i heq] at hi
    exact h.held i hi

end Session

/-- A share that is admitted and within the limits refills a slot that is not live. -/
structure Refills (D : Decoders) (sh : Shared) (ss : Session) (s : PowSubmit) : Prop where
  admitted : (admitIdentity D sh s.username).isSome
  refill : ∃ c, ss.Refill s c ∧ satAdd sizeU64 ss.coinbaseBytes c.size ≤ sh.cfg.sessionCoinbaseBudget

section
variable {D : Decoders} {H : Digests} {sh sh' : Shared} {clock : Nat} {now : UInt32} {ss ss' : Session}
  {s : PowSubmit} {out : PowOutcome}

theorem Session.Live.judged (h : ss.Live) {identity : Identity}
    (run : judgeShare H sh clock now ss identity s = some (sh', ss', out)) : ss'.Live := by
  obtain rfl | ⟨slot, rfl, hsame⟩ := judgeShare_session run
  · exact h
  · exact h.setSlot fun hheld => h.held _ (hsame.2 ▸ hheld)

/-- Every other share leaves the sections in the live slots. -/
theorem onPow_live (h : ss.Live) (hnot : ¬ Refills D sh ss s)
    (run : onPow D H sh clock now ss s = some (sh', ss', out)) : ss'.Live := by
  rcases onPow_cases run with ⟨-, -, rfl, -⟩ | ⟨identity, hid, ⟨code, hfold, -, -⟩ |
    ⟨mid, absorbed, hfold, ⟨-, -, rfl, -⟩ | ⟨hunder, hjudge⟩⟩⟩
  · exact h
  · obtain rfl := Session.foldSections_refused hfold
    exact h
  · obtain hlive | ⟨c, hrefill⟩ := h.fold hfold
    · exact hlive.drop _ _
    · obtain ⟨hok, hrefilled⟩ := hrefill.refilled h.held hfold
      obtain rfl := Except.ok.inj hok
      exact hrefilled.drop h
  · obtain hlive | ⟨c, hrefill⟩ := h.fold hfold
    · exact hlive.judged hjudge
    · obtain ⟨hok, hrefilled⟩ := hrefill.refilled h.held hfold
      obtain rfl := Except.ok.inj hok
      have hbudget : satAdd sizeU64 ss.coinbaseBytes c.size ≤ sh.cfg.sessionCoinbaseBudget := by
        rw [← hrefilled.bytes]
        exact Nat.not_lt.mp fun hlt => hunder ⟨rfl, hlt⟩
      exact absurd ⟨by rw [hid]; rfl, c, hrefill, hbudget⟩ hnot

/-- A refill leaves sections in a slot that is not live. -/
theorem Refills.not_onlyLive (h : Refills D sh ss s) (honly : ss.OnlyLive)
    (run : onPow D H sh clock now ss s = some (sh', ss', out)) : ¬ ss'.OnlyLive := by
  obtain ⟨hid, c, hrefill, hbudget⟩ := h
  obtain ⟨⟨mid, r⟩, hfold⟩ : ∃ x, ss.foldSections s = x := ⟨_, rfl⟩
  obtain ⟨rfl, hrefilled⟩ := hrefill.refilled (fun i hi => honly.live i (Session.mem_holding.mpr hi)) hfold
  have hmid : 0 < (mid.slots s.jobId).coinbases.size := by
    rw [hrefilled.coinbases]
    exact Nat.succ_pos _
  have hend : ss'.liveSlots = mid.liveSlots ∧ 0 < (ss'.slots s.jobId).coinbases.size := by
    rcases onPow_cases run with ⟨hnone, -⟩ | ⟨identity, -, ⟨code, hfold', -, -⟩ |
      ⟨mid', absorbed, hfold', ⟨hover, -⟩ | ⟨-, hjudge⟩⟩⟩
    · simp [hnone] at hid
    · cases (Prod.mk.inj (hfold.symm.trans hfold')).2
    · obtain ⟨rfl, -⟩ := Prod.mk.inj (hfold.symm.trans hfold')
      exact absurd (hrefilled.bytes ▸ hbudget) (Nat.not_le.mpr hover.2)
    · obtain ⟨rfl, -⟩ := Prod.mk.inj (hfold.symm.trans hfold')
      obtain rfl | ⟨slot, rfl, hsame⟩ := judgeShare_session hjudge
      · exact ⟨rfl, hmid⟩
      · refine ⟨rfl, ?_⟩
        rw [Session.setSlot_self, hsame.2]
        exact hmid
  intro hlive
  exact hrefill.dead (hrefilled.liveSlots ▸ hend.1 ▸ hlive.live _ (Session.mem_holding.mpr hend.2))

end

/-- What happens to a session: its coinbasers change, or it processes a share. -/
inductive SessionStep where
  | coinbaser (coinbasers : List IssuedCoinbaser) (next : UInt8)
  | share (sh : Shared) (clock : Nat) (now : UInt32) (s : PowSubmit)

namespace SessionStep

def run (D : Decoders) (H : Digests) (ss : Session) : SessionStep → Option Session
  | .coinbaser coinbasers next => some { ss with coinbasers := coinbasers, nextCoinbaserId := next }
  | .share sh clock now s => (onPow D H sh clock now ss s).map fun r => r.2.1

def Refills (D : Decoders) (ss : Session) : SessionStep → Prop
  | .coinbaser _ _ => False
  | .share sh _ _ s => Primed.Refills D sh ss s

variable {D : Decoders} {H : Digests} {ss ss' : Session} {step : SessionStep}

theorem run_live (h : ss.Live) (hnot : ¬ step.Refills D ss) (hrun : step.run D H ss = some ss') : ss'.Live := by
  cases step with
  | coinbaser coinbasers next => exact Option.some.inj hrun ▸ ⟨h.bounded, h.held⟩
  | share sh clock now s =>
    obtain ⟨⟨sh', next, out⟩, hpow, rfl⟩ := Option.map_eq_some_iff.mp hrun
    exact onPow_live h hnot hpow

theorem run_refills (h : ss.OnlyLive) (hrefills : step.Refills D ss) (hrun : step.run D H ss = some ss') :
    ¬ ss'.OnlyLive := by
  cases step with
  | coinbaser coinbasers next => exact hrefills.elim
  | share sh clock now s =>
    obtain ⟨⟨sh', next, out⟩, hpow, rfl⟩ := Option.map_eq_some_iff.mp hrun
    exact Primed.Refills.not_onlyLive hrefills h hpow

end SessionStep

theorem fresh_live : Session.fresh.Live := ⟨Nat.zero_le _, fun _ h => absurd h (Nat.lt_irrefl 0)⟩

/-- Only the live slots hold sections all along a run, exactly if no share in it refills another. -/
theorem onlyLive_iff {D : Decoders} {H : Digests} {steps : List SessionStep} {last : Session}
    (hrun : steps.foldlM (SessionStep.run D H) .fresh = some last) :
    (∀ done ss, done <+: steps → done.foldlM (SessionStep.run D H) .fresh = some ss → ss.OnlyLive) ↔
      ∀ done step ss, done ++ [step] <+: steps → done.foldlM (SessionStep.run D H) .fresh = some ss →
        ¬ step.Refills D ss := by
  constructor
  · intro honly done step ss hprefix hdone hrefills
    obtain ⟨rest, rfl⟩ := hprefix
    rw [List.foldlM_append, Option.bind_eq_bind, Option.bind_eq_some_iff] at hrun
    obtain ⟨next, hnext, -⟩ := hrun
    have hstep : step.run D H ss = some next := by
      rw [List.foldlM_append, hdone] at hnext
      simpa using hnext
    exact SessionStep.run_refills (honly done ss ⟨step :: rest, by simp⟩ hdone) hrefills hstep
      (honly (done ++ [step]) next ⟨rest, rfl⟩ hnext)
  · intro hnot done ss hprefix hdone
    have hlive := Loop.run_invariant (f := SessionStep.run D H)
      (P := fun before s => before.foldlM (SessionStep.run D H) .fresh = some s ∧ s.Live)
      (fun before x s s' hbefore hs hx => by
        refine ⟨?_, SessionStep.run_live hs.2 (hnot before x s (hbefore.trans hprefix) hs.1) hx⟩
        rw [List.foldlM_append, hs.1]
        simpa using hx)
      ⟨rfl, fresh_live⟩ hdone
    exact hlive.2.onlyLive

/-- A share with a section and no job. -/
def refillSteps : List SessionStep :=
  [.share sampleShared 1 1 { rename (sampleShare 5 4) sampleAddress with job := none }]

theorem refill_outside_live : ∃ last, refillSteps.foldlM (SessionStep.run sampleDecoders sumDigests) .fresh
      = some last ∧ last.holding = [0] ∧ last.liveSlots = [] ∧ ¬ last.OnlyLive := by
  have h : (refillSteps.foldlM (SessionStep.run sampleDecoders sumDigests) .fresh).map
      (fun ss => (ss.holding, ss.liveSlots)) = some ([0], []) := by decide +kernel
  obtain ⟨last, hrun, hlast⟩ := Option.map_eq_some_iff.mp h
  obtain ⟨hholding, hlive⟩ := Prod.mk.inj hlast
  refine ⟨last, hrun, hholding, hlive, fun honly => ?_⟩
  have hmem := honly.live 0 (by simp [hholding])
  simp [hlive] at hmem

/-- A share that starts a job. -/
def startSteps : List SessionStep := [.share sampleShared 1 1 (rename (sampleShare 5 4) sampleAddress)]

theorem onlyLive_sample : ∃ last, startSteps.foldlM (SessionStep.run sampleDecoders sumDigests) .fresh
      = some last ∧ last.OnlyLive := by
  obtain ⟨last, hrun⟩ := Option.isSome_iff_exists.mp (show (startSteps.foldlM
    (SessionStep.run sampleDecoders sumDigests) .fresh).isSome by decide +kernel)
  refine ⟨last, hrun, (onlyLive_iff hrun).mpr ?_ startSteps last List.prefix_rfl hrun⟩
  rintro done step ss ⟨rest, hsteps⟩ hdone hrefills
  obtain ⟨rfl, hrest⟩ : done = [] ∧ step :: rest = startSteps := by
    cases done with
    | nil => exact ⟨rfl, hsteps⟩
    | cons first done =>
      have hlen := congrArg List.length hsteps
      simp [startSteps] at hlen
  obtain ⟨rfl, -⟩ := List.cons.inj hrest
  obtain rfl := Option.some.inj hdone
  obtain ⟨-, c, hrefill, -⟩ := hrefills
  exact absurd (hrefill.repeats sampleJob rfl) (by simp [Session.fresh, JobSlot.default])

end WaviclesPrime.Primed
