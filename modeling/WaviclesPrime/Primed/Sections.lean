import WaviclesPrime.Primed.Session
import WaviclesPrime.Wire.Transparency

/-! What becomes of the sections a share carries. -/
namespace WaviclesPrime.Primed
open Wire Machine

namespace Session
variable {ss : Session}

@[simp] theorem setSlot_self (id : UInt8) (slot : JobSlot) : (ss.setSlot id slot).slots id = slot :=
  if_pos rfl

@[simp] theorem setSlot_other {id i : UInt8} (h : i ≠ id) (slot : JobSlot) :
    (ss.setSlot id slot).slots i = ss.slots i := if_neg h

/-- A slot that just started a job is not among those evicted. -/
theorem touchSlot_self (id : UInt8) : (ss.touchSlot id).slots id = ss.slots id := by
  have hlen : ((ss.liveSlots.filter (· ≠ id) ++ [id]).length - maxLiveSlots)
      ≤ (ss.liveSlots.filter (· ≠ id)).length := by
    simp only [List.length_append, List.length_singleton, maxLiveSlots]
    omega
  have hnot : id ∉ (ss.liveSlots.filter (· ≠ id) ++ [id]).take
      ((ss.liveSlots.filter (· ≠ id) ++ [id]).length - maxLiveSlots) := by
    rw [List.take_append_of_le_length hlen]
    intro hm
    simpa using (List.mem_filter.mp (List.mem_of_mem_take hm)).2
  exact if_neg hnot

/-- How the sections of a share come into a session: they are refused, or start a job, or join one. -/
inductive FoldedInto (ss : Session) (s : PowSubmit) : Session × Except Reject Absorbed → Prop
  | refused {slot code} (absorbs : (ss.slots s.jobId).absorb s = (slot, .error code)) :
      FoldedInto ss s (ss.setSlot s.jobId slot, .error code)
  | started {slot absorbed} (absorbs : (ss.slots s.jobId).absorb s = (slot, .ok absorbed)) :
      FoldedInto ss s ({ (ss.setSlot s.jobId slot).touchSlot s.jobId with
        coinbaseBytes := ((ss.setSlot s.jobId slot).touchSlot s.jobId).totalBytes }, .ok absorbed)
  | joined {slot absorbed} (absorbs : (ss.slots s.jobId).absorb s = (slot, .ok absorbed)) :
      FoldedInto ss s ({ ss.setSlot s.jobId slot with
        coinbaseBytes := satAdd sizeU64 (ss.coinbaseBytes - (ss.slots s.jobId).coinbaseBytes)
          slot.coinbaseBytes }, .ok absorbed)

theorem foldSections_cases (ss : Session) (s : PowSubmit) :
    (∃ slot code, (ss.slots s.jobId).absorb s = (slot, .error code) ∧
      ss.foldSections s = (ss.setSlot s.jobId slot, .error code)) ∨
    ∃ slot absorbed, (ss.slots s.jobId).absorb s = (slot, .ok absorbed) ∧
      (absorbed.jobChanged = true ∧ ss.foldSections s =
          ({ (ss.setSlot s.jobId slot).touchSlot s.jobId with
            coinbaseBytes := ((ss.setSlot s.jobId slot).touchSlot s.jobId).totalBytes }, .ok absorbed) ∨
        absorbed.jobChanged = false ∧ ss.foldSections s = ({ ss.setSlot s.jobId slot with
          coinbaseBytes := satAdd sizeU64 (ss.coinbaseBytes - (ss.slots s.jobId).coinbaseBytes)
            slot.coinbaseBytes }, .ok absorbed)) := by
  unfold foldSections
  obtain ⟨slot, r⟩ := (ss.slots s.jobId).absorb s
  cases r with
  | error code => exact .inl ⟨slot, code, rfl, rfl⟩
  | ok absorbed =>
    refine .inr ⟨slot, absorbed, rfl, ?_⟩
    dsimp only
    split
    next hnew => exact .inl ⟨hnew, rfl⟩
    next hold =>
      rw [setSlot_self]
      exact .inr ⟨Bool.not_eq_true _ ▸ hold, rfl⟩

theorem folded_into (ss : Session) (s : PowSubmit) : FoldedInto ss s (ss.foldSections s) := by
  obtain ⟨slot, code, habs, hfold⟩ | ⟨slot, absorbed, habs, ⟨-, hfold⟩ | ⟨-, hfold⟩⟩ :=
    foldSections_cases ss s
  · rw [hfold]
    exact .refused habs
  · rw [hfold]
    exact .started habs
  · rw [hfold]
    exact .joined habs

/-- The named slot ends as absorption leaves it. -/
theorem foldSections_slot (s : PowSubmit) :
    ((ss.foldSections s).1.slots s.jobId) = ((ss.slots s.jobId).absorb s).1 := by
  have hinto := ss.folded_into s
  generalize ss.foldSections s = x at hinto ⊢
  cases hinto with
  | refused absorbs => rw [absorbs, setSlot_self]
  | @started slot _ absorbs =>
    rw [absorbs]
    exact (@touchSlot_self (ss.setSlot s.jobId slot) s.jobId).trans (setSlot_self _ _)
  | joined absorbs =>
    rw [absorbs]
    exact setSlot_self _ _

theorem foldSections_result (s : PowSubmit) :
    (ss.foldSections s).2 = ((ss.slots s.jobId).absorb s).2 := by
  have hinto := ss.folded_into s
  generalize ss.foldSections s = x at hinto ⊢
  cases hinto with
  | refused absorbs => rw [absorbs]
  | started absorbs => rw [absorbs]
  | joined absorbs => rw [absorbs]

end Session

section
variable {D : Decoders} {H : Digests} {sh sh' : Shared} {clock : Nat} {now : UInt32}
  {ss ss' : Session} {s : PowSubmit} {out : PowOutcome}

/-- The sections of two slots agree. -/
def SameSections (a b : JobSlot) : Prop := a.job = b.job ∧ a.coinbases = b.coinbases

theorem outcome_inj {a a' : Shared} {b b' : Session} {c c' : PowOutcome}
    (h : some (a, b, c) = some (a', b', c')) : a = a' ∧ b = b' ∧ c = c' := by
  simpa only [Option.some.injEq, Prod.mk.injEq] using h

/-- A share with a job that is not stale is verified on its slot, and credited if its height and
hash were not seen before. -/
theorem judgeShare_cases {identity : Identity}
    (run : judgeShare H sh clock now ss identity s = some (sh', ss', out)) :
    (sh' = sh ∧ ss' = ss ∧ ∃ code, out = .rejected code) ∨
    ∃ job p slot r, (ss.slots s.jobId).job = some job ∧ isStale sh clock job.height = some false ∧
      verify H (ss.slots s.jobId) s p = some (slot, r) ∧ ss' = ss.setSlot s.jobId slot ∧
      ((sh' = sh ∧ ∃ code, out = .rejected code) ∨
        ∃ v seen mark, r = .ok v ∧ sh.seen.insert v.height v.hash = (seen, mark) ∧
          sh' = { sh with seen := seen } ∧
          (mark = .fresh ∧ out = .accepted identity v ∨ mark ≠ .fresh ∧ ∃ code, out = .rejected code)) := by
  unfold judgeShare at run
  split at run
  next =>
    obtain ⟨rfl, rfl, rfl⟩ := outcome_inj run
    exact .inl ⟨rfl, rfl, _, rfl⟩
  next job hjob =>
    simp only [Option.bind_eq_bind, Option.bind_eq_some_iff] at run
    obtain ⟨stale, hstale, run⟩ := run
    cases stale with
    | true =>
      obtain ⟨rfl, rfl, rfl⟩ := outcome_inj run
      exact .inl ⟨rfl, rfl, _, rfl⟩
    | false =>
      obtain ⟨⟨slot, r⟩, hv, run⟩ := Option.bind_eq_some_iff.mp run
      refine .inr ⟨job, _, slot, r, hjob, hstale, hv, ?_⟩
      cases r with
      | error code =>
        obtain ⟨rfl, rfl, rfl⟩ := outcome_inj run
        exact ⟨rfl, .inl ⟨rfl, _, rfl⟩⟩
      | ok v =>
        dsimp only at run
        cases hins : sh.seen.insert v.height v.hash with
        | mk seen mark =>
          rw [hins] at run
          cases mark with
          | fresh =>
            obtain ⟨rfl, rfl, rfl⟩ := outcome_inj run
            exact ⟨rfl, .inr ⟨v, seen, _, rfl, hins, rfl, .inl ⟨rfl, rfl⟩⟩⟩
          | duplicate =>
            obtain ⟨rfl, rfl, rfl⟩ := outcome_inj run
            exact ⟨rfl, .inr ⟨v, seen, _, rfl, hins, rfl, .inr ⟨by decide, _, rfl⟩⟩⟩
          | full =>
            obtain ⟨rfl, rfl, rfl⟩ := outcome_inj run
            exact ⟨rfl, .inr ⟨v, seen, _, rfl, hins, rfl, .inr ⟨by decide, _, rfl⟩⟩⟩

/-- Judging a share touches its slot at most, and there no section. -/
theorem judgeShare_session {identity : Identity}
    (run : judgeShare H sh clock now ss identity s = some (sh', ss', out)) :
    ss' = ss ∨ ∃ slot, ss' = ss.setSlot s.jobId slot ∧ SameSections slot (ss.slots s.jobId) := by
  rcases judgeShare_cases run with ⟨-, hss, -⟩ | ⟨_, _, slot, _, -, -, hv, hss, -⟩
  · exact .inl hss
  · have hf := verify_frame hv
    exact .inr ⟨slot, hss, hf.job, hf.coinbases⟩

theorem judgeShare_sections {identity : Identity}
    (run : judgeShare H sh clock now ss identity s = some (sh', ss', out)) :
    SameSections (ss'.slots s.jobId) (ss.slots s.jobId) := by
  obtain rfl | ⟨slot, rfl, hsame⟩ := judgeShare_session run
  · exact ⟨rfl, rfl⟩
  · rwa [Session.setSlot_self]

/-- The limits a share's sections are held to: what one section and one slot may hold, and what
the session may hold once they are folded in. -/
structure WithinLimits (sh : Shared) (ss : Session) (s : PowSubmit) (absorbed : Absorbed) : Prop where
  absorbs : ((ss.slots s.jobId).absorb s).2 = .ok absorbed
  budget : absorbed.coinbaseAdded.isSome →
    (ss.foldSections s).1.coinbaseBytes ≤ sh.cfg.sessionCoinbaseBudget

/-- An admitted share within the limits goes on to be judged with its sections folded in. -/
theorem onPow_admitted {absorbed : Absorbed} (hw : WithinLimits sh ss s absorbed) {identity : Identity}
    (ha : admitIdentity D sh s.username = some identity) :
    onPow D H sh clock now ss s = judgeShare H sh clock now (ss.foldSections s).1 identity s := by
  have hres : (ss.foldSections s).2 = ((ss.slots s.jobId).absorb s).2 := Session.foldSections_result s
  have hb := hw.budget
  rw [hw.absorbs] at hres
  unfold onPow
  rw [ha]
  dsimp only
  generalize ss.foldSections s = x at hres hb ⊢
  obtain ⟨mid, r⟩ := x
  obtain rfl : r = .ok absorbed := hres
  exact if_neg fun h => absurd (hb h.1) (Nat.not_le.mpr h.2)

theorem onPow_refused (ha : admitIdentity D sh s.username = none) :
    onPow D H sh clock now ss s = some (sh, ss, .rejected rejectBadUsername) := by
  unfold onPow
  rw [ha]

/-- A share is refused for its user, its sections or the budget, or goes on to be judged. -/
theorem onPow_cases (run : onPow D H sh clock now ss s = some (sh', ss', out)) :
    (admitIdentity D sh s.username = none ∧ sh' = sh ∧ ss' = ss ∧ ∃ code, out = .rejected code) ∨
    ∃ identity, admitIdentity D sh s.username = some identity ∧
      ((∃ code, ss.foldSections s = (ss', .error code) ∧ sh' = sh ∧ out = .rejected code) ∨
      ∃ mid absorbed, ss.foldSections s = (mid, .ok absorbed) ∧
        (((absorbed.coinbaseAdded.isSome ∧ sh.cfg.sessionCoinbaseBudget < mid.coinbaseBytes) ∧ sh' = sh ∧
            ss' = mid.dropCoinbase s.jobId absorbed.coinbaseAdded ∧ ∃ code, out = .rejected code) ∨
          (¬ (absorbed.coinbaseAdded.isSome ∧ sh.cfg.sessionCoinbaseBudget < mid.coinbaseBytes)) ∧
            judgeShare H sh clock now mid identity s = some (sh', ss', out))) := by
  unfold onPow at run
  cases hid : admitIdentity D sh s.username with
  | none =>
    rw [hid] at run
    obtain ⟨rfl, rfl, rfl⟩ := outcome_inj run
    exact .inl ⟨rfl, rfl, rfl, _, rfl⟩
  | some identity =>
    refine .inr ⟨identity, rfl, ?_⟩
    rw [hid] at run
    dsimp only at run
    cases hfold : ss.foldSections s with
    | mk mid r =>
      rw [hfold] at run
      cases r with
      | error code =>
        obtain ⟨rfl, rfl, rfl⟩ := outcome_inj run
        exact .inl ⟨code, rfl, rfl, rfl⟩
      | ok absorbed =>
        refine .inr ⟨mid, absorbed, rfl, ?_⟩
        dsimp only at run
        split at run
        next hover =>
          obtain ⟨rfl, rfl, rfl⟩ := outcome_inj run
          exact .inl ⟨hover, rfl, rfl, _, rfl⟩
        next hunder => exact .inr ⟨hunder, run⟩

/-- The same share by another user. -/
def rename (s : PowSubmit) (u : String) : PowSubmit := { s with username := u }

def renamed (a : Attempt) (u : String) : Attempt := { a with share := rename a.share u }

private theorem tryConventions_renamed (a : Attempt) (u : String) (slot : JobSlot) (order : List Bool) :
    (renamed a u).tryConventions H slot order = a.tryConventions H slot order := by
  induction order generalizing slot with
  | nil => rfl
  | cons includes rest ih =>
    unfold Attempt.tryConventions
    rw [show (renamed a u).tryConvention H slot includes = a.tryConvention H slot includes from rfl]
    split
    · rfl
    · exact ih _

private theorem checkShare_renamed (a : Attempt) (u : String) (slot : JobSlot) (parsed : Coinbase)
    (p : Policy) : checkShare H slot (renamed a u) parsed p = checkShare H slot a parsed p := by
  unfold checkShare
  simp only [tryConventions_renamed]
  rfl

/-- Verification looks at everything in a share but its username. -/
theorem verify_username (slot : JobSlot) (p : Policy) (u : String) :
    verify H slot (rename s u) p = verify H slot s p := by
  have htarget (target : Bytes) : verifyWithTarget H slot (rename s u) p target
      = verifyWithTarget H slot s p target := by
    unfold verifyWithTarget
    rw [show (rename s u).isBlake2b = s.isBlake2b from rfl, show (rename s u).blake2b = s.blake2b from rfl,
      show (rename s u).timeOnWire = s.timeOnWire from rfl]
    cases s.isBlake2b with
    | false => rfl
    | true =>
      cases s.blake2b with
      | none => rfl
      | some b2 =>
        cases s.timeOnWire with
        | none => rfl
        | some t =>
          cases slot.job with
          | none => rfl
          | some job =>
            dsimp only
            rw [show slot.openCoinbase job (rename s u) = slot.openCoinbase job s from rfl]
            obtain ⟨next, r⟩ := slot.openCoinbase job s
            cases r with
            | error code => rfl
            | ok found => exact checkShare_renamed ⟨s, b2, job, found.1, t, target⟩ u next found.2 p
  unfold verify
  simp only [htarget, show (rename s u).targetPot = s.targetPot from rfl]

/-- Whoever is admitted, the session is left the same. -/
theorem judgeShare_username (u : String) (identity identity' : Identity) :
    (judgeShare H sh clock now ss identity (rename s u)).map (fun r => (r.1, r.2.1)) =
      (judgeShare H sh clock now ss identity' s).map (fun r => (r.1, r.2.1)) := by
  unfold judgeShare
  rw [show (rename s u).jobId = s.jobId from rfl]
  split
  · rfl
  · cases isStale sh clock _ with
    | none => rfl
    | some stale =>
      simp only [Option.bind_eq_bind, Option.bind_some, verify_username]
      split
      · rfl
      · rw [Option.map_bind, Option.map_bind]
        refine Option.bind_congr fun r _ => ?_
        dsimp only [Function.comp]
        split
        · rfl
        · split <;> rfl

/-- After a share, its slot holds what absorbing the share's sections leaves, whoever else is
admitted in its place; exactly so for admitted users, and for shares that bring nothing new. -/
theorem sections_kept_iff {absorbed : Absorbed} (hw : WithinLimits sh ss s absorbed) :
    ((∀ sh' ss' out, onPow D H sh clock now ss s = some (sh', ss', out) →
        SameSections (ss'.slots s.jobId) ((ss.slots s.jobId).absorb s).1) ↔
      (admitIdentity D sh s.username).isSome ∨
        SameSections (ss.slots s.jobId) ((ss.slots s.jobId).absorb s).1) ∧
    ∀ u, (admitIdentity D sh s.username).isSome → (admitIdentity D sh u).isSome →
      (onPow D H sh clock now ss (rename s u)).map (fun r => (r.1, r.2.1)) =
        (onPow D H sh clock now ss s).map (fun r => (r.1, r.2.1)) := by
  refine ⟨⟨fun h => ?_, ?_⟩, ?_⟩
  · cases ha : admitIdentity D sh s.username with
    | none => exact .inr (h _ _ _ (onPow_refused ha))
    | some identity => exact .inl rfl
  · rintro hcond sh' ss' out run
    cases ha : admitIdentity D sh s.username with
    | none =>
      obtain ⟨-, rfl, -⟩ := outcome_inj ((onPow_refused ha).symm.trans run)
      exact hcond.resolve_left (by simp [ha])
    | some identity =>
      rw [onPow_admitted hw ha] at run
      exact Session.foldSections_slot s ▸ judgeShare_sections run
  · intro u hs hu
    obtain ⟨identity, ha⟩ := Option.isSome_iff_exists.mp hs
    obtain ⟨identity', ha'⟩ := Option.isSome_iff_exists.mp hu
    have hw' : WithinLimits sh ss (rename s u) absorbed := ⟨hw.absorbs, hw.budget⟩
    rw [onPow_admitted hw ha, onPow_admitted hw' ha']
    exact judgeShare_username u identity' identity

end

def Session.fresh : Session := ⟨fun _ => .default, 0, [], [], 1⟩

def sampleConfig : Config where
  primeId := 1
  window := 8
  minPayout := 546
  feeBps := 50
  stratumFeeBps := 50
  minDiff := 1
  splitTolerance := 2
  staleGraceSecs := 30
  coinbaseTag := "Lazarus"
  maxConnections := 256
  maxConnectionsPerIp := 8
  sessionCoinbaseBudget := 4194304
  commitSnapshot := true
  snapshotTag := "PYBLOCK-TON618"
  carryForward := true
  maxPayees := 0

/-- An address on the main network, and the program it encodes. -/
def sampleAddress : String := "bc1qw508d6qejxtdg4y5r3zarvary0c5xw7kv8f3t4"

def sampleProgram : Bytes :=
  [0x75, 0x1e, 0x76, 0xe8, 0x19, 0x91, 0x96, 0xd4, 0x54, 0x94, 0x1c, 0x45, 0xd1, 0xb3, 0xa3, 0x23,
    0xf1, 0x43, 0x3b, 0xd6]

def sampleDecoders : Decoders where
  segwit a := if a = sampleAddress then some ("bc", 0, sampleProgram) else none
  base58 _ := none

def sampleShared : Shared where
  cfg := sampleConfig
  poolScript := [0x51, 9]
  network := .mainnet
  baseSplit := baseSplit sampleConfig
  controls := .none
  tip := none
  seen := .empty

private theorem sample_within (u : String) : WithinLimits sampleShared .fresh
    (rename (sampleShare 5 4) u) ⟨true, some 0⟩ where
  absorbs := rfl
  budget := fun _ => by
    have h : ((Session.fresh.foldSections (sampleShare 5 4)).1.coinbaseBytes ≤ 4194304) := by
      decide +kernel
    exact h

theorem sections_kept_sample : ∃ sh' ss' out, onPow sampleDecoders sumDigests sampleShared 0 0 .fresh
      (rename (sampleShare 5 4) sampleAddress) = some (sh', ss', out) ∧
    SameSections (ss'.slots 0) ((Session.fresh.slots 0).absorb (sampleShare 5 4)).1 := by
  have hrun : (onPow sampleDecoders sumDigests sampleShared 0 0 .fresh
      (rename (sampleShare 5 4) sampleAddress)).isSome = true := by decide +kernel
  obtain ⟨⟨sh', ss', out⟩, run⟩ := Option.isSome_iff_exists.mp hrun
  exact ⟨sh', ss', out, run, (sections_kept_iff (sample_within sampleAddress)).1.mpr
    (.inl (by decide +kernel)) sh' ss' out run⟩

/-- A share by a user who cannot be paid takes its sections with it. -/
theorem refused_share_drops_sections : ∃ sh' ss' out,
    WithinLimits sampleShared .fresh (rename (sampleShare 5 4) "sc184") ⟨true, some 0⟩ ∧
    onPow sampleDecoders sumDigests sampleShared 0 0 .fresh (rename (sampleShare 5 4) "sc184")
      = some (sh', ss', out) ∧
    ¬ SameSections (ss'.slots 0) ((Session.fresh.slots 0).absorb (rename (sampleShare 5 4) "sc184")).1 :=
  ⟨_, _, _, sample_within "sc184", onPow_refused (by decide +kernel), fun h => by
    have hjob : ((Session.fresh.slots 0).absorb (sampleShare 5 4)).1.job = some sampleJob := by
      decide +kernel
    exact absurd (h.1.trans hjob) (by simp [Session.fresh, JobSlot.default])⟩

end WaviclesPrime.Primed
