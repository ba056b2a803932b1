import WaviclesPrime.Primed.CarryPaid

/-! The heights of recorded blocks: where they come from, and the additions a confirm pass makes to
them, over any actions of the pool and any restarts. -/
namespace WaviclesPrime.Primed
open Wire Machine Tides

/-- The height of the block a share makes, if it makes one. -/
def Pool.candidateHeight (D : Decoders) (H : Digests) (p : Pool) (k clock now : Nat) (s : PowSubmit) :
    Option UInt32 :=
  match onPow D H p.shared clock (.ofNat now) (p.sessions k) s with
  | some (_, _, .accepted _ v) => if v.isBlockCandidate then some v.height else none
  | _ => none

/-- The largest addition to a height stays inside u32. -/
def Fits (height : UInt32) : Prop := height.toNat + recheckBlocks < sizeU32

/-- A share makes no block at the end of u32. -/
def Pool.Below (D : Decoders) (H : Digests) (p : Pool) : Action → Prop
  | .pow k _ clock now _ s => ∀ height ∈ p.candidateHeight D H k clock now s, Fits height
  | _ => True

/-- A pool at its start, with what the log reads back. -/
def Pool.restarted (sh : Shared) (log : List BlockRecord) (carry : Carry) : Pool :=
  ⟨{ sh with tip := none }, ⟨Journal.replay BlockRecord.hash log, carry⟩, fun _ => .fresh, none⟩

/-- The life of a pool and its block log: allowed actions, of whose lines some reach the log, and
restarts from the log. Where a settlement's sums overflow, the line before it stays, the pass ends, and the
ledger is left as it may be. -/
inductive Pool.Lifetime (D : Decoders) (H : Digests) (canonical : Snapshot.Doc → Bytes)
    (allowed : Pool → Action → Prop) (p : Pool) : Pool → List BlockRecord → Prop where
  | start : Lifetime D H canonical allowed p p []
  | step {q q' : Pool} {log lines : List BlockRecord} {a : Action} {events : List Event}
      (h : Lifetime D H canonical allowed p q log) (ok : allowed q a)
      (moved : q.step D H canonical a = some (q', events)) (appended : lines.Sublist (linesOf events)) :
      Lifetime D H canonical allowed p q' (log ++ lines)
  | stopped {q : Pool} {log lines : List BlockRecord} {a : Answer} {tipHeight : Nat} {hash : String}
      {height : UInt32} {rest : List (String × UInt32)} {ws : List Write}
      (h : Lifetime D H canonical allowed p q log) (under : q.pass = some (tipHeight, (hash, height) :: rest))
      (stops : q.treasury.checkBlock q.shared.cfg.carryForward tipHeight hash height a = ⟨ws, .error .sats⟩)
      (appended : lines.Sublist (linesOf (ws.map .wrote))) (carry : Carry) :
      Lifetime D H canonical allowed p
        { q with treasury := ⟨(q.treasury.updateBlock hash confirmRecord).1.blocks, carry⟩, pass := none }
        (log ++ lines)
  | restart {q : Pool} {log : List BlockRecord} (h : Lifetime D H canonical allowed p q log)
      (sh : Shared) (carry : Carry) : Lifetime D H canonical allowed p (.restarted sh log carry) log

/-- No addition to a height overflows: in a pass begun now, at any tip and with any answers, or in the
one under way. -/
structure Pool.PassSafe (p : Pool) : Prop where
  begun : ∀ tipHeight node,
    (p.treasury.confirmBlocks p.shared.cfg.carryForward tipHeight node).stop ≠ some .height
  underWay : ∀ tipHeight e rest, p.pass = some (tipHeight, e :: rest) → ∀ a,
    (p.treasury.checkBlock p.shared.cfg.carryForward tipHeight e.1 e.2 a).stop ≠ some .height

/-- Writing changes no height: neither in memory, nor in the lines. -/
structure SameHeights (t t' : Treasury) (ws : List Write) : Prop where
  memory : t'.blocks.map BlockRecord.height = t.blocks.map BlockRecord.height
  lines : ∀ r, .line r ∈ ws → r.height ∈ t.blocks.map BlockRecord.height

section
variable {t t' t'' : Treasury} {ws more : List Write} {hash : String} {carryForward : Bool}
  {tipHeight : Nat} {height : UInt32}

theorem SameHeights.refl (t : Treasury) : SameHeights t t [] := ⟨rfl, by simp⟩

theorem SameHeights.trans (h : SameHeights t t' ws) (h' : SameHeights t' t'' more) :
    SameHeights t t'' (ws ++ more) where
  memory := h'.memory.trans h.memory
  lines r hr := (List.mem_append.mp hr).elim (h.lines r) fun hr => h.memory ▸ h'.lines r hr

theorem updateBlock_heights {f : BlockRecord → BlockRecord} (hf : ∀ r, (f r).height = r.height)
    (run : t.updateBlock hash f = (t', ws)) : SameHeights t t' ws := by
  unfold Treasury.updateBlock at run
  split at run
  next =>
    obtain ⟨rfl, rfl⟩ := Prod.mk.inj run
    exact .refl t
  next blocks updated hu =>
    obtain ⟨rfl, rfl⟩ := Prod.mk.inj run
    obtain ⟨before, r, after, hblocks, -, -, rfl, rfl⟩ := Journal.updateLast_split hu
    constructor
    · simp [hblocks, hf]
    · intro x hx
      obtain rfl : x = f r := by simpa using hx
      rw [hblocks, hf]
      exact List.mem_map_of_mem (List.mem_append_right _ List.mem_cons_self)

theorem markOrphan_heights (run : t.markOrphan hash = (t', ws)) : SameHeights t t' ws := by
  unfold Treasury.markOrphan at run
  split at run
  next =>
    obtain ⟨rfl, rfl⟩ := Prod.mk.inj run
    exact .refl t
  next =>
    split at run
    next =>
      obtain ⟨rfl, rfl⟩ := Prod.mk.inj run
      exact .refl t
    next => exact updateBlock_heights (f := orphanRecord) (fun _ => rfl) run

theorem applyCarry_heights (run : t.applyCarryForSettled carryForward hash = ⟨ws, .ok t'⟩) :
    SameHeights t t' ws := by
  rcases Treasury.applyCarry_ok run with ⟨rfl, rfl, -⟩ | ⟨r, more, -, -, -, hput, rfl⟩
  · exact .refl t'
  · obtain ⟨hmemory, hlines⟩ := updateBlock_heights (f := carryRecord) (fun _ => rfl) hput
    exact ⟨hmemory, fun x hx => hlines x (by simpa using hx)⟩

theorem checkBlock_heights {a : Answer}
    (run : t.checkBlock carryForward tipHeight hash height a = ⟨ws, .ok t'⟩) : SameHeights t t' ws := by
  rcases Treasury.checkBlock_cases run with
    ⟨rfl, rfl⟩ | hmark | ⟨n, t₁, first, more, -, -, hmark, hmove, rfl⟩
  · exact .refl t'
  · exact markOrphan_heights hmark
  · exact (updateBlock_heights (f := confirmRecord) (fun _ => rfl) hmark).trans (applyCarry_heights hmove)

end

section
variable {tipHeight : Nat}

theorem recheck_total {r : BlockRecord} (h : Fits r.height) : ∃ b, recheck tipHeight r = some b := by
  unfold recheck
  split
  · exact ⟨false, rfl⟩
  · have hlimit : (if r.orphan then orphanRecheckBlocks else recheckBlocks) ≤ recheckBlocks := by
      split <;> decide
    have hadd : checkedAdd sizeU32 r.height.toNat (if r.orphan then orphanRecheckBlocks else recheckBlocks)
        = some (r.height.toNat + if r.orphan then orphanRecheckBlocks else recheckBlocks) := by
      unfold Fits at h
      rw [checkedAdd_eq_some]
      exact ⟨by omega, rfl⟩
    rw [hadd]
    exact ⟨_, rfl⟩

theorem askAbout_total {n : Nat} {xs : List BlockRecord} (h : ∀ r ∈ xs, Fits r.height) :
    ∃ ys, askAbout tipHeight n xs = some ys := by
  induction n, xs using askAbout.induct with
  | case1 xs => exact ⟨[], by rw [askAbout]⟩
  | case2 n => exact ⟨[], by rw [askAbout]⟩
  | case3 n r rest ihtake ihskip =>
    obtain ⟨hr, hrest⟩ := List.forall_mem_cons.mp h
    obtain ⟨asked, hasked⟩ : ∃ b, recheck tipHeight r = some b := recheck_total hr
    simp only [askAbout, hasked, Option.bind_eq_bind, Option.bind_some]
    cases asked with
    | true =>
      obtain ⟨ys, hys⟩ := ihtake hrest
      exact ⟨r :: ys, by simp [hys]⟩
    | false => exact ihskip hrest

theorem pending_total {t : Treasury} (h : ∀ r ∈ t.blocks, Fits r.height) (tipHeight : Nat) :
    ∃ asked, t.pending tipHeight = some asked ∧ ∀ e ∈ asked, Fits e.2 := by
  obtain ⟨ys, hys⟩ : ∃ ys, askAbout tipHeight maxAsked t.blocks.reverse = some ys :=
    askAbout_total fun r hr => h r (List.mem_reverse.mp hr)
  refine ⟨ys.map fun r => (r.hash, r.height), by simp [Treasury.pending, hys], ?_⟩
  rw [List.forall_mem_map]
  exact fun r hr => h r (List.mem_reverse.mp ((askAbout_sublist hys).subset hr))

theorem checkBlock_stop {height : UInt32} (h : Fits height) (carryForward : Bool) (tipHeight : Nat)
    (t : Treasury) (hash : String) (a : Answer) :
    (t.checkBlock carryForward tipHeight hash height a).stop ≠ some .height := by
  intro hstop
  obtain ⟨ws, run⟩ := Traced.stop_eq_some.mp hstop
  rcases Treasury.checkBlock_error run with ⟨-, -, hlarge⟩ | ⟨hsats, -⟩
  · simp only [Fits, recheckBlocks] at h
    omega
  · cases hsats

theorem checkAll_stop {asked : List (String × UInt32)} (h : ∀ e ∈ asked, Fits e.2) (carryForward : Bool)
    (tipHeight : Nat) (node : String → Answer) (t : Treasury) :
    (t.checkAll carryForward tipHeight node asked).stop ≠ some .height := by
  induction asked generalizing t with
  | nil =>
    intro hstop
    cases hstop
  | cons e asked ih =>
    obtain ⟨he, hrest⟩ := List.forall_mem_cons.mp h
    intro hstop
    obtain ⟨ws, run⟩ := Traced.stop_eq_some.mp hstop
    rcases Traced.bind_eq_error.mp run with hone | ⟨t', _, more, -, hmore, -⟩
    · exact checkBlock_stop he carryForward tipHeight t e.1 (node e.1) (Traced.stop_eq_some.mpr ⟨_, hone⟩)
    · exact ih hrest t' (Traced.stop_eq_some.mpr ⟨_, hmore⟩)

end

/-- What holds throughout: every height is far enough below the end of u32, in memory, in the log and
in the pass under way. -/
structure Pool.Low (p : Pool) (log : List BlockRecord) : Prop where
  memory : ∀ r ∈ p.treasury.blocks, Fits r.height
  log : ∀ r ∈ log, Fits r.height
  asked : ∀ tipHeight asked, p.pass = some (tipHeight, asked) → ∀ e ∈ asked, Fits e.2

section
variable {D : Decoders} {H : Digests} {canonical : Snapshot.Doc → Bytes} {p q q' : Pool}
  {log lines : List BlockRecord} {events : List Event} {a : Action}

theorem Pool.Low.passSafe (h : p.Low log) : p.PassSafe where
  begun tipHeight node hstop := by
    obtain ⟨asked, hasked, hfits⟩ := pending_total h.memory tipHeight
    obtain ⟨ws, run⟩ := Traced.stop_eq_some.mp hstop
    rcases Traced.bind_eq_error.mp run with hpending | ⟨_, _, more, hpending, hall, -⟩
    · cases hasked.symm.trans (Traced.require_eq_error.mp hpending).1
    · obtain rfl := Option.some.inj (hasked.symm.trans (Traced.require_eq_ok.mp hpending).1)
      exact checkAll_stop hfits _ tipHeight node p.treasury (Traced.stop_eq_some.mpr ⟨_, hall⟩)
  underWay tipHeight e rest hpass a :=
    checkBlock_stop (h.asked tipHeight (e :: rest) hpass e List.mem_cons_self) _ tipHeight p.treasury e.1 a

theorem Pool.Below.fits {k clock now : Nat} {w : WindowView} {gateway : String} {s : PowSubmit}
    {sh : Shared} {ss : Session} {identity : Identity} {v : VerifiedShare}
    (h : q.Below D H (.pow k w clock now gateway s))
    (run : onPow D H q.shared clock (.ofNat now) (q.sessions k) s = some (sh, ss, .accepted identity v))
    (hblock : v.isBlockCandidate = true) : Fits v.height :=
  h v.height (by simp [candidateHeight, run, hblock])

theorem onBlockCandidate_height {sh : Shared} {w : WindowView} {ss : Session} {s : PowSubmit}
    {v : VerifiedShare} {finder : Identity} {ts : Nat} {gateway : String} {r : BlockRecord}
    (h : onBlockCandidate D sh w ss s v finder ts gateway = some r) : r.height = v.height := by
  simp only [onBlockCandidate, Option.bind_eq_bind, Option.bind_eq_some_iff, Option.some.injEq] at h
  obtain ⟨books, -, rfl⟩ := h
  rfl

theorem SameHeights.fits {t t' : Treasury} {ws : List Write} (h : SameHeights t t' ws)
    (hfits : ∀ r ∈ t.blocks, Fits r.height) :
    (∀ r ∈ t'.blocks, Fits r.height) ∧ ∀ r, .line r ∈ ws → Fits r.height := by
  have hall : ∀ height ∈ t.blocks.map BlockRecord.height, Fits height := List.forall_mem_map.mpr hfits
  refine ⟨?_, fun r hr => hall _ (h.lines r hr)⟩
  rw [← h.memory] at hall
  exact List.forall_mem_map.mp hall

theorem Pool.Low.appended (h : q.Low log) (hsub : lines.Sublist (linesOf events))
    (hfits : ∀ r, Event.wrote (.line r) ∈ events → Fits r.height) : ∀ r ∈ log ++ lines, Fits r.height := by
  intro r hr
  rcases List.mem_append.mp hr with hr | hr
  · exact h.log r hr
  · exact hfits r (mem_linesOf.mp (hsub.subset hr))

/-- An action that leaves records and pass alone. -/
theorem Pool.Low.idle (h : q.Low log) (htreasury : q'.treasury = q.treasury) (hpass : q'.pass = q.pass)
    (hsub : lines.Sublist (linesOf events)) (hnone : ∀ r, Event.wrote (.line r) ∉ events) :
    q'.Low (log ++ lines) where
  memory := htreasury ▸ h.memory
  log := h.appended hsub fun r hr => absurd hr (hnone r)
  asked := hpass ▸ h.asked

theorem Pool.Low.step (h : q.Low log) (hbelow : q.Below D H a)
    (moved : q.step D H canonical a = some (q', events)) (hsub : lines.Sublist (linesOf events)) :
    q'.Low (log ++ lines) := by
  cases Pool.moves_of_step moved with
  | connect => exact h.idle rfl rfl hsub (by simp)
  | request => exact h.idle rfl rfl hsub (by simp)
  | tip => exact h.idle rfl rfl hsub (by simp)
  | controls => exact h.idle rfl rfl hsub (by simp)
  | idle => exact h.idle rfl rfl hsub (by simp)
  | prune => exact h.idle rfl rfl hsub (by simp)
  | @startPass tipHeight asked hasked =>
    obtain ⟨ys, hys, hfits⟩ := pending_total h.memory tipHeight
    obtain rfl : asked = ys := Option.some.inj (hasked.symm.trans hys)
    refine ⟨h.memory, h.appended hsub (by simp), ?_⟩
    intro tip asked' hpass
    obtain ⟨-, rfl⟩ := Prod.mk.inj (Option.some.inj hpass)
    exact hfits
  | @answer _ tipHeight _ _ _ _ _ hpass hcheck =>
    obtain ⟨hmemory, hlines⟩ := (checkBlock_heights hcheck).fits h.memory
    refine ⟨hmemory, h.appended hsub fun r hr => hlines r (by simpa using hr), ?_⟩
    intro tip asked hasked e he
    obtain ⟨-, rfl⟩ := Prod.mk.inj (Option.some.inj hasked)
    exact h.asked tipHeight _ hpass e (List.mem_cons_of_mem _ he)
  | refused => exact h.idle rfl rfl hsub (by simp)
  | share => exact h.idle rfl rfl hsub (by simp)
  | @found _ _ _ _ _ _ _ _ _ _ r ran hblock hr =>
    have hfits : Fits r.height := onBlockCandidate_height hr ▸ hbelow.fits ran hblock
    refine ⟨fun b hb => ?_, h.appended hsub fun b hb => ?_, h.asked⟩
    · change b ∈ (q.treasury.recordBlock r).1.blocks at hb
      rw [Treasury.recordBlock_blocks] at hb
      rcases List.mem_append.mp ((newest_sublist ..).subset hb) with hb | hb
      · exact h.memory b hb
      · exact List.mem_singleton.mp hb ▸ hfits
    · obtain rfl : b = r := by simpa [Treasury.recordBlock] using hb
      exact hfits

/-- A settlement whose sums overflow leaves the heights as they are. -/
theorem Pool.Low.stopped {tipHeight : Nat} {hash : String} {height : UInt32} {answer : Answer} {ws : List Write}
    (h : q.Low log)
    (stops : q.treasury.checkBlock q.shared.cfg.carryForward tipHeight hash height answer = ⟨ws, .error .sats⟩)
    (hsub : lines.Sublist (linesOf (ws.map .wrote))) (carry : Carry) :
    Pool.Low { q with treasury := ⟨(q.treasury.updateBlock hash confirmRecord).1.blocks, carry⟩, pass := none }
      (log ++ lines) := by
  have hsame : SameHeights q.treasury (q.treasury.updateBlock hash confirmRecord).1
      (q.treasury.updateBlock hash confirmRecord).2 := updateBlock_heights (f := confirmRecord) (fun _ => rfl) rfl
  rcases Treasury.checkBlock_error stops with ⟨hheight, -⟩ | ⟨-, rfl⟩
  · cases hheight
  · obtain ⟨hmemory, hlines⟩ := hsame.fits h.memory
    exact ⟨hmemory, h.appended hsub fun r hr => hlines r (by simpa using hr), by simp⟩

/-- In every life of a pool in which no block is found at the end of u32, a confirm pass never
overflows: begun at any time, after any restart, at any tip and with any answers. -/
theorem heights_never_overflow (hblocks : p.treasury.blocks = []) (hpass : p.pass = none)
    (run : p.Lifetime D H canonical (Pool.Below D H) q log) : q.PassSafe := by
  suffices h : q.Low log from h.passSafe
  induction run with
  | start => exact ⟨by simp [hblocks], by simp, by simp [hpass]⟩
  | step _ ok moved appended ih => exact ih.step ok moved appended
  | stopped _ _ stops appended carry ih => exact ih.stopped stops appended carry
  | restart _ sh carry ih =>
    exact ⟨fun r hr => ih.log r (Journal.mem_of_mem_replay hr), ih.log, by simp [Pool.restarted]⟩

end
/-- A coinbase that states a height and pays everything to the pool. -/
def heightCoinbase (height : UInt32) : Bytes :=
  [1, 0, 0, 0, 1] ++ List.replicate 32 0 ++ List.replicate 4 0xff ++ [5, 4] ++
    LittleEndian.write 4 height.toNat ++ List.replicate 4 0xff ++ [1] ++
    LittleEndian.write 8 2000000 ++ (22 :: (startedShared openConfig).poolScript) ++ [0, 0, 0, 0]

/-- A block whose job section and coinbase state the same height. -/
def blockAt (height : UInt32) : PowSubmit :=
  { sampleShare 5 4 with
    username := "1Ann"
    job := some { sampleJob with height := height, nbits := ⟨LittleEndian.write 4 0x207fffff, LittleEndian.length_write ..⟩ }
    coinbase := some ⟨0, heightCoinbase height, []⟩
    blake2b := some ⟨zeros 8, zeros 8⟩ }

def findAt (height : UInt32) : Action := .pow 0 .empty 0 0 "" (blockAt height)

/-- A pool that does not know the tip yet. -/
def freshPool : Pool := ⟨startedShared openConfig, ⟨[], .empty⟩, fun _ => .fresh, none⟩

/-- A block at height 7, and a restart. -/
theorem heights_never_overflow_restarted : ∃ q log,
    freshPool.Lifetime pairDecoders lowDigests (fun _ => []) (Pool.Below pairDecoders lowDigests) q log ∧
      q.treasury.blocks.length = 1 ∧ q.PassSafe := by
  have hheight : freshPool.candidateHeight pairDecoders lowDigests 0 0 0 (blockAt 7) = some 7 := by
    decide +kernel
  have hrun : (freshPool.step pairDecoders lowDigests (fun _ => []) (findAt 7)).map (fun x =>
      decide ((Pool.restarted (startedShared openConfig) (linesOf x.2) .empty).treasury.blocks.length = 1))
        = some true := by decide +kernel
  obtain ⟨⟨q, events⟩, hstep, hdec⟩ := Option.map_eq_some_iff.mp hrun
  have hbelow : freshPool.Below pairDecoders lowDigests (findAt 7) := by
    intro height hh
    obtain rfl : 7 = height := Option.some.inj (hheight.symm.trans hh)
    exact (by decide : (7 : UInt32).toNat + recheckBlocks < sizeU32)
  have run := (Pool.Lifetime.start.step hbelow hstep (List.Sublist.refl _)).restart
    (startedShared openConfig) .empty
  exact ⟨_, _, run, of_decide_eq_true hdec, heights_never_overflow rfl rfl run⟩

/-- A block at the last height of u32 stops every confirm pass, after a restart as before it. -/
theorem far_height_overflows : ∃ q log,
    freshPool.Lifetime pairDecoders lowDigests (fun _ => []) (fun _ _ => True) q log ∧ ¬ q.PassSafe ∧
      ¬ (Pool.restarted (startedShared openConfig) log .empty).PassSafe := by
  have hrun : (freshPool.step pairDecoders lowDigests (fun _ => []) (findAt 0xffffffff)).map (fun x =>
      decide ((x.1.treasury.confirmBlocks x.1.shared.cfg.carryForward 0 fun _ => .failed).stop = some .height ∧
        ((Pool.restarted (startedShared openConfig) (linesOf x.2) .empty).treasury.confirmBlocks
          openConfig.carryForward 0 fun _ => .failed).stop = some .height)) = some true := by
    decide +kernel
  obtain ⟨⟨q, events⟩, hstep, hdec⟩ := Option.map_eq_some_iff.mp hrun
  obtain ⟨hlive, hback⟩ := of_decide_eq_true hdec
  exact ⟨q, _, Pool.Lifetime.start.step trivial hstep (List.Sublist.refl _), fun h => h.begun 0 _ hlive,
    fun h => h.begun 0 _ hback⟩

end WaviclesPrime.Primed
