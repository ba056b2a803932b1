import WaviclesPrime.Primed.Coinbaser
import WaviclesPrime.Primed.Rulings
import WaviclesPrime.Primed.Sections

/-! The pool as a whole: sessions, the node poller, housekeeping and the confirm pass, in any order. -/
namespace WaviclesPrime.Primed
open Wire Machine Tides

/-- `pass` is the confirm pass under way: the height it started at, and what it has still to ask. -/
structure Pool where
  shared : Shared
  treasury : Treasury
  sessions : Nat → Session
  pass : Option (Nat × List (String × UInt32))

inductive Action where
  /-- A gateway connects, as a session of its own. -/
  | connect (k : Nat)
  | request (k : Nat) (w : WindowView) (value : Nat) (prevHash : Hash) (now : Nat) (stored : Bool)
  | pow (k : Nat) (w : WindowView) (clock now : Nat) (gateway : String) (s : PowSubmit)
  /-- The node poller sees a new tip. -/
  | tip (t : Tip)
  | controls (c : Controls)
  | housekeeping
  | startPass (tipHeight : Nat)
  | answer (a : Answer)

/-- What the outside sees of an action: a share credited, or something written. -/
inductive Event where
  | credited (height : UInt32) (hash : Bytes)
  | wrote (w : Write)

/-- The lines of the block log some events write. -/
def linesOf (events : List Event) : List BlockRecord :=
  events.filterMap fun e => match e with
    | .wrote (.line r) => some r
    | _ => none

theorem mem_linesOf {events : List Event} {r : BlockRecord} : r ∈ linesOf events ↔ Event.wrote (.line r) ∈ events := by
  simp only [linesOf, List.mem_filterMap]
  constructor
  · rintro ⟨e, he, h⟩
    split at h
    next x =>
      obtain rfl := Option.some.inj h
      exact he
    next => simp at h
  · exact fun h => ⟨_, h, rfl⟩

namespace Pool

def setSession (p : Pool) (k : Nat) (ss : Session) : Pool :=
  { p with sessions := fun i => if i = k then ss else p.sessions i }

section
variable (D : Decoders) (H : Digests) (canonical : Snapshot.Doc → Bytes)

/-- A share, and the block it makes if it is one. -/
def pow (p : Pool) (k : Nat) (w : WindowView) (clock now : Nat) (gateway : String) (s : PowSubmit) :
    Option (Pool × List Event) := do
  let (sh, ss, outcome) ← onPow D H p.shared clock (.ofNat now) (p.sessions k) s
  let p := { p with shared := sh }.setSession k ss
  match outcome with
  | .rejected _ => some (p, [])
  | .accepted identity v =>
    let credited := Event.credited v.height v.hash
    if v.isBlockCandidate then
      let r ← onBlockCandidate D sh w ss s v identity now gateway
      let (t, ws) := p.treasury.recordBlock r
      some ({ p with treasury := t }, credited :: ws.map .wrote)
    else some (p, [credited])

/-- The next answer of the node, to the pass under way. -/
def answer (p : Pool) (a : Answer) : Option (Pool × List Event) :=
  match p.pass with
  | some (tipHeight, (hash, height) :: rest) =>
    match p.treasury.checkBlock p.shared.cfg.carryForward tipHeight hash height a with
    | ⟨ws, .ok t⟩ => some ({ p with treasury := t, pass := some (tipHeight, rest) }, ws.map .wrote)
    -- an overflow ends the poller
    | ⟨_, .error _⟩ => none
  | _ => none

def step (p : Pool) : Action → Option (Pool × List Event)
  | .connect k => some (p.setSession k .fresh, [])
  | .request k w value prevHash now stored => do
    let (ss, _) ← onCoinbaserRequest D H canonical p.shared w p.treasury.carry (p.sessions k) value
      prevHash now stored
    some (p.setSession k ss, [])
  | .pow k w clock now gateway s => p.pow D H k w clock now gateway s
  | .tip t => some ({ p with shared := { p.shared with tip := some t } }, [])
  | .controls c => some ({ p with shared := { p.shared with controls := c } }, [])
  | .housekeeping =>
    match p.shared.tip with
    | none => some (p, [])
    | some t => do
      let seen ← p.shared.seen.pruneBelow (t.height - 2)
      some ({ p with shared := { p.shared with seen := seen } }, [])
  | .startPass tipHeight => do
    let asked ← p.treasury.pending tipHeight
    some ({ p with pass := some (tipHeight, asked) }, [])
  | .answer a => p.answer a

end
end Pool
/-- Some actions in turn. -/
def Pool.play (D : Decoders) (H : Digests) (canonical : Snapshot.Doc → Bytes) (p : Pool) :
    List Action → Option (Pool × List Event)
  | [] => some (p, [])
  | a :: rest => do
    let (q, events) ← p.step D H canonical a
    let (q', more) ← q.play D H canonical rest
    some (q', events ++ more)

/-- One action, by what the parts it calls return. -/
inductive Pool.Moves (D : Decoders) (H : Digests) (canonical : Snapshot.Doc → Bytes) (p : Pool) :
    Action → Pool → List Event → Prop where
  | connect (k : Nat) : Moves D H canonical p (.connect k) (p.setSession k .fresh) []
  | request {k : Nat} {w : WindowView} {value : Nat} {prevHash : Hash} {now : Nat} {stored : Bool}
      {ss : Session} {message : Bytes}
      (ran : onCoinbaserRequest D H canonical p.shared w p.treasury.carry (p.sessions k) value
        prevHash now stored = some (ss, message)) :
      Moves D H canonical p (.request k w value prevHash now stored) (p.setSession k ss) []
  | tip (t : Tip) : Moves D H canonical p (.tip t) { p with shared := { p.shared with tip := some t } } []
  | controls (c : Controls) :
      Moves D H canonical p (.controls c) { p with shared := { p.shared with controls := c } } []
  | idle (htip : p.shared.tip = none) : Moves D H canonical p .housekeeping p []
  | prune {t : Tip} {seen : SeenShares} (htip : p.shared.tip = some t)
      (hseen : p.shared.seen.pruneBelow (t.height - 2) = some seen) :
      Moves D H canonical p .housekeeping { p with shared := { p.shared with seen := seen } } []
  | startPass {tipHeight : Nat} {asked : List (String × UInt32)}
      (hasked : p.treasury.pending tipHeight = some asked) :
      Moves D H canonical p (.startPass tipHeight) { p with pass := some (tipHeight, asked) } []
  | answer {a : Answer} {tipHeight : Nat} {hash : String} {height : UInt32}
      {rest : List (String × UInt32)} {t : Treasury} {ws : List Write}
      (hpass : p.pass = some (tipHeight, (hash, height) :: rest))
      (hcheck : p.treasury.checkBlock p.shared.cfg.carryForward tipHeight hash height a = ⟨ws, .ok t⟩) :
      Moves D H canonical p (.answer a) { p with treasury := t, pass := some (tipHeight, rest) }
        (ws.map .wrote)
  | refused {k : Nat} {w : WindowView} {clock now : Nat} {gateway : String} {s : PowSubmit}
      {sh : Shared} {ss : Session} {code : Reject}
      (ran : onPow D H p.shared clock (.ofNat now) (p.sessions k) s = some (sh, ss, .rejected code)) :
      Moves D H canonical p (.pow k w clock now gateway s) ({ p with shared := sh }.setSession k ss) []
  | share {k : Nat} {w : WindowView} {clock now : Nat} {gateway : String} {s : PowSubmit}
      {sh : Shared} {ss : Session} {identity : Identity} {v : VerifiedShare}
      (ran : onPow D H p.shared clock (.ofNat now) (p.sessions k) s = some (sh, ss, .accepted identity v)) :
      Moves D H canonical p (.pow k w clock now gateway s) ({ p with shared := sh }.setSession k ss)
        [.credited v.height v.hash]
  | found {k : Nat} {w : WindowView} {clock now : Nat} {gateway : String} {s : PowSubmit}
      {sh : Shared} {ss : Session} {identity : Identity} {v : VerifiedShare} {r : BlockRecord}
      (ran : onPow D H p.shared clock (.ofNat now) (p.sessions k) s = some (sh, ss, .accepted identity v))
      (hblock : v.isBlockCandidate = true)
      (hr : onBlockCandidate D sh w ss s v identity now gateway = some r) :
      Moves D H canonical p (.pow k w clock now gateway s)
        { { p with shared := sh }.setSession k ss with treasury := (p.treasury.recordBlock r).1 }
        (.credited v.height v.hash :: (p.treasury.recordBlock r).2.map .wrote)

/-- Every action that returns is one of these. -/
theorem Pool.moves_of_step {D : Decoders} {H : Digests} {canonical : Snapshot.Doc → Bytes} {p q : Pool}
    {a : Action} {events : List Event} (run : p.step D H canonical a = some (q, events)) :
    p.Moves D H canonical a q events := by
  cases a with
  | connect k =>
    obtain ⟨rfl, rfl⟩ := Prod.mk.inj (Option.some.inj run)
    exact .connect k
  | request k w value prevHash now stored =>
    simp only [step, Option.bind_eq_bind, Option.bind_eq_some_iff, Option.some.injEq,
      Prod.mk.injEq, Prod.exists] at run
    obtain ⟨_, _, ran, rfl, rfl⟩ := run
    exact .request ran
  | tip t =>
    obtain ⟨rfl, rfl⟩ := Prod.mk.inj (Option.some.inj run)
    exact .tip t
  | controls c =>
    obtain ⟨rfl, rfl⟩ := Prod.mk.inj (Option.some.inj run)
    exact .controls c
  | housekeeping =>
    simp only [step] at run
    split at run
    next htip =>
      obtain ⟨rfl, rfl⟩ := Prod.mk.inj (Option.some.inj run)
      exact .idle htip
    next t htip =>
      simp only [Option.bind_eq_bind, Option.bind_eq_some_iff, Option.some.injEq, Prod.mk.injEq] at run
      obtain ⟨_, hseen, rfl, rfl⟩ := run
      exact .prune htip hseen
  | startPass tipHeight =>
    simp only [step, Option.bind_eq_bind, Option.bind_eq_some_iff, Option.some.injEq,
      Prod.mk.injEq] at run
    obtain ⟨_, hasked, rfl, rfl⟩ := run
    exact .startPass hasked
  | answer n =>
    simp only [step, answer] at run
    split at run
    next hpass =>
      split at run
      next hcheck =>
        obtain ⟨rfl, rfl⟩ := Prod.mk.inj (Option.some.inj run)
        exact .answer hpass hcheck
      next => cases run
    next => cases run
  | pow k w clock now gateway s =>
    simp only [step, pow, Option.bind_eq_bind, Option.bind_eq_some_iff, Prod.exists] at run
    obtain ⟨sh, ss, out, ran, run⟩ := run
    cases out with
    | rejected code =>
      obtain ⟨rfl, rfl⟩ := Prod.mk.inj (Option.some.inj run)
      exact .refused ran
    | accepted identity v =>
      dsimp only at run
      split at run
      next hblock =>
        simp only [Option.bind_eq_some_iff, Option.some.injEq, Prod.mk.injEq] at run
        obtain ⟨r, hr, rfl, rfl⟩ := run
        exact .found ran hblock hr
      next =>
        obtain ⟨rfl, rfl⟩ := Prod.mk.inj (Option.some.inj run)
        exact .share ran

namespace SeenShares

def Holds (seen : SeenShares) (height : UInt32) (hash : Bytes) : Prop :=
  hash ∈ (seen.byHeight.get height).getD []

theorem insert_cases {seen seen' : SeenShares} {height : UInt32} {hash : Bytes} {r : Seen}
    (h : seen.insert height hash = (seen', r)) :
    (r = .fresh ∧ ¬ seen.Holds height hash ∧
      ∀ i x, seen'.Holds i x ↔ i = height ∧ x = hash ∨ seen.Holds i x) ∨
    (r ≠ .fresh ∧ ∀ i x, seen'.Holds i x ↔ seen.Holds i x) := by
  have hopened : ∀ i x, x ∈ ((seen.byHeight.insert height
      ((seen.byHeight.get height).getD [])).get i).getD [] ↔ seen.Holds i x := by
    intro i x
    rw [KeyMap.get_insert]
    split
    next heq => rw [heq]; rfl
    next => rfl
  unfold insert at h
  dsimp only at h
  split at h
  next =>
    obtain ⟨rfl, rfl⟩ := Prod.mk.inj h
    exact .inr ⟨by decide, hopened⟩
  next hnew =>
    split at h
    next =>
      obtain ⟨rfl, rfl⟩ := Prod.mk.inj h
      exact .inr ⟨by decide, hopened⟩
    next =>
      obtain ⟨rfl, rfl⟩ := Prod.mk.inj h
      refine .inl ⟨rfl, hnew, fun i x => ?_⟩
      unfold Holds
      rw [KeyMap.get_insert]
      by_cases hi : i = height
      · subst hi
        simp
      · simp [hi]

theorem pruneBelow_holds {seen seen' : SeenShares} {minHeight : Nat}
    (h : seen.pruneBelow minHeight = some seen') (height : UInt32) (hash : Bytes) :
    seen'.Holds height hash ↔ seen.Holds height hash ∧ minHeight ≤ height.toNat := by
  simp only [pruneBelow, Option.bind_eq_bind, Option.bind_eq_some_iff, Option.some.injEq] at h
  obtain ⟨total, -, rfl⟩ := h
  unfold Holds
  rw [KeyMap.get_retain]
  by_cases hle : minHeight ≤ height.toNat
  · simp [hle]
  · simp [hle, Nat.not_le.mp hle]

end SeenShares

section
variable {D : Decoders} {H : Digests} {sh sh' : Shared} {ss ss' : Session} {s : PowSubmit}
  {clock : Nat} {now : UInt32} {out : PowOutcome}

theorem Session.foldSections_coinbasers (ss : Session) (s : PowSubmit) :
    (ss.foldSections s).1.coinbasers = ss.coinbasers := by
  have hinto := ss.folded_into s
  generalize ss.foldSections s = x at hinto ⊢
  cases hinto with
  | refused => rfl
  | started => rfl
  | joined => rfl

theorem Session.dropCoinbase_coinbasers (ss : Session) (id : UInt8) (added : Option UInt8) :
    (ss.dropCoinbase id added).coinbasers = ss.coinbasers := by
  cases added <;> rfl

/-- What becomes of a share: refused, with no share remembered, or not stale, new, and remembered. -/
def Remembers (sh sh' : Shared) (clock : Nat) : PowOutcome → Prop
  | .rejected _ => ∃ seen, sh' = { sh with seen := seen } ∧
      ∀ i x, seen.Holds i x ↔ sh.seen.Holds i x
  | .accepted _ v => isStale sh clock v.height = some false ∧ ¬ sh.seen.Holds v.height v.hash ∧
      ∃ seen, sh' = { sh with seen := seen } ∧
        ∀ i x, seen.Holds i x ↔ i = v.height ∧ x = v.hash ∨ sh.seen.Holds i x

theorem remembers_refused (sh : Shared) (clock : Nat) {out : PowOutcome} (h : ∃ code, out = .rejected code) :
    Remembers sh sh clock out := by
  obtain ⟨code, rfl⟩ := h
  exact ⟨sh.seen, rfl, fun _ _ => Iff.rfl⟩

theorem judgeShare_remembers {identity : Identity}
    (run : judgeShare H sh clock now ss identity s = some (sh', ss', out)) :
    Remembers sh sh' clock out ∧ ss'.coinbasers = ss.coinbasers := by
  rcases judgeShare_cases run with
    ⟨rfl, rfl, hout⟩ | ⟨job, p, slot, r, hjob, hstale, hv, rfl, ⟨rfl, hout⟩ | ⟨v, seen, mark, rfl, hins, rfl, hmark⟩⟩
  · exact ⟨remembers_refused _ _ hout, rfl⟩
  · exact ⟨remembers_refused _ _ hout, rfl⟩
  · obtain ⟨j, hj, hheight⟩ := verify_height hv
    obtain rfl := Option.some.inj (hjob.symm.trans hj)
    rw [← hheight] at hstale
    rcases SeenShares.insert_cases hins with ⟨rfl, hnew, hholds⟩ | ⟨hnot, hholds⟩
    · obtain ⟨-, rfl⟩ := hmark.resolve_right fun h => h.1 rfl
      exact ⟨⟨hstale, hnew, seen, rfl, hholds⟩, rfl⟩
    · obtain ⟨-, code, rfl⟩ := hmark.resolve_left fun h => hnot h.1
      exact ⟨⟨seen, rfl, hholds⟩, rfl⟩

/-- A share leaves the coinbasers a session holds alone, and is remembered if it is accepted. -/
theorem onPow_remembers (run : onPow D H sh clock now ss s = some (sh', ss', out)) :
    Remembers sh sh' clock out ∧ ss'.coinbasers = ss.coinbasers := by
  have hfold := ss.foldSections_coinbasers s
  rcases onPow_cases run with ⟨-, rfl, rfl, hout⟩ | ⟨identity, -, ⟨code, hsections, rfl, rfl⟩ |
    ⟨mid, absorbed, hsections, ⟨-, rfl, rfl, hout⟩ | ⟨-, hjudge⟩⟩⟩
  · exact ⟨remembers_refused _ _ hout, rfl⟩
  · rw [hsections] at hfold
    exact ⟨remembers_refused _ _ ⟨_, rfl⟩, hfold⟩
  · rw [hsections] at hfold
    exact ⟨remembers_refused _ _ hout, (mid.dropCoinbase_coinbasers _ _).trans hfold⟩
  · rw [hsections] at hfold
    obtain ⟨hrem, hcb⟩ := judgeShare_remembers hjudge
    exact ⟨hrem, hcb.trans hfold⟩

end
end WaviclesPrime.Primed
