import WaviclesPrime.Primed.Replay
import WaviclesPrime.Primed.Settlement

/-! The carry that settled blocks paid, against what the ledger ever owed, over runs of the pool. -/
namespace WaviclesPrime.Primed
open Wire Machine Tides

def Write.settles : Write → Option BlockRecord
  | .line r => if r.settled && !r.carried then some r else none
  | .ledger _ _ => none

def Event.settles : Event → Option BlockRecord
  | .wrote w => w.settles
  | .credited _ _ => none

/-- The blocks settled, as the lines that mark them have them. -/
def settledIn (events : List Event) : List BlockRecord := events.filterMap Event.settles

/-- The carry some blocks paid an identity. -/
def paidBy (blocks : List BlockRecord) (i : Identity) : Nat :=
  (blocks.map fun r => amountOf i r.carryPaid).sum

/-- What some blocks left unpaid for an identity. -/
def addedBy (blocks : List BlockRecord) (i : Identity) : Nat :=
  (blocks.map fun r => amountOf i r.unpaid).sum

/-- The record an answer about a hash is about to settle. -/
def Treasury.settling (t : Treasury) (hash : String) : Answer → Option BlockRecord
  | .confirmations n =>
    if 0 < n then (t.blocks.reverse.find? fun r => r.hash = hash).filter fun r => !r.settled
    else none
  | .unknown => none
  | .failed => none

namespace Pool

def settling (p : Pool) : Action → Option BlockRecord
  | .answer a =>
    match p.pass with
    | some (_, (hash, _) :: _) => p.treasury.settling hash a
    | _ => none
  | _ => none

end Pool

namespace Pool

/-- What an answer has written that stops on an overflow. -/
def stops (p : Pool) : Action → Option (List Event)
  | .answer a =>
    match p.pass with
    | some (tipHeight, (hash, height) :: _) =>
      match p.treasury.checkBlock p.shared.cfg.carryForward tipHeight hash height a with
      | ⟨_, .ok _⟩ => none
      | ⟨ws, .error _⟩ => some (ws.map .wrote)
    | _ => none
  | _ => none

/-- The events of a run. It may end with an answer that stops: what that wrote stays, and nothing settles
any more. -/
def outcome (D : Decoders) (H : Digests) (canonical : Snapshot.Doc → Bytes) (p : Pool) :
    List Action → Option (List Event)
  | [] => some []
  | a :: rest =>
    match p.step D H canonical a with
    | some (q, events) => (q.outcome D H canonical rest).map (events ++ ·)
    | none => p.stops a

end Pool

/-- The blocks that settled since the coinbasers outstanding copied the ledger: those a session holds, by
their ids, and those recorded blocks were built on, by their hashes. -/
structure Since where
  held : Nat → UInt8 → List BlockRecord
  found : String → List BlockRecord

namespace Since

def start : Since := ⟨fun _ _ => [], fun _ => []⟩

/-- A session is issued a coinbaser, from the ledger as it is. -/
def issue (g : Since) (k : Nat) (id : UInt8) : Since :=
  { g with held := fun i x => if i = k ∧ x = id then [] else g.held i x }

/-- Blocks are recorded that were built on a coinbaser. -/
def record (g : Since) (k : Nat) (id : UInt8) (hashes : List String) : Since :=
  { g with found := fun hash => if hash ∈ hashes then g.held k id else g.found hash }

def settle (g : Since) (blocks : List BlockRecord) : Since :=
  ⟨fun k id => g.held k id ++ blocks, fun hash => g.found hash ++ blocks⟩

/-- What an action from `p` to `q` changes. -/
def after (g : Since) (p q : Pool) (events : List Event) : Action → Since
  | .request k _ _ _ _ _ => g.issue k (p.sessions k).nextCoinbaserId
  | .pow k _ _ _ _ s =>
    match ((q.sessions k).slots s.jobId).job with
    | some job => g.record k job.coinbaserId ((linesOf events).map BlockRecord.hash)
    | none => g
  | .answer _ => g.settle (settledIn events)
  | _ => g

end Since

namespace Pool

/-- A block that is about to settle pays carry to nobody whom a block paid carry that has settled since
its coinbaser copied the ledger. -/
def Fresh (p : Pool) (g : Since) (a : Action) : Prop :=
  ∀ r ∈ p.settling a, ∀ b ∈ g.found r.hash,
    ∀ i ∈ r.carryPaid.map Prod.fst, i ∉ b.carryPaid.map Prod.fst

instance (p : Pool) (g : Since) (a : Action) : Decidable (p.Fresh g a) :=
  match h : p.settling a with
  | none => isTrue (by simp [Fresh, h])
  | some r => decidable_of_iff
      (∀ b ∈ g.found r.hash, ∀ i ∈ r.carryPaid.map Prod.fst, i ∉ b.carryPaid.map Prod.fst) (by simp [Fresh, h])

/-- Every block that settles in some actions is fresh. -/
def FreshPlay (D : Decoders) (H : Digests) (canonical : Snapshot.Doc → Bytes) (p : Pool) (g : Since) :
    List Action → Prop
  | [] => True
  | a :: rest => p.Fresh g a ∧ match p.step D H canonical a with
    | some (q, events) => q.FreshPlay D H canonical (g.after p q events a) rest
    | none => True

def decideFreshPlay (D : Decoders) (H : Digests) (canonical : Snapshot.Doc → Bytes) (p : Pool) (g : Since) :
    (acts : List Action) → Decidable (p.FreshPlay D H canonical g acts)
  | [] => isTrue trivial
  | a :: rest =>
    match h : p.step D H canonical a with
    | some (q, events) =>
      have := q.decideFreshPlay D H canonical (g.after p q events a) rest
      decidable_of_iff (p.Fresh g a ∧ q.FreshPlay D H canonical (g.after p q events a) rest) (by simp [FreshPlay, h])
    | none => decidable_of_iff (p.Fresh g a) (by simp [FreshPlay, h])

instance (D : Decoders) (H : Digests) (canonical : Snapshot.Doc → Bytes) (p : Pool) (g : Since)
    (acts : List Action) : Decidable (p.FreshPlay D H canonical g acts) :=
  p.decideFreshPlay D H canonical g acts

end Pool

/-- With carry-forward every settled block is carried; without it no block pays carry. -/
def Treasury.Even (carryForward : Bool) (t : Treasury) : Prop :=
  ∀ b ∈ t.blocks, if carryForward then b.settled = b.carried else b.carryPaid = []

/-- A pool whose records and coinbasers agree with its configuration. -/
structure Pool.Tidy (p : Pool) : Prop where
  even : p.treasury.Even p.shared.cfg.carryForward
  issued : p.shared.cfg.carryForward = false → ∀ k, ∀ c ∈ (p.sessions k).coinbasers, c.carryPaid = []

/-- Carry that is paid is still owed, or went to blocks that settled since. -/
def Owed (ledger : Carry) (since : List BlockRecord) (carryPaid : List (Identity × Nat)) : Prop :=
  ∀ i, amountOf i carryPaid ≤ ledger.due i + paidBy since i

/-- What holds throughout: the coinbasers held and the blocks that have not settled pay carry that was
owed when the coinbaser was issued. -/
structure Pool.Backed (p : Pool) (g : Since) : Prop where
  tidy : p.Tidy
  words : ∀ i, p.treasury.carry.due i < sizeU64
  held : ∀ k id c, (p.sessions k).issued id = some c → Owed p.treasury.carry (g.held k id) c.carryPaid
  found : ∀ hash r, Journal.latest BlockRecord.hash hash p.treasury.blocks = some r → r.settled = false →
    Owed p.treasury.carry (g.found hash) r.carryPaid

/-- What some writes settled: nothing the ledger moves for, or one block of it. -/
def SettlesAs (carryForward : Bool) (c c' : Carry) (r : Option BlockRecord) (ws : List Write) : Prop :=
  (c' = c ∧ ∀ i, paidBy (ws.filterMap Write.settles) i = 0) ∨
    (carryForward = true ∧ ∃ b, r = some b ∧ c' = c.applied b.carryPaid b.unpaid ∧
      ws.filterMap Write.settles = [confirmRecord b])

section
variable {carryForward : Bool} {t t' : Treasury} {ws : List Write} {hash : String}

theorem Treasury.Even.put {before after : List BlockRecord} {r x : BlockRecord} {c c' : Carry}
    (h : Treasury.Even carryForward ⟨before ++ r :: after, c⟩)
    (hx : if carryForward then x.settled = x.carried else x.carryPaid = []) :
    Treasury.Even carryForward ⟨before ++ x :: after, c'⟩ := by
  intro b hb
  rcases List.mem_append.mp hb with hb | hb
  · exact h b (List.mem_append_left _ hb)
  · rcases List.mem_cons.mp hb with rfl | hb
    · exact hx
    · exact h b (List.mem_append_right _ (List.mem_cons_of_mem _ hb))

theorem Treasury.Even.updateBlock {f : BlockRecord → BlockRecord} (h : t.Even carryForward)
    (hf : ∀ b, (if carryForward then b.settled = b.carried else b.carryPaid = []) →
      if carryForward then (f b).settled = (f b).carried else (f b).carryPaid = [])
    (run : t.updateBlock hash f = (t', ws)) : t'.Even carryForward ∧ t'.carry = t.carry ∧
      ((t' = t ∧ ws = []) ∨ ∃ b ∈ t.blocks, ws = [.line (f b)]) := by
  rcases Journal.latest_cases BlockRecord.hash hash t.blocks with hno | ⟨before, r, after, hblocks, hr, hafter⟩
  · obtain ⟨rfl, rfl⟩ := Prod.mk.inj ((Treasury.updateBlock_absent hno f).symm.trans run)
    exact ⟨h, rfl, .inl ⟨rfl, rfl⟩⟩
  · obtain ⟨blocks, c⟩ := t
    obtain rfl : blocks = before ++ r :: after := hblocks
    obtain ⟨rfl, rfl⟩ := Prod.mk.inj ((Treasury.updateBlock_newest hr hafter f).symm.trans run)
    have hmem : r ∈ before ++ r :: after := List.mem_append_right _ List.mem_cons_self
    exact ⟨h.put (hf r (h r hmem)), rfl, .inr ⟨r, hmem, rfl⟩⟩

theorem Treasury.Even.settles_none (carryForward : Bool) {b : BlockRecord}
    (hb : if carryForward then b.settled = b.carried else b.carryPaid = []) (i : Identity) :
    paidBy ([Write.line b].filterMap Write.settles) i = 0 := by
  cases carryForward with
  | true =>
    have hsettles : (b.settled && !b.carried) = false := by rw [if_pos rfl] at hb; simp [hb]
    simp [Write.settles, paidBy, hsettles]
  | false =>
    have hpaid : b.carryPaid = [] := hb
    cases hsettles : b.settled && !b.carried <;> simp [Write.settles, paidBy, hsettles, hpaid]

theorem Treasury.Even.markOrphan (h : t.Even carryForward) (r : Option BlockRecord)
    (run : t.markOrphan hash = (t', ws)) :
    t'.Even carryForward ∧ SettlesAs carryForward t.carry t'.carry r ws := by
  unfold Treasury.markOrphan at run
  split at run
  next =>
    obtain ⟨rfl, rfl⟩ := Prod.mk.inj run
    exact ⟨h, .inl ⟨rfl, fun _ => rfl⟩⟩
  next =>
    split at run
    next =>
      obtain ⟨rfl, rfl⟩ := Prod.mk.inj run
      exact ⟨h, .inl ⟨rfl, fun _ => rfl⟩⟩
    next =>
      obtain ⟨heven, hcarry, hws⟩ := h.updateBlock (f := orphanRecord) (fun _ hb => hb) run
      refine ⟨heven, .inl ⟨hcarry, fun i => ?_⟩⟩
      rcases hws with ⟨-, rfl⟩ | ⟨b, hb, rfl⟩
      · rfl
      · exact settles_none carryForward (b := orphanRecord b) (h b hb) i

/-- The newest record of a hash, once it is marked settled: it is carried unless it was. -/
theorem Treasury.Even.carry {before after : List BlockRecord} {r : BlockRecord} {c : Carry}
    (h : Treasury.Even true ⟨before ++ r :: after, c⟩) (hr : r.hash = hash)
    (hafter : ∀ b ∈ after, b.hash ≠ hash)
    (run : applyCarryForSettled true ⟨before ++ confirmRecord r :: after, c⟩ hash = ⟨ws, .ok t'⟩) :
    t'.Even true ∧ SettlesAs true c t'.carry (if r.settled then none else some r)
      (.line (confirmRecord r) :: ws) := by
  have heven : r.settled = r.carried := h r (List.mem_append_right _ List.mem_cons_self)
  cases hs : r.settled with
  | true =>
    have hsettled : (confirmRecord r).settled = (confirmRecord r).carried := hs.symm.trans heven
    have hmarked : Treasury.Even true ⟨before ++ confirmRecord r :: after, c⟩ := h.put hsettled
    rcases applyCarry_ok run with ⟨rfl, rfl, -⟩ | ⟨x, _, -, -, hfind, -⟩
    · exact ⟨hmarked, .inl ⟨rfl, settles_none true hsettled⟩⟩
    · have hx := List.find?_some hfind
      have hxe : x.settled = x.carried := hmarked x (List.mem_reverse.mp (List.mem_of_find?_eq_some hfind))
      cases hc : x.carried <;> simp [hxe, hc] at hx
  | false =>
    have hc : (confirmRecord r).carried = false := heven.symm.trans hs
    have hlast := Journal.find_reverse_split before
      (p := fun b => b.hash = hash && b.settled && !b.carried) (r := confirmRecord r)
      (by simp [hr, hc, show (confirmRecord r).settled = true from rfl]) fun b (hb : b ∈ after) => by simp [hafter b hb]
    rcases applyCarry_ok run with ⟨-, -, hnone⟩ | ⟨x, more, -, -, hfind, hput, rfl⟩
    · cases hlast.symm.trans (hnone rfl)
    · obtain rfl : confirmRecord r = x := Option.some.inj (hlast.symm.trans hfind)
      obtain ⟨rfl, rfl⟩ := Prod.mk.inj
        ((updateBlock_newest (r := confirmRecord r) hr hafter carryRecord).symm.trans hput)
      have hline : (Write.line (confirmRecord r)).settles = some (confirmRecord r) := by
        simp only [Write.settles, hc]
        rfl
      have hdone : (Write.line (carryRecord (confirmRecord r))).settles = none := rfl
      have hfile : ∀ c x, (Write.ledger c x).settles = none := fun _ _ => rfl
      refine ⟨h.put rfl, .inr ⟨rfl, r, rfl, rfl, ?_⟩⟩
      simp only [List.filterMap_cons, List.filterMap_nil, hline, hdone, hfile]

/-- An answer leaves the treasury alone, or may mark an orphan, unless it has positive confirmations. -/
theorem Treasury.checkBlock_cases {a : Answer} {tipHeight : Nat} {height : UInt32}
    (run : t.checkBlock carryForward tipHeight hash height a = ⟨ws, .ok t'⟩) :
    (t' = t ∧ ws = []) ∨ t.markOrphan hash = (t', ws) ∨
    ∃ n t₁ first more, 0 < n ∧ a = .confirmations n ∧ t.updateBlock hash confirmRecord = (t₁, first) ∧
      t₁.applyCarryForSettled carryForward hash = ⟨more, .ok t'⟩ ∧ ws = first ++ more := by
  cases a with
  | failed =>
    cases run
    exact .inl ⟨rfl, rfl⟩
  | unknown =>
    obtain ⟨past, first, more, hpast, hmark, rfl⟩ := Traced.bind_eq_ok.mp run
    obtain rfl := (Traced.require_eq_ok.mp hpast).2
    split at hmark
    · cases hmark
      exact .inr (.inl rfl)
    · cases hmark
      exact .inl ⟨rfl, rfl⟩
  | confirmations n =>
    rw [Treasury.checkBlock] at run
    split at run
    next hpos =>
      obtain ⟨t₁, first, more, hmark, hmove, rfl⟩ := Traced.bind_eq_ok.mp run
      cases hmark
      exact .inr (.inr ⟨n, _, _, more, hpos, rfl, rfl, hmove, rfl⟩)
    next =>
      split at run
      · cases run
        exact .inr (.inl rfl)
      · cases run
        exact .inl ⟨rfl, rfl⟩

theorem Treasury.settling_newest {before after : List BlockRecord} {r : BlockRecord} {c : Carry} {n : Int}
    (hpos : 0 < n) (hr : r.hash = hash) (hafter : ∀ b ∈ after, b.hash ≠ hash) :
    settling ⟨before ++ r :: after, c⟩ hash (.confirmations n) = if r.settled then none else some r := by
  have hfind := Journal.find_reverse_split before (p := fun b => decide (b.hash = hash)) (r := r)
    (decide_eq_true hr) fun b (hb : b ∈ after) => decide_eq_false (hafter b hb)
  simp only [settling, if_pos hpos, hfind, Option.filter_some]
  cases r.settled <;> rfl

/-- Marking a block settled and moving its amounts: an even treasury settles the last record of the hash
if it had not settled, and nothing otherwise. -/
theorem Treasury.Even.settle {n : Int} {t₁ : Treasury} {first more : List Write}
    (h : t.Even carryForward) (hpos : 0 < n) (hmark : t.updateBlock hash confirmRecord = (t₁, first))
    (hmove : t₁.applyCarryForSettled carryForward hash = ⟨more, .ok t'⟩) :
    t'.Even carryForward ∧
      SettlesAs carryForward t.carry t'.carry (t.settling hash (.confirmations n)) (first ++ more) := by
  cases carryForward with
  | false =>
    cases hmove
    rw [List.append_nil]
    obtain ⟨hmarked, hcarry, hws⟩ := h.updateBlock (f := confirmRecord) (fun _ hb => hb) hmark
    refine ⟨hmarked, .inl ⟨hcarry, fun i => ?_⟩⟩
    rcases hws with ⟨-, rfl⟩ | ⟨b, hb, rfl⟩
    · rfl
    · exact settles_none false (b := confirmRecord b) (h b hb) i
  | true =>
    rcases Journal.latest_cases BlockRecord.hash hash t.blocks with hno | ⟨before, r, after, hblocks, hr, hafter⟩
    · obtain ⟨rfl, rfl⟩ := Prod.mk.inj ((updateBlock_absent hno confirmRecord).symm.trans hmark)
      rcases applyCarry_ok hmove with ⟨rfl, rfl, -⟩ | ⟨x, _, -, -, hfind, -⟩
      · exact ⟨h, .inl ⟨rfl, fun _ => rfl⟩⟩
      · have hx := List.find?_some hfind
        simp [hno x (List.mem_reverse.mp (List.mem_of_find?_eq_some hfind))] at hx
    · obtain ⟨blocks, c⟩ := t
      obtain rfl : blocks = before ++ r :: after := hblocks
      obtain ⟨rfl, rfl⟩ := Prod.mk.inj ((updateBlock_newest hr hafter confirmRecord).symm.trans hmark)
      rw [settling_newest hpos hr hafter]
      exact h.carry hr hafter hmove

theorem Treasury.Even.checkBlock {a : Answer} {tipHeight : Nat} {height : UInt32}
    (h : t.Even carryForward)
    (run : t.checkBlock carryForward tipHeight hash height a = ⟨ws, .ok t'⟩) :
    t'.Even carryForward ∧ SettlesAs carryForward t.carry t'.carry (t.settling hash a) ws := by
  rcases checkBlock_cases run with
    ⟨rfl, rfl⟩ | hmark | ⟨n, t₁, first, more, hpos, rfl, hmark, hmove, rfl⟩
  · exact ⟨h, .inl ⟨rfl, fun _ => rfl⟩⟩
  · exact h.markOrphan _ hmark
  · exact h.settle hpos hmark hmove

/-- An answer that stops has marked the block settled that it is about to, or settles nothing. -/
theorem Treasury.Even.stopped {a : Answer} {tipHeight : Nat} {height : UInt32} {e : Overflow}
    (h : t.Even carryForward)
    (run : t.checkBlock carryForward tipHeight hash height a = ⟨ws, .error e⟩) :
    (∀ i, paidBy (ws.filterMap Write.settles) i = 0) ∨
      ∃ r, t.settling hash a = some r ∧ ws.filterMap Write.settles = [confirmRecord r] := by
  cases a with
  | failed => cases run
  | unknown =>
    rcases checkBlock_error run with ⟨-, rfl, -⟩ | ⟨rfl, -⟩
    · exact .inl fun _ => rfl
    · rcases Traced.bind_eq_error.mp run with hpast | ⟨past, _, more, -, hrest, -⟩
      · cases (Traced.require_eq_error.mp hpast).2.2
      · split at hrest <;> cases hrest
  | confirmations n =>
    rw [Treasury.checkBlock] at run
    split at run
    next hpos =>
      rcases Traced.bind_eq_error.mp run with hmark | ⟨t₁, _, more, hmark, hmove, rfl⟩
      · cases hmark
      obtain ⟨rfl, rfl⟩ := applyCarry_error hmove
      cases hmark
      cases carryForward with
      | false => cases hmove
      | true =>
        rw [List.append_nil]
        rcases Journal.latest_cases BlockRecord.hash hash t.blocks with hno | ⟨before, r, after, hblocks, hr, hafter⟩
        · rw [updateBlock_absent hno]
          exact .inl fun _ => rfl
        · obtain ⟨blocks, c⟩ := t
          obtain rfl : blocks = before ++ r :: after := hblocks
          have heven : r.settled = r.carried := h r (List.mem_append_right _ List.mem_cons_self)
          rw [updateBlock_newest hr hafter, settling_newest hpos hr hafter]
          cases hs : r.settled with
          | true => exact .inl (settles_none true (b := confirmRecord r) (hs.symm.trans heven))
          | false =>
            have hc : (confirmRecord r).carried = false := heven.symm.trans hs
            have hline : (Write.line (confirmRecord r)).settles = some (confirmRecord r) := by
              simp only [Write.settles, hc]
              rfl
            exact .inr ⟨r, rfl, by simp only [List.filterMap_cons, List.filterMap_nil, hline]⟩
    next => split at run <;> cases run

end

section
variable {D : Decoders} {H : Digests} {canonical : Snapshot.Doc → Bytes} {p q q' : Pool}
  {events more : List Event} {a : Action}

theorem paidBy_append (xs ys : List BlockRecord) (i : Identity) :
    paidBy (xs ++ ys) i = paidBy xs i + paidBy ys i := by simp [paidBy]

theorem addedBy_append (xs ys : List BlockRecord) (i : Identity) :
    addedBy (xs ++ ys) i = addedBy xs i + addedBy ys i := by simp [addedBy]

theorem settledIn_append (xs ys : List Event) : settledIn (xs ++ ys) = settledIn xs ++ settledIn ys :=
  List.filterMap_append

theorem settledIn_wrote (ws : List Write) : settledIn (ws.map .wrote) = ws.filterMap Write.settles := by
  simp [settledIn, List.filterMap_map, Function.comp_def, Event.settles]

/-- A split over nobody's carry pays none. -/
theorem computeWithCarry_empty {miners : List MinerStat} {totalWork value : Nat} {params : SplitParams}
    {scriptFor : Identity → Option Bytes} {s : Split}
    (h : computeWithCarry miners totalWork value params .empty scriptFor = some s) :
    s.carryPaid = [] := by
  simp only [computeWithCarry, Option.bind_eq_bind, Option.bind_eq_some_iff, Option.some.injEq] at h
  obtain ⟨_, -, _, -, u, hu, rfl⟩ := h
  obtain rfl := Option.some.inj hu
  rfl

/-- Without carry-forward the coinbasers issued pay no carry. -/
theorem onCoinbaserRequest_carryPaid {sh : Shared} {w : WindowView} {carry : Carry} {ss ss' : Session}
    {value now : Nat} {prevHash : Hash} {stored : Bool} {message : Bytes}
    (hoff : sh.cfg.carryForward = false) (h : ∀ c ∈ ss.coinbasers, c.carryPaid = [])
    (run : onCoinbaserRequest D H canonical sh w carry ss value prevHash now stored
      = some (ss', message)) : ∀ c ∈ ss'.coinbasers, c.carryPaid = [] := by
  obtain ⟨c, i, -, -, -, rfl, -⟩ := onCoinbaserRequest_cases run
  have hnew : c.carryPaid = [] := by
    have hran := i.ran
    simp only [Shared.splitFor, Shared.carryMap, hoff, Bool.false_eq_true, if_false] at hran
    rw [i.made]
    exact computeWithCarry_empty hran
  intro x hx
  rcases List.mem_append.mp (List.mem_of_mem_drop hx) with hx | hx
  · exact h x hx
  · exact List.mem_singleton.mp hx ▸ hnew

theorem Session.jobCoinbaser_mem {ss : Session} {job : UInt8} {c : IssuedCoinbaser}
    (h : ss.jobCoinbaser job = some c) : c ∈ ss.coinbasers := by
  obtain ⟨j, -, hc⟩ := Option.bind_eq_some_iff.mp h
  exact List.mem_reverse.mp (List.mem_of_find?_eq_some hc)

/-- Recording a block settles nothing, and without carry-forward the block pays no carry. -/
theorem Treasury.Even.recordBlock {carryForward : Bool} {t : Treasury} {r : BlockRecord}
    (h : t.Even carryForward) (hs : r.settled = false) (hc : r.carried = false)
    (hpaid : carryForward = false → r.carryPaid = []) : (t.recordBlock r).1.Even carryForward := by
  intro b hb
  rw [Treasury.recordBlock_blocks] at hb
  rcases List.mem_append.mp ((newest_sublist ..).subset hb) with hb | hb
  · exact h b hb
  · obtain rfl := List.mem_singleton.mp hb
    cases carryForward with
    | true => exact hs.trans hc.symm
    | false => exact hpaid rfl

/-- What an action does to the ledger: it settles the block it is about to, or leaves it alone. -/
theorem Pool.Tidy.step (h : q.Tidy) (moved : q.step D H canonical a = some (q', more)) :
    q'.Tidy ∧ q'.shared.cfg = q.shared.cfg ∧
      ∃ ws, settledIn more = ws.filterMap Write.settles ∧ SettlesAs q.shared.cfg.carryForward
        q.treasury.carry q'.treasury.carry (q.settling a) ws := by
  have hnone : ∃ ws, settledIn [] = ws.filterMap Write.settles ∧
      SettlesAs q.shared.cfg.carryForward q.treasury.carry q.treasury.carry (q.settling a) ws :=
    ⟨[], rfl, .inl ⟨rfl, fun _ => rfl⟩⟩
  have hissued {k : Nat} {ss : Session}
      (hss : q.shared.cfg.carryForward = false → ∀ c ∈ ss.coinbasers, c.carryPaid = [])
      (hoff : q.shared.cfg.carryForward = false) :
      ∀ i, ∀ c ∈ (if i = k then ss else q.sessions i).coinbasers, c.carryPaid = [] := by
    intro i c hc
    by_cases hi : i = k
    · exact hss hoff c (by simpa [hi] using hc)
    · exact h.issued hoff i c (by simpa [hi] using hc)
  cases Pool.moves_of_step moved with
  | connect k => exact ⟨⟨h.even, hissued fun _ c hc => by simp [Session.fresh] at hc⟩, rfl, hnone⟩
  | @request k _ _ _ _ _ ss _ ran =>
    exact ⟨⟨h.even, hissued fun hoff => onCoinbaserRequest_carryPaid hoff (h.issued hoff k) ran⟩, rfl, hnone⟩
  | tip t => exact ⟨⟨h.even, h.issued⟩, rfl, hnone⟩
  | controls c => exact ⟨⟨h.even, h.issued⟩, rfl, hnone⟩
  | idle => exact ⟨h, rfl, hnone⟩
  | prune => exact ⟨⟨h.even, h.issued⟩, rfl, hnone⟩
  | startPass => exact ⟨⟨h.even, h.issued⟩, rfl, hnone⟩
  | @answer _ tipHeight hash height rest t ws hpass hcheck =>
    obtain ⟨heven, hsettles⟩ := h.even.checkBlock hcheck
    refine ⟨⟨heven, h.issued⟩, rfl, ws, settledIn_wrote ws, ?_⟩
    simpa only [settling, hpass] using hsettles
  | @refused k _ _ _ _ _ _ ss _ ran =>
    obtain ⟨⟨seen, rfl, -⟩, hcoinbasers⟩ := onPow_remembers ran
    exact ⟨⟨h.even, hissued fun hoff => hcoinbasers ▸ h.issued hoff k⟩, rfl, hnone⟩
  | @share k _ _ _ _ _ _ ss _ _ ran =>
    obtain ⟨⟨-, -, seen, rfl, -⟩, hcoinbasers⟩ := onPow_remembers ran
    exact ⟨⟨h.even, hissued fun hoff => hcoinbasers ▸ h.issued hoff k⟩, rfl, hnone⟩
  | @found k w clock now gateway s _ ss identity v r ran _ hr =>
    obtain ⟨⟨-, -, seen, rfl, -⟩, hcoinbasers⟩ := onPow_remembers ran
    have hss (hoff : q.shared.cfg.carryForward = false) : ∀ c ∈ ss.coinbasers, c.carryPaid = [] :=
      hcoinbasers ▸ h.issued hoff k
    obtain ⟨hs, hc, -, hpaid, -⟩ := onBlockCandidate_record hr
    have hline : settledIn (Event.credited v.height v.hash ::
        (q.treasury.recordBlock r).2.map .wrote) = [] := by
      simp [settledIn, Treasury.recordBlock, Event.settles, Write.settles, hs]
    refine ⟨⟨h.even.recordBlock hs hc fun hoff => ?_, hissued hss⟩, rfl, [], hline, .inl ⟨rfl, fun _ => rfl⟩⟩
    rw [hpaid]
    cases hjob : ss.jobCoinbaser s.jobId with
    | none => rfl
    | some c => exact hss hoff c (Session.jobCoinbaser_mem hjob)

/-- Carry that is owed stays so while the ledger loses no more than what settles. -/
theorem Owed.settled {c c' : Carry} {since blocks : List BlockRecord} {carryPaid : List (Identity × Nat)}
    (h : Owed c since carryPaid) (hle : ∀ i, c.due i ≤ c'.due i + paidBy blocks i) :
    Owed c' (since ++ blocks) carryPaid := by
  intro i
  have hpaid := h i
  have hdue := hle i
  rw [paidBy_append]
  omega

/-- A ledger loses what the blocks that settle paid, at most. -/
theorem SettlesAs.due_le {carryForward : Bool} {c c' : Carry} {r : Option BlockRecord} {ws : List Write}
    (h : SettlesAs carryForward c c' r ws) (hw : ∀ i, c.due i < sizeU64) (i : Identity) :
    c'.due i < sizeU64 ∧ c.due i ≤ c'.due i + paidBy (ws.filterMap Write.settles) i := by
  rcases h with ⟨rfl, -⟩ | ⟨-, b, -, rfl, hone⟩
  · exact ⟨hw i, Nat.le_add_right _ _⟩
  · have hdue := c.due_applied b.carryPaid b.unpaid i (hw i)
    have hfit := hw i
    have hsum : paidBy [confirmRecord b] i = amountOf i b.carryPaid := Nat.add_zero _
    rw [hone, hsum, hdue]
    omega

section
variable {carryForward : Bool} {t t' : Treasury} {ws : List Write} {hash k : String} {r r' : BlockRecord}

theorem Treasury.updateBlock_latest {f : BlockRecord → BlockRecord} (hf : ∀ b, (f b).hash = b.hash)
    (run : t.updateBlock hash f = (t', ws)) (h : Journal.latest BlockRecord.hash k t'.blocks = some r') :
    ∃ r, Journal.latest BlockRecord.hash k t.blocks = some r ∧ r' = if k = hash then f r else r := by
  rcases Journal.latest_cases BlockRecord.hash hash t.blocks with hno | ⟨before, b, after, hblocks, hb, hafter⟩
  · obtain ⟨rfl, rfl⟩ := Prod.mk.inj ((updateBlock_absent hno f).symm.trans run)
    refine ⟨r', h, (if_neg fun hk => ?_).symm⟩
    exact hno r' (Journal.mem_of_latest h) ((Journal.key_of_latest h).trans hk)
  · obtain ⟨blocks, c⟩ := t
    obtain rfl : blocks = before ++ b :: after := hblocks
    obtain ⟨rfl, rfl⟩ := Prod.mk.inj ((updateBlock_newest hb hafter f).symm.trans run)
    dsimp only at h ⊢
    by_cases hk : k = hash
    · subst hk
      rw [Journal.latest_at before ((hf b).trans hb) hafter] at h
      exact ⟨b, Journal.latest_at before hb hafter, by rw [if_pos rfl, Option.some.inj h]⟩
    · rw [Journal.latest_put before after (hf b) fun heq => hk (heq.symm.trans hb)] at h
      exact ⟨r', h, (if_neg hk).symm⟩

/-- A block that has not settled after an answer had not before, and pays the same carry. -/
theorem Treasury.checkBlock_latest {a : Answer} {tipHeight : Nat} {height : UInt32}
    (run : t.checkBlock carryForward tipHeight hash height a = ⟨ws, .ok t'⟩)
    (h : Journal.latest BlockRecord.hash k t'.blocks = some r') (hs : r'.settled = false) :
    ∃ r, Journal.latest BlockRecord.hash k t.blocks = some r ∧ r.settled = false ∧ r.carryPaid = r'.carryPaid := by
  rcases checkBlock_cases run with ⟨rfl, -⟩ | hmark | ⟨n, t₁, first, more, -, -, hmark, hmove, -⟩
  · exact ⟨r', h, hs, rfl⟩
  · unfold markOrphan at hmark
    split at hmark
    next =>
      obtain ⟨rfl, -⟩ := Prod.mk.inj hmark
      exact ⟨r', h, hs, rfl⟩
    next =>
      split at hmark
      next =>
        obtain ⟨rfl, -⟩ := Prod.mk.inj hmark
        exact ⟨r', h, hs, rfl⟩
      next =>
        obtain ⟨r, hr, rfl⟩ := updateBlock_latest hash_orphanRecord hmark h
        refine ⟨r, hr, ?_⟩
        split at hs <;> exact ⟨hs, by split <;> rfl⟩
  · obtain ⟨r₁, hr₁, hs₁, hpaid⟩ : ∃ r₁, Journal.latest BlockRecord.hash k t₁.blocks = some r₁ ∧
        r₁.settled = false ∧ r₁.carryPaid = r'.carryPaid := by
      rcases applyCarry_ok hmove with ⟨rfl, -⟩ | ⟨x, _, -, -, -, hput, -⟩
      · exact ⟨r', h, hs, rfl⟩
      · obtain ⟨r₁, hr₁, rfl⟩ := updateBlock_latest hash_carryRecord hput h
        refine ⟨r₁, hr₁, ?_⟩
        split at hs <;> exact ⟨hs, by split <;> rfl⟩
    obtain ⟨r, hr, rfl⟩ := updateBlock_latest hash_confirmRecord hmark hr₁
    refine ⟨r, hr, ?_⟩
    by_cases hk : k = hash
    · rw [if_pos hk] at hs₁
      cases hs₁
    · rw [if_neg hk] at hs₁ hpaid
      exact ⟨hs₁, hpaid⟩

/-- Recording a block: it is its hash's latest, and the others' are as they were. -/
theorem Treasury.recordBlock_latest (h : Journal.latest BlockRecord.hash k (t.recordBlock r).1.blocks = some r') :
    (k = r.hash ∧ r' = r) ∨ (k ≠ r.hash ∧ Journal.latest BlockRecord.hash k t.blocks = some r') := by
  have hdrop : (t.recordBlock r).1.blocks =
      (t.blocks ++ [r]).drop ((t.blocks ++ [r]).length - maxBlocks) := by
    rw [recordBlock_blocks, newest, List.take_reverse, List.reverse_reverse]
  rw [hdrop] at h
  have hlast := Journal.latest_of_drop h
  rw [Journal.latest_append, Journal.latest_singleton] at hlast
  by_cases hk : r.hash = k
  · rw [if_pos hk, Option.some_or] at hlast
    exact .inl ⟨hk.symm, (Option.some.inj hlast).symm⟩
  · rw [if_neg hk, Option.none_or] at hlast
    exact .inr ⟨Ne.symm hk, hlast⟩

end

/-- A session finds the coinbaser it just issued, and otherwise those it held. -/
theorem Session.issued_of_keep {ss : Session} {c x : IssuedCoinbaser} {id : UInt8}
    (h : (ss.keep c).issued id = some x) : (id = c.id ∧ x = c) ∨ (id ≠ c.id ∧ ss.issued id = some x) := by
  have hlast : ((ss.coinbasers ++ [c]).reverse.find? fun y => y.id == id) = some x := by
    unfold Session.issued Session.keep at h
    dsimp only at h
    rw [← List.take_append_drop ((ss.coinbasers ++ [c]).length - coinbasersKept) (ss.coinbasers ++ [c]),
      List.reverse_append, List.find?_append, h, Option.some_or]
  rw [List.reverse_append, List.reverse_singleton, List.singleton_append, List.find?_cons] at hlast
  split at hlast
  next hid => exact .inl ⟨(beq_iff_eq.mp hid).symm, (Option.some.inj hlast).symm⟩
  next hid => exact .inr ⟨fun heq => beq_eq_false_iff_ne.mp hid heq.symm, hlast⟩

/-- What is about to settle is its hash's latest block, which has not settled. -/
theorem Treasury.settling_latest {t : Treasury} {hash : String} {a : Answer} {r : BlockRecord}
    (h : t.settling hash a = some r) : Journal.latest BlockRecord.hash hash t.blocks = some r ∧ r.settled = false := by
  cases a with
  | unknown => cases h
  | failed => cases h
  | confirmations n =>
    rw [settling] at h
    split at h
    next =>
      obtain ⟨hfind, hs⟩ := Option.filter_eq_some_iff.mp h
      refine ⟨?_, by simpa using hs⟩
      rcases Journal.latest_cases BlockRecord.hash hash t.blocks with hno | ⟨before, b, after, hblocks, hb, hafter⟩
      · have hx := List.find?_some hfind
        exact absurd (of_decide_eq_true hx) (hno r (List.mem_reverse.mp (List.mem_of_find?_eq_some hfind)))
      · have hlast := Journal.find_reverse_split before (p := fun x => decide (x.hash = hash)) (r := b)
          (decide_eq_true hb) fun x (hx : x ∈ after) => decide_eq_false (hafter x hx)
        rw [hblocks] at hfind ⊢
        rw [Journal.latest_at before hb hafter, ← hlast, hfind]
    next => cases h

/-- A split pays nobody more carry than the ledger it copied owes. -/
theorem Issued.carryPaid_owed {sh : Shared} {w : WindowView} {carry : Carry} {c : IssuedCoinbaser}
    (i : Issued D H canonical sh w carry c) : Owed carry [] c.carryPaid := by
  intro j
  have hran := i.ran
  simp only [Shared.splitFor, WindowView.splitWithCarry, computeWithCarry, Option.bind_eq_bind,
    Option.bind_eq_some_iff, Option.some.injEq] at hran
  obtain ⟨_, -, _, -, u, hu, hsplit⟩ := hran
  have hpaid : c.carryPaid = u.carryPaid := by rw [i.carryPaid_eq, ← hsplit]
  have hle := payCarry_amount_le hu j
  rw [amountOf_nil, Nat.zero_add, ← hpaid] at hle
  refine hle.trans ?_
  unfold Shared.carryMap
  split
  next => exact (carry.amountOf_entries j).le
  next => exact Nat.zero_le _

theorem Since.record_nil (g : Since) (k : Nat) (id : UInt8) : g.record k id [] = g := by
  simp [Since.record]

/-- A share that records no block leaves everything as it was. -/
theorem Since.after_pow {g : Since} {k clock now : Nat} {w : WindowView} {gateway : String} {s : PowSubmit}
    (h : linesOf events = []) : g.after p q events (.pow k w clock now gateway s) = g := by
  simp only [after, h, List.map_nil, record_nil]
  split <;> rfl

theorem Session.issued_congr {ss ss' : Session} (h : ss'.coinbasers = ss.coinbasers) (id : UInt8) :
    ss'.issued id = ss.issued id := by
  unfold Session.issued
  rw [h]

/-- A session that changes, and holds the coinbasers it held, leaves what is held backed. -/
theorem Pool.Backed.held_set {g : Since} {k : Nat} {ss : Session} (h : q.Backed g)
    (hss : ss.coinbasers = (q.sessions k).coinbasers) (j : Nat) (id : UInt8) (c : IssuedCoinbaser)
    (hc : (if j = k then ss else q.sessions j).issued id = some c) :
    Owed q.treasury.carry (g.held j id) c.carryPaid := by
  by_cases hj : j = k
  · rw [if_pos hj, Session.issued_congr hss, ← hj] at hc
    exact h.held j id c hc
  · rw [if_neg hj] at hc
    exact h.held j id c hc

/-- A pool with nothing outstanding is backed. -/
theorem Pool.Backed.nothingOut (hblocks : p.treasury.blocks = []) (hheld : ∀ k, (p.sessions k).coinbasers = [])
    (hwords : ∀ i, p.treasury.carry.due i < sizeU64) : p.Backed .start where
  tidy := ⟨by simp [Treasury.Even, hblocks], by simp [hheld]⟩
  words := hwords
  held k id c hc := by simp [Session.issued, hheld] at hc
  found hash r hlast := by simp [hblocks, Journal.latest] at hlast

/-- One action keeps what is outstanding backed. -/
theorem Pool.Backed.step {g : Since} (h : q.Backed g) (moved : q.step D H canonical a = some (q', more)) :
    q'.Backed (g.after q q' more a) := by
  obtain ⟨htidy, -, ws, hws, hsettles⟩ := h.tidy.step moved
  cases Pool.moves_of_step moved with
  | connect k =>
    refine ⟨htidy, h.words, fun j id c hc => ?_, h.found⟩
    change (if j = k then Session.fresh else q.sessions j).issued id = some c at hc
    by_cases hj : j = k
    · rw [if_pos hj] at hc
      cases hc
    · rw [if_neg hj] at hc
      exact h.held j id c hc
  | @request k _ _ _ _ _ _ _ ran =>
    obtain ⟨c, i, -, -, hid, rfl, -⟩ := onCoinbaserRequest_cases ran
    refine ⟨htidy, h.words, fun j id x hx => ?_, h.found⟩
    change (if j = k then (q.sessions k).keep c else q.sessions j).issued id = some x at hx
    change Owed q.treasury.carry (if j = k ∧ id = (q.sessions k).nextCoinbaserId then [] else g.held j id) x.carryPaid
    by_cases hj : j = k
    · subst hj
      rw [if_pos rfl] at hx
      rcases Session.issued_of_keep hx with ⟨rfl, rfl⟩ | ⟨hne, hx⟩
      · rw [if_pos ⟨rfl, hid⟩]
        exact i.carryPaid_owed
      · rw [if_neg fun heq => hne (heq.2.trans hid.symm)]
        exact h.held j id x hx
    · rw [if_neg hj] at hx
      rw [if_neg fun heq => hj heq.1]
      exact h.held j id x hx
  | tip => exact ⟨htidy, h.words, h.held, h.found⟩
  | controls => exact ⟨htidy, h.words, h.held, h.found⟩
  | idle => exact ⟨htidy, h.words, h.held, h.found⟩
  | prune => exact ⟨htidy, h.words, h.held, h.found⟩
  | startPass => exact ⟨htidy, h.words, h.held, h.found⟩
  | @answer _ tipHeight hash height rest t ws' hpass hcheck =>
    have hle (i : Identity) := hsettles.due_le h.words i
    change Pool.Backed _ (g.settle _)
    rw [hws]
    refine ⟨htidy, fun i => (hle i).1, fun k id c hc => (h.held k id c hc).settled fun i => (hle i).2,
      fun k r hlast hs => ?_⟩
    obtain ⟨r₀, hlast₀, hs₀, hpaid⟩ := Treasury.checkBlock_latest hcheck hlast hs
    rw [← hpaid]
    exact (h.found k r₀ hlast₀ hs₀).settled fun i => (hle i).2
  | refused ran =>
    rw [Since.after_pow rfl]
    exact ⟨htidy, h.words, h.held_set (onPow_remembers ran).2, h.found⟩
  | share ran =>
    rw [Since.after_pow rfl]
    exact ⟨htidy, h.words, h.held_set (onPow_remembers ran).2, h.found⟩
  | @found k _ _ _ _ s _ ss _ v r ran _ hr =>
    have hheld := h.held_set (k := k) (onPow_remembers ran).2
    have hlines : (linesOf (Event.credited v.height v.hash :: (q.treasury.recordBlock r).2.map .wrote)).map
        BlockRecord.hash = [r.hash] := rfl
    obtain ⟨-, -, -, hpaid, -⟩ := onBlockCandidate_record hr
    have hother (hash : String) (b : BlockRecord)
        (hlast : Journal.latest BlockRecord.hash hash (q.treasury.recordBlock r).1.blocks = some b)
        (hne : hash ≠ r.hash) (hs : b.settled = false) : Owed q.treasury.carry (g.found hash) b.carryPaid :=
      h.found hash b ((Treasury.recordBlock_latest hlast).resolve_left fun heq => hne heq.1).2 hs
    simp only [Since.after, hlines]
    change Pool.Backed _ (match (((if k = k then ss else q.sessions k).slots s.jobId).job) with
      | some job => g.record k job.coinbaserId [r.hash]
      | none => g)
    rw [if_pos rfl]
    cases hjob : (ss.slots s.jobId).job with
    | none =>
      have hnone : r.carryPaid = [] := by rw [hpaid, Session.jobCoinbaser, hjob]; rfl
      refine ⟨htidy, h.words, hheld, fun hash b hlast hs => ?_⟩
      rcases Treasury.recordBlock_latest hlast with ⟨-, rfl⟩ | ⟨hne, -⟩
      · rw [hnone]
        exact fun _ => Nat.zero_le _
      · exact hother hash b hlast hne hs
    | some job =>
      refine ⟨htidy, h.words, hheld, fun hash b hlast hs => ?_⟩
      change Owed q.treasury.carry (if hash ∈ [r.hash] then g.held k job.coinbaserId else g.found hash) b.carryPaid
      rcases Treasury.recordBlock_latest hlast with ⟨rfl, rfl⟩ | ⟨hne, -⟩
      · rw [if_pos (List.mem_singleton_self _), hpaid, Session.jobCoinbaser, hjob, Option.bind_some]
        cases hc : ss.issued job.coinbaserId with
        | none => exact fun _ => Nat.zero_le _
        | some c => exact hheld k job.coinbaserId c (by rw [if_pos rfl]; exact hc)
      · rw [if_neg (by simpa using hne)]
        exact hother hash b hlast hne hs

/-- A fresh block that is about to settle pays nobody more carry than the ledger still owes. -/
theorem Pool.Backed.covers {g : Since} {r : BlockRecord} (h : q.Backed g) (hfresh : q.Fresh g a)
    (hr : q.settling a = some r) (i : Identity) : amountOf i r.carryPaid ≤ q.treasury.carry.due i := by
  obtain ⟨hash, answer, hset⟩ : ∃ hash answer, q.treasury.settling hash answer = some r := by
    unfold settling at hr
    split at hr
    next answer => split at hr <;> first | exact ⟨_, answer, hr⟩ | cases hr
    next => cases hr
  obtain ⟨hlast, hs⟩ := Treasury.settling_latest hset
  obtain rfl := Journal.key_of_latest hlast
  have howed := h.found r.hash r hlast hs i
  by_cases hi : i ∈ r.carryPaid.map Prod.fst
  · have hnone : paidBy (g.found r.hash) i = 0 := by
      refine List.sum_eq_zero fun n hn => ?_
      obtain ⟨b, hb, rfl⟩ := List.mem_map.mp hn
      exact amountOf_of_notMem (hfresh r hr b hb i hi)
    omega
  · rw [amountOf_of_notMem hi]
    exact Nat.zero_le _

/-- An answer that stops pays nobody more carry than the ledger still owes. -/
theorem Pool.Backed.stopped {g : Since} (h : q.Backed g) (hfresh : q.Fresh g a) (hstop : q.stops a = some events)
    (i : Identity) : paidBy (settledIn events) i ≤ q.treasury.carry.due i := by
  unfold stops at hstop
  split at hstop
  next answer =>
    split at hstop
    next tipHeight hash height rest hpass =>
      split at hstop
      next => cases hstop
      next ws e hcheck =>
        obtain rfl := Option.some.inj hstop
        rw [settledIn_wrote]
        rcases h.tidy.even.stopped hcheck with hnone | ⟨r, hr, hone⟩
        · rw [hnone i]
          exact Nat.zero_le _
        · have hset : q.settling (.answer answer) = some r := by simpa only [settling, hpass] using hr
          have hsum : paidBy [confirmRecord r] i = amountOf i r.carryPaid := Nat.add_zero _
          rw [hone, hsum]
          exact h.covers hfresh hset i
    next => cases hstop
  next => cases hstop

/-- In every run in which no block settles that pays carry to an identity another was paid for since its
coinbaser copied the ledger, settled blocks never pay an identity more carry than it was owed at first
and they added for it. -/
theorem carry_paid_once {acts : List Action} (hstart : p.Backed .start)
    (run : p.outcome D H canonical acts = some events) (fresh : p.FreshPlay D H canonical .start acts)
    (i : Identity) : paidBy (settledIn events) i ≤ p.treasury.carry.due i + addedBy (settledIn events) i := by
  generalize Since.start = g at hstart fresh
  induction acts generalizing p g events with
  | nil =>
    obtain rfl := Option.some.inj run
    exact Nat.zero_le _
  | cons a acts ih =>
    obtain ⟨hnow, hlater⟩ := fresh
    rw [Pool.outcome] at run
    cases hstep : p.step D H canonical a with
    | none =>
      rw [hstep] at run
      exact (hstart.stopped hnow run i).trans (Nat.le_add_right _ _)
    | some next =>
      obtain ⟨mid, first⟩ := next
      rw [hstep] at run hlater
      obtain ⟨rest, hrun, rfl⟩ := Option.map_eq_some_iff.mp run
      have hrest := ih hrun _ (hstart.step hstep) hlater
      obtain ⟨-, -, ws, hws, hsettles⟩ := hstart.tidy.step hstep
      rw [settledIn_append, paidBy_append, addedBy_append, hws]
      rcases hsettles with ⟨hcarry, hpaid⟩ | ⟨-, b, hb, hcarry, hone⟩
      · rw [hcarry] at hrest
        rw [hpaid i]
        omega
      · have hdue := hstart.covers hnow hb i
        have happ := p.treasury.carry.due_applied_le b.carryPaid b.unpaid i
        have hsum : paidBy [confirmRecord b] i = amountOf i b.carryPaid := Nat.add_zero _
        have hadd : addedBy [confirmRecord b] i = amountOf i b.unpaid := Nat.add_zero _
        rw [hcarry] at hrest
        rw [hone, hsum, hadd]
        omega

end

/-- A coinbase at height 7 that pays out some carry and leaves the rest to the pool. -/
def carryCoinbase (paid rest : Nat) : Bytes :=
  let pool := if rest = 0 then [] else
    LittleEndian.write 8 rest ++ (22 :: (startedShared openConfig).poolScript)
  [1, 0, 0, 0, 1] ++ List.replicate 32 0 ++ List.replicate 4 0xff ++ [3, 2, 7, 0] ++
    List.replicate 4 0xff ++ [if rest = 0 then 1 else 2] ++ LittleEndian.write 8 paid ++
    (25 :: bobScript) ++ pool ++ [0, 0, 0, 0]

/-- A block found on a slot whose job was built on a coinbaser. -/
def carryShare (slot coinbaser : UInt8) (paid rest : Nat) : PowSubmit :=
  { sampleShare 5 4 with
    username := "1Ann"
    jobId := slot
    job := some { sampleJob with coinbaserId := coinbaser, nbits := ⟨[0xff, 0xff, 0x7f, 0x20], rfl⟩ }
    coinbase := some ⟨0, carryCoinbase paid rest, []⟩
    blake2b := some ⟨⟨coinbaser :: List.replicate 7 0, by simp⟩, zeros 8⟩ }

/-- A pool that owes one identity carry. -/
def owingPool : Pool := ⟨startedShared openConfig, ⟨[], owedBob⟩, fun _ => .fresh, none⟩

def askList (value : Nat) : Action := .request 0 .empty value (zeros 32) 0 true

def findBlock (slot coinbaser : UInt8) (paid rest : Nat) : Action :=
  .pow 0 .empty 0 0 "" (carryShare slot coinbaser paid rest)

def confirmBlock : List Action := [.startPass 8, .answer (.confirmations 1)]

theorem owingPool_backed : owingPool.Backed .start := by
  refine .nothingOut rfl (fun _ => rfl) fun i => ?_
  change owedBob.due i < sizeU64
  simp only [owedBob, Carry.due, OrdMap.get_insert, OrdMap.get_empty]
  split <;> decide

/-- Two blocks, the second on a coinbaser issued once the first had settled. -/
theorem carry_paid_once_two : ∃ events,
    owingPool.outcome pairDecoders lowDigests (fun _ => [])
      ([askList 200000, findBlock 0 1 200000 0] ++ confirmBlock ++
        [askList 200000, findBlock 1 2 100000 100000] ++ confirmBlock) = some events ∧
      (settledIn events).map BlockRecord.carryPaid = [[("1Bob", 200000)], [("1Bob", 100000)]] ∧
      paidBy (settledIn events) "1Bob" ≤
        owingPool.treasury.carry.due "1Bob" + addedBy (settledIn events) "1Bob" := by
  let acts := [askList 200000, findBlock 0 1 200000 0] ++ confirmBlock ++
    [askList 200000, findBlock 1 2 100000 100000] ++ confirmBlock
  have hplay : (owingPool.outcome pairDecoders lowDigests (fun _ => []) acts).map
      (fun x => (settledIn x).map BlockRecord.carryPaid) =
        some [[("1Bob", 200000)], [("1Bob", 100000)]] := by decide +kernel
  have hfresh : owingPool.FreshPlay pairDecoders lowDigests (fun _ => []) .start acts := by decide +kernel
  obtain ⟨events, run, hpaid⟩ := Option.map_eq_some_iff.mp hplay
  exact ⟨events, run, hpaid, carry_paid_once owingPool_backed run hfresh "1Bob"⟩

/-- Two coinbasers issued before either block settles both pay the same carry. -/
theorem carry_paid_twice : owingPool.Backed .start ∧ ∃ events,
    owingPool.outcome pairDecoders lowDigests (fun _ => [])
      ([askList 2000000, askList 2000000, findBlock 0 1 300000 1700000, findBlock 1 2 300000 1700000] ++
        confirmBlock ++ [.answer (.confirmations 1)]) = some events ∧
    ¬ paidBy (settledIn events) "1Bob" ≤
      owingPool.treasury.carry.due "1Bob" + addedBy (settledIn events) "1Bob" := by
  have hplay : (owingPool.outcome pairDecoders lowDigests (fun _ => [])
      ([askList 2000000, askList 2000000, findBlock 0 1 300000 1700000, findBlock 1 2 300000 1700000] ++
        confirmBlock ++ [.answer (.confirmations 1)])).map (fun x => decide (paidBy (settledIn x) "1Bob" ≤
          owingPool.treasury.carry.due "1Bob" + addedBy (settledIn x) "1Bob")) = some false := by
    decide +kernel
  obtain ⟨events, hrun, hdec⟩ := Option.map_eq_some_iff.mp hplay
  exact ⟨owingPool_backed, events, hrun, of_decide_eq_false hdec⟩

end WaviclesPrime.Primed
