import WaviclesPrime.Tides.Accounting

/-! The limits a coinbase puts on a split: how many outputs, how many bytes, and the cap on
payees. Nothing here depends on rates or amounts. -/
namespace WaviclesPrime.Tides
open Machine

def outputBytes (scripts : List Bytes) : Nat := (scripts.map outputNeed).sum

def scripts (payees : List Payee) : List Bytes := payees.map Payee.script

@[simp] theorem length_scripts (payees : List Payee) : (scripts payees).length = payees.length :=
  List.length_map ..

/-- Outputs inside the limits of a coinbase, and the bytes counted for them. -/
structure Fitting (p : SplitParams) (payees : List Payee) (bytes : Nat) : Prop where
  count : payees.length ≤ p.maxOutputs
  counted : outputBytes (scripts payees) ≤ bytes
  size : bytes ≤ p.outputBudgetBytes

/-- What a coinbase allows the payees of a split. -/
structure SizeLimits (p : SplitParams) (s : Split) : Prop where
  outputs : s.payees.length ≤ p.maxOutputs
  bytes : outputBytes (scripts s.payees) ≤ p.outputBudgetBytes
  payees : 0 < p.maxPayees → s.payees.length ≤ p.maxPayees

/-- The carry entry is given an output of its own. -/
def Opens (p : SplitParams) (scriptFor : Identity → Option Bytes) (u : Purse) (identity : Identity)
    (owed : Nat) : Prop :=
  0 < u.room ∧ 0 < owed ∧ identity ∉ identities u.payees ∧ p.minPayout ≤ min owed u.room ∧
    u.payees.length < p.maxOutputs ∧
      ∃ script ∈ scriptFor identity, u.bytes + outputNeed script ≤ p.outputBudgetBytes

instance (p : SplitParams) (scriptFor : Identity → Option Bytes) (u : Purse) (identity : Identity)
    (owed : Nat) : Decidable (Opens p scriptFor u identity owed) :=
  inferInstanceAs (Decidable (_ ∧ _ ∧ _ ∧ _ ∧ _ ∧ _))

/-- It is given one though the payees already reach the cap. -/
def OpensPastCap (p : SplitParams) (scriptFor : Identity → Option Bytes) (u : Purse)
    (identity : Identity) (owed : Nat) : Prop :=
  p.maxPayees ≤ u.payees.length ∧ Opens p scriptFor u identity owed

/-- No entry opens an output past the cap, each served from what the ones before it leave. -/
def NeverPastCap (p : SplitParams) (scriptFor : Identity → Option Bytes)
    (entries : List (Identity × Nat)) (start : Purse) : Prop :=
  ∀ before identity owed rest u, entries = before ++ (identity, owed) :: rest →
    payCarry p scriptFor before start = some u → ¬ OpensPastCap p scriptFor u identity owed

/-- The purse a carry entry finds: what the window left, and the entries before it. -/
def purseBefore (miners : List MinerStat) (totalWork value : Nat) (p : SplitParams)
    (scriptFor : Identity → Option Bytes) (before : List (Identity × Nat)) : Option Purse := do
  let tally ← tallyMiners miners totalWork value p scriptFor
  let t ← capPayees p value totalWork tally
  payCarry p scriptFor before (openPurse value t)

section
variable {miners : List MinerStat} {totalWork value : Nat} {p : SplitParams}
  {scriptFor : Identity → Option Bytes} {carry : OrdMap Identity Nat} {s : Split}

/-- What an iteration over the window does to the outputs. -/
theorem addMiner_outputs {m : MinerStat} {t t' : Tally}
    (run : addMiner p value totalWork scriptFor t m = some t') :
    (t'.payees = t.payees ∧ t'.bytes = t.bytes) ∨
    ∃ q, t'.payees = t.payees ++ [q] ∧ t'.bytes = t.bytes + outputNeed q.script ∧
      t.payees.length < p.maxOutputs ∧ t'.bytes ≤ p.outputBudgetBytes := by
  simp only [addMiner, Option.bind_eq_bind, Option.bind_eq_some_iff] at run
  obtain ⟨_, _, _, _, sats, _, _, _, run⟩ := run
  split at run
  next => exact .inl (Option.some.inj run ▸ ⟨rfl, rfl⟩)
  next =>
    split at run
    next => exact .inl (Option.some.inj run ▸ ⟨rfl, rfl⟩)
    next script _ =>
      split at run
      next => exact .inl (Option.some.inj run ▸ ⟨rfl, rfl⟩)
      next hroom =>
        simp only [Option.bind_eq_some_iff] at run
        obtain ⟨_, _, run⟩ := run
        rw [not_or, Nat.not_le, Nat.not_lt] at hroom
        obtain rfl := Option.some.inj run
        exact .inr ⟨⟨m.identity, m.work, sats, script⟩, rfl, rfl, hroom⟩

theorem Fitting.snoc {payees : List Payee} {bytes bytes' : Nat} (h : Fitting p payees bytes) (q : Payee)
    (hb : bytes' = bytes + outputNeed q.script) (hc : payees.length < p.maxOutputs)
    (hs : bytes' ≤ p.outputBudgetBytes) : Fitting p (payees ++ [q]) bytes' where
  count := by
    rw [List.length_append, List.length_singleton]
    exact hc
  counted := by
    have := h.counted
    simp only [outputBytes, scripts, List.map_append, List.map_cons, List.map_nil, List.sum_append,
      List.sum_cons, List.sum_nil] at this ⊢
    omega
  size := hs

theorem tally_fitting {t : Tally} (run : tallyMiners miners totalWork value p scriptFor = some t) :
    Fitting p t.payees t.bytes := by
  rw [tallyMiners_eq] at run
  refine Loop.run_invariant (P := fun _ t => Fitting p t.payees t.bytes) ?_
    ⟨Nat.zero_le _, Nat.le_refl _, Nat.zero_le _⟩ run
  intro _ m t t' _ h hstep
  rcases addMiner_outputs hstep with ⟨hp, hb⟩ | ⟨q, hp, hb, hc, hs⟩
  · rw [hp, hb]
    exact h
  · rw [hp]
    exact h.snoc q hb hc hs

/-- Fewer of the same outputs fit in the bytes counted for all of them. -/
theorem Fitting.subperm {xs ys : List Payee} {bytes : Nat} (h : Fitting p ys bytes)
    (hsub : (scripts xs).Subperm (scripts ys)) : Fitting p xs bytes where
  count := by
    have := hsub.length_le
    simp only [length_scripts] at this
    exact this.trans h.count
  counted := by
    obtain ⟨zs, hp, hs⟩ := hsub
    have hle : outputBytes zs ≤ outputBytes (scripts ys) := (hs.map outputNeed).sum_le_sum (by simp)
    have heq : outputBytes zs = outputBytes (scripts xs) := (hp.map outputNeed).sum_eq
    exact heq ▸ hle.trans h.counted
  size := h.size

/-- The cap keeps some of the outputs and all of the bytes. -/
theorem capPayees_outputs {t t' : Tally} (run : capPayees p value totalWork t = some t') :
    t'.bytes = t.bytes ∧ (scripts t'.payees).Subperm (scripts t.payees) ∧
      (0 < p.maxPayees → t'.payees.length ≤ p.maxPayees) := by
  unfold capPayees at run
  split at run
  next hc =>
    simp only [Option.bind_eq_bind, Option.bind_eq_some_iff] at run
    obtain ⟨_, _, _, _, shared, hsh, _, _, dust, _, payees, hpay, run⟩ := run
    obtain rfl := Option.some.inj run
    have hscripts : scripts payees = scripts (keptOf p t.payees) := by
      rw [addDust_eq hpay, scripts, map_modify_bump Payee.script (fun _ _ => rfl)]
      refine Loop.mapM_map (fun q r hq => ?_) hsh
      simp only [shareAmong, Option.bind_eq_bind, Option.bind_eq_some_iff, Option.some.injEq] at hq
      obtain ⟨_, _, rfl⟩ := hq
      rfl
    refine ⟨rfl, ?_, fun _ => ?_⟩
    · obtain ⟨zs, hp, hs⟩ := keptOf_perm_sublist p t.payees
      rw [hscripts]
      exact ⟨scripts zs, hp.map Payee.script, hs.map Payee.script⟩
    · have hlen := congrArg List.length hscripts
      simp only [length_scripts] at hlen
      exact hlen.trans_le (List.length_take_le _ _)
  next hc =>
    obtain rfl := Option.some.inj run
    refine ⟨rfl, List.Subperm.refl _, fun hpos => ?_⟩
    simp [payees_nil_of_uncapped hc hpos]

/-- An output that is topped up keeps its script, and so does every other. -/
theorem giveTo_scripts {i : Identity} {give : Nat} {payees ys : List Payee}
    (h : giveTo i give payees = some (some ys)) : scripts ys = scripts payees := by
  rcases giveTo_cases h with ⟨-, hnone⟩ | ⟨before, q, after, rfl, -, -, hsome⟩
  · cases hnone
  · obtain rfl := Option.some.inj hsome
    simp [scripts]

/-- Serving a list is serving its first entry, then the others. -/
theorem payCarry_cons_eq (e : Identity × Nat) (rest : List (Identity × Nat)) (u : Purse) :
    payCarry p scriptFor (e :: rest) u = payCarry p scriptFor [e] u >>= payCarry p scriptFor rest := by
  obtain ⟨i, owed⟩ := e
  simp only [payCarry, Option.bind_eq_bind]
  split_ifs with hroom howed
  · cases rest <;> simp [payCarry, hroom]
  · rfl
  · cases placeCarry p scriptFor u i (min owed u.room) with
    | none => rfl
    | some r =>
      cases r with
      | none => rfl
      | some placed =>
        simp only [Option.bind_some]
        cases placed.book i (min owed u.room) <;> rfl

/-- One entry is skipped, tops up an output, or opens one. -/
theorem payCarry_one {i : Identity} {owed : Nat} {u next : Purse}
    (run : payCarry p scriptFor [(i, owed)] u = some next) :
    (¬ Opens p scriptFor u i owed ∧ next = u) ∨
    (i ∈ identities u.payees ∧ giveTo i (min owed u.room) u.payees = some (some next.payees) ∧
      next.bytes = u.bytes) ∨
    (Opens p scriptFor u i owed ∧ ∃ script,
      next.payees = u.payees ++ [⟨i, 0, min owed u.room, script⟩] ∧
      next.bytes = u.bytes + outputNeed script ∧ next.bytes ≤ p.outputBudgetBytes) := by
  unfold payCarry at run
  split at run
  next hroom => exact .inl ⟨fun ho => by have := ho.1; omega, (Option.some.inj run).symm⟩
  next hroom =>
    split at run
    next howed => exact .inl ⟨fun ho => by have := ho.2.1; omega, (Option.some.inj run).symm⟩
    next howed =>
      simp only [Option.bind_eq_bind, Option.bind_eq_some_iff] at run
      obtain ⟨r, hplace, run⟩ := run
      rcases placeCarry_cases hplace with
        ⟨ys, hi, hg, rfl⟩ | ⟨hi, rfl, hno⟩ | ⟨script, hi, hmin, hs, hcount, hsize, rfl⟩
      · simp only [Option.bind_eq_some_iff] at run
        obtain ⟨v, hb, run⟩ := run
        obtain ⟨-, rfl⟩ := Purse.book_eq hb
        obtain rfl := Option.some.inj run
        exact .inr (.inl ⟨hi, hg, rfl⟩)
      · exact .inl ⟨fun ho => hno ho.2.2.2, (Option.some.inj run).symm⟩
      · simp only [Option.bind_eq_some_iff] at run
        obtain ⟨v, hb, run⟩ := run
        obtain ⟨-, rfl⟩ := Purse.book_eq hb
        obtain rfl := Option.some.inj run
        exact .inr (.inr ⟨⟨Nat.pos_of_ne_zero hroom, Nat.pos_of_ne_zero howed, hi, hmin, hcount,
          script, hs, hsize⟩, script, rfl, rfl, hsize⟩)

/-- What one entry does to the scripts and bytes of the outputs. -/
theorem payCarry_outputs {i : Identity} {owed : Nat} {u next : Purse}
    (run : payCarry p scriptFor [(i, owed)] u = some next) :
    (¬ Opens p scriptFor u i owed ∧ scripts next.payees = scripts u.payees ∧ next.bytes = u.bytes) ∨
    (Opens p scriptFor u i owed ∧ ∃ q, next.payees = u.payees ++ [q] ∧
      next.bytes = u.bytes + outputNeed q.script ∧ next.bytes ≤ p.outputBudgetBytes) := by
  rcases payCarry_one run with ⟨hno, rfl⟩ | ⟨hi, hg, hb⟩ | ⟨ho, script, hp, hb, hs⟩
  · exact .inl ⟨hno, rfl, rfl⟩
  · exact .inl ⟨fun ho => ho.2.2.1 hi, giveTo_scripts hg, hb⟩
  · exact .inr ⟨ho, _, hp, hb, hs⟩

/-- Outputs stay inside the limits, and are never taken back. -/
theorem payCarry_fitting {entries : List (Identity × Nat)} {u u' : Purse}
    (run : payCarry p scriptFor entries u = some u') (h : Fitting p u.payees u.bytes) :
    Fitting p u'.payees u'.bytes ∧ u.payees.length ≤ u'.payees.length := by
  induction entries generalizing u with
  | nil =>
    obtain rfl := Option.some.inj run
    exact ⟨h, Nat.le_refl _⟩
  | cons e rest ih =>
    rw [payCarry_cons_eq, Option.bind_eq_bind, Option.bind_eq_some_iff] at run
    obtain ⟨next, hone, run⟩ := run
    rcases payCarry_outputs hone with ⟨-, hsc, hb⟩ | ⟨ho, q, hp, hb, hs⟩
    · have hlen := congrArg List.length hsc
      simp only [length_scripts] at hlen
      rw [← hlen]
      exact ih run (hb ▸ h.subperm (hsc ▸ List.Subperm.refl _))
    · obtain ⟨hf, hle⟩ := ih run (hp ▸ h.snoc q hb ho.2.2.2.2.1 hs)
      refine ⟨hf, ?_⟩
      rw [hp, List.length_append] at hle
      omega

/-- Only an entry that opens an output past the cap takes the payees past it. -/
theorem payees_le_iff {entries : List (Identity × Nat)} {u u' : Purse}
    (run : payCarry p scriptFor entries u = some u') (h : Fitting p u.payees u.bytes)
    (hu : u.payees.length ≤ p.maxPayees) :
    u'.payees.length ≤ p.maxPayees ↔ NeverPastCap p scriptFor entries u := by
  induction entries generalizing u with
  | nil =>
    obtain rfl := Option.some.inj run
    exact iff_of_true hu fun before i owed rest v heq => by simp at heq
  | cons e rest ih =>
    obtain ⟨i, owed⟩ := e
    rw [payCarry_cons_eq, Option.bind_eq_bind, Option.bind_eq_some_iff] at run
    obtain ⟨next, hone, run⟩ := run
    have hcons : NeverPastCap p scriptFor ((i, owed) :: rest) u ↔
        ¬ OpensPastCap p scriptFor u i owed ∧ NeverPastCap p scriptFor rest next := by
      constructor
      · refine fun hn => ⟨hn [] i owed rest u rfl rfl, fun before j w tail v heq hv => ?_⟩
        refine hn ((i, owed) :: before) j w tail v (by rw [heq]; rfl) ?_
        rw [payCarry_cons_eq, hone]
        exact hv
      · rintro ⟨hfirst, hn⟩ before j w tail v heq hv
        cases before with
        | nil =>
          obtain ⟨he, -⟩ := List.cons.inj heq
          obtain ⟨rfl, rfl⟩ := Prod.mk.inj he
          exact Option.some.inj hv ▸ hfirst
        | cons b before =>
          obtain ⟨rfl, hrest⟩ := List.cons.inj heq
          rw [payCarry_cons_eq, hone] at hv
          exact hn before j w tail v hrest hv
    rcases payCarry_outputs hone with ⟨hno, hsc, hb⟩ | ⟨ho, q, hp, hb, hs⟩
    · have hlen := congrArg List.length hsc
      simp only [length_scripts] at hlen
      rw [hcons, and_iff_right fun hx => hno hx.2]
      exact ih run (hb ▸ h.subperm (hsc ▸ List.Subperm.refl _)) (hlen ▸ hu)
    · have hnext : Fitting p next.payees next.bytes := hp ▸ h.snoc q hb ho.2.2.2.2.1 hs
      have hlen : next.payees.length = u.payees.length + 1 := by rw [hp]; simp
      rcases Nat.lt_or_eq_of_le hu with hlt | heq
      · rw [hcons, and_iff_right fun hx => absurd hx.1 (by omega)]
        exact ih run hnext (by omega)
      · refine iff_of_false ?_ fun hn => (hcons.mp hn).1 ⟨heq.ge, ho⟩
        have := (payCarry_fitting run hnext).2
        omega

/-- A returned split fits its coinbase. It also keeps to the cap on payees exactly when no carry
entry opens an output past it. -/
theorem size_limits_iff (run : computeWithCarry miners totalWork value p carry scriptFor = some s) :
    SizeLimits p s ↔ p.maxPayees = 0 ∨ ∀ before identity owed rest u,
      carry.entries = before ++ (identity, owed) :: rest →
      purseBefore miners totalWork value p scriptFor before = some u →
      ¬ OpensPastCap p scriptFor u identity owed := by
  simp only [computeWithCarry, Option.bind_eq_bind, Option.bind_eq_some_iff] at run
  obtain ⟨tally, ht, t, hc, u, hu, hs⟩ := run
  obtain ⟨hbytes, hsub, hcap⟩ := capPayees_outputs hc
  have hstart : Fitting p t.payees t.bytes := hbytes ▸ (tally_fitting ht).subperm hsub
  have hend := (payCarry_fitting hu hstart).1
  have hpayees : s.payees = u.payees := Option.some.inj hs ▸ rfl
  have hbefore (before) : purseBefore miners totalWork value p scriptFor before =
      payCarry p scriptFor before (openPurse value t) := by
    simp [purseBefore, ht, hc]
  have hlimits : SizeLimits p s ↔ (0 < p.maxPayees → s.payees.length ≤ p.maxPayees) :=
    ⟨SizeLimits.payees, fun h => ⟨hpayees ▸ hend.count, hpayees ▸ hend.counted.trans hend.size, h⟩⟩
  simp only [hbefore]
  rw [hlimits]
  rcases Nat.eq_zero_or_pos p.maxPayees with hzero | hpos
  · exact iff_of_true (fun hpos => by omega) (.inl hzero)
  · rw [forall_prop_of_true hpos, or_iff_right hpos.ne', hpayees]
    exact payees_le_iff hu hstart (hcap hpos)

end
/-- Parameters of a split capped at one payee, with a fee of 10 %. -/
def singlePayee : SplitParams := ⟨1000, 0, 1, 511, 14000, 1, .empty⟩

/-- Carry that goes to the one payee keeps to the cap. -/
theorem single_payee_within : ∃ s, computeWithCarry [⟨"a", 3, 0, 1, 0⟩, ⟨"c", 1, 1, 1, 0⟩] 4 1000
    singlePayee oneOwed plainScript = some s ∧ SizeLimits singlePayee s := by
  refine ⟨_, rfl, (@size_limits_iff [⟨"a", 3, 0, 1, 0⟩, ⟨"c", 1, 1, 1, 0⟩] 4 1000 singlePayee plainScript
    oneOwed _ rfl).mpr (.inr fun before identity owed rest u heq hu ho => ?_)⟩
  change [("a", 600)] = before ++ (identity, owed) :: rest at heq
  cases before with
  | nil =>
    obtain ⟨⟨rfl, rfl⟩, -⟩ := by simpa using heq
    obtain rfl : _ = u := Option.some.inj hu
    exact ho.2.2.2.1 (by decide)
  | cons e before => simp at heq

/-- An identity outside the window that is owed takes an output of its own past the cap. -/
theorem carry_ignores_cap : ∃ s, computeWithCarry [⟨"b", 3, 0, 1, 0⟩, ⟨"c", 1, 1, 1, 0⟩] 4 1000
    singlePayee oneOwed plainScript = some s ∧ ¬ SizeLimits singlePayee s :=
  ⟨_, rfl, fun h => absurd (h.payees (by decide)) (by decide)⟩

end WaviclesPrime.Tides
