import WaviclesPrime.Lib.Apportion
import WaviclesPrime.Wire.Coinbase
import WaviclesPrime.Wire.Coinbaser

/-! Where a share's coinbase sends the block reward. -/
namespace WaviclesPrime.Wire
open Machine Apportion

inductive CoinbaseKind where
  | split
  | partialSplit (present : Nat)
  | poolOnly
  | foreign
  deriving DecidableEq, Repr

section
variable (cb : Coinbase) (poolScript : Bytes)

def sanctioned (issued : Option (List Output)) (script : Bytes) : Bool :=
  issued.any fun iss => iss.any fun i => i.script == script

/-- An output that is neither an OP_RETURN, nor the pool's, nor issued. -/
def isForeign (issued : Option (List Output)) (o : TxOut) : Bool :=
  !o.isOpReturn && o.script != poolScript && !sanctioned issued o.script

def poolPaid : Bool := cb.outputs.any fun o => !o.isOpReturn && o.script == poolScript

/-- The zero-value commitments among the issued outputs. -/
def commits (iss : List Output) : List Output := iss.filter fun i => isOpReturnScript i.script

def dropsCommit (iss : List Output) : Bool :=
  (commits iss).any fun c => !cb.outputs.any fun o => o.script == c.script

def minersOf (iss : List Output) : List Output :=
  iss.filter fun i => i.script != poolScript && !isOpReturnScript i.script

/-- What an output may be shorted to when the template is worth less than was issued. -/
def owedFor (issuedValue actualValue sats : Nat) : Nat :=
  if issuedValue = 0 ∨ issuedValue ≤ actualValue then sats
  else cast sizeU64 (sats * actualValue / issuedValue)

/-- What an output may grow to when the template is worth more than was issued. -/
def capFor (issuedValue actualValue sats : Nat) : Nat :=
  if issuedValue = 0 ∨ actualValue ≤ issuedValue then sats
  else cast sizeU64 (sats * actualValue / issuedValue)

def issuedTo (miners : List Output) (script : Bytes) : Nat :=
  ((miners.filter fun i => i.script = script).map Output.sats).foldl (satAdd sizeU64) 0

/-- The loop over the miner outputs: `none` inside is the early exit on an overpaid script. -/
def holdMiners (tolerance slack issuedValue actualValue : Nat) (miners : List Output) :
    List Output → Nat → Bool → Option (Option (Nat × Bool))
  | [], present, shorted => some (some (present, shorted))
  | i :: rest, present, shorted =>
    let paid := cb.paidTo i.script
    if 0 < paid then do
      let present ← checkedAdd sizeU16 present 1
      let shorted := shorted ||
        decide (satAdd sizeU64 paid tolerance < owedFor issuedValue actualValue i.sats)
      let ceiling := capFor issuedValue actualValue (issuedTo miners i.script)
      if satAdd sizeU64 ceiling slack < paid then some none
      else holdMiners tolerance slack issuedValue actualValue miners rest present shorted
    else holdMiners tolerance slack issuedValue actualValue miners rest present shorted

/-- The tail of the classification: only the pool is paid, or somebody unknown is. -/
def poolOrForeign : CoinbaseKind :=
  if poolPaid cb poolScript && cb.outputs.all (fun o => o.isOpReturn || o.script == poolScript) then
    .poolOnly
  else .foreign

def classifyCoinbase (issued : Option (List Output)) (tolerance : Nat) : Option CoinbaseKind :=
  if cb.outputs.any (isForeign poolScript issued) then some .foreign
  else match issued with
    | none => some (poolOrForeign cb poolScript)
    | some iss =>
      if dropsCommit cb iss then
        let present := (iss.filter fun i =>
          !(commits iss).contains i && decide (0 < cb.paidTo i.script)).length
        some (if 0 < present then .partialSplit (cast sizeU16 present) else .poolOnly)
      else do
        let miners := minersOf poolScript iss
        let issuedValue ← (iss.map Output.sats).foldlM (checkedAdd sizeU64) 0
        let slack := satAdd sizeU64 tolerance iss.length
        match ← holdMiners cb tolerance slack issuedValue cb.totalOutputValue miners miners 0 false with
        | none => some .foreign
        | some (present, shorted) =>
          if !shorted && (present == miners.length && (poolPaid cb poolScript || !miners.isEmpty)) then
            some .split
          else if !shorted && decide (0 < present) then some (.partialSplit present)
          else some (poolOrForeign cb poolScript)

end

section
variable {cb : Coinbase} {poolScript : Bytes} {iss : List Output} {tolerance : Nat}

/-- Everything that was issued to a script. -/
def issuedSum (iss : List Output) (script : Bytes) : Nat :=
  ((iss.filter fun i => i.script = script).map Output.sats).sum

/-- The ceiling of a script in exact arithmetic: its issued sum, scaled up with the template. -/
def ceilingOf (cb : Coinbase) (iss : List Output) (script : Bytes) : Nat :=
  let issuedValue := (iss.map Output.sats).sum
  if issuedValue = 0 ∨ cb.totalOutputValue ≤ issuedValue then issuedSum iss script
  else issuedSum iss script * cb.totalOutputValue / issuedValue

/-- The coinbase pays no miner script above its ceiling and the slack. -/
def WithinIssue (cb : Coinbase) (poolScript : Bytes) (iss : List Output) (tolerance : Nat) : Prop :=
  ∀ script, script ≠ poolScript → isOpReturnScript script = false →
    cb.paidTo script ≤ ceilingOf cb iss script + (tolerance + iss.length)

/-- A miner output that is paid, but short of what it is owed. -/
def isShort (cb : Coinbase) (tolerance issuedValue actualValue : Nat) (i : Output) : Bool :=
  decide (0 < cb.paidTo i.script) &&
    decide (satAdd sizeU64 (cb.paidTo i.script) tolerance < owedFor issuedValue actualValue i.sats)

/-- The loop ends without an early exit exactly when the count fits and nobody is overpaid. -/
theorem holdMiners_eq_some {slack issuedValue actualValue : Nat} {miners rest : List Output}
    {present : Nat} {shorted : Bool} {r : Nat × Bool} (hp : present < sizeU16) :
    holdMiners cb tolerance slack issuedValue actualValue miners rest present shorted = some (some r) ↔
      present + rest.countP (fun i => 0 < cb.paidTo i.script) < sizeU16 ∧
      (∀ i ∈ rest, cb.paidTo i.script ≤
        satAdd sizeU64 (capFor issuedValue actualValue (issuedTo miners i.script)) slack) ∧
      r = (present + rest.countP (fun i => 0 < cb.paidTo i.script),
        shorted || rest.any (isShort cb tolerance issuedValue actualValue)) := by
  induction rest generalizing present shorted with
  | nil => simp [holdMiners, hp, eq_comm]
  | cons i rest ih =>
    rw [holdMiners]
    dsimp only
    by_cases hpos : 0 < cb.paidTo i.script
    · have hcount : (i :: rest).countP (fun i => 0 < cb.paidTo i.script) =
          rest.countP (fun i => 0 < cb.paidTo i.script) + 1 := List.countP_cons_of_pos (by simpa using hpos)
      have hshort : isShort cb tolerance issuedValue actualValue i = decide (satAdd sizeU64
          (cb.paidTo i.script) tolerance < owedFor issuedValue actualValue i.sats) := by
        simp [isShort, hpos]
      rw [if_pos hpos, hcount, List.any_cons, hshort, List.forall_mem_cons]
      simp only [Option.bind_eq_bind, Option.bind_eq_some_iff, checkedAdd_eq_some]
      constructor
      · rintro ⟨next, ⟨hnext, rfl⟩, h⟩
        split at h
        next => simp at h
        next hle =>
          obtain ⟨hfit, hrest, hr⟩ := (ih hnext).mp h
          refine ⟨by omega, ⟨Nat.le_of_not_lt hle, hrest⟩, ?_⟩
          rw [hr, Bool.or_assoc, Nat.add_assoc, Nat.add_comm 1]
      · rintro ⟨hfit, ⟨hle, hrest⟩, hr⟩
        refine ⟨present + 1, ⟨by omega, rfl⟩, ?_⟩
        rw [if_neg (Nat.not_lt.mpr hle)]
        refine (ih (by omega)).mpr ⟨by omega, hrest, ?_⟩
        rw [hr, Bool.or_assoc, Nat.add_assoc, Nat.add_comm 1]
    · have hcount : (i :: rest).countP (fun i => 0 < cb.paidTo i.script) =
          rest.countP (fun i => 0 < cb.paidTo i.script) := List.countP_cons_of_neg (by simpa using hpos)
      have hshort : isShort cb tolerance issuedValue actualValue i = false := by simp [isShort, hpos]
      rw [if_neg hpos, ih hp, hcount, List.any_cons, hshort, Bool.false_or, List.forall_mem_cons]
      simp [Nat.eq_zero_of_not_pos hpos]

theorem filter_minersOf {script : Bytes} (hp : script ≠ poolScript)
    (ho : isOpReturnScript script = false) :
    (minersOf poolScript iss).filter (fun i => i.script = script)
      = iss.filter (fun i => i.script = script) := by
  rw [minersOf, List.filter_filter]
  refine List.filter_congr fun i _ => ?_
  by_cases h : i.script = script <;> simp [h, hp, ho]

theorem totalOutputValue_lt (cb : Coinbase) : cb.totalOutputValue < sizeU64 := by
  rw [Coinbase.totalOutputValue, foldl_satAdd _ _ (by decide)]
  simp only [sizeU64]
  omega

/-- While the issued list fits a word, the code's ceiling is the exact one. -/
theorem capFor_eq {script : Bytes} (hfit : (iss.map Output.sats).sum < sizeU64)
    (hp : script ≠ poolScript) (ho : isOpReturnScript script = false) :
    capFor (iss.map Output.sats).sum cb.totalOutputValue
      (issuedTo (minersOf poolScript iss) script) = ceilingOf cb iss script := by
  have hle : issuedSum iss script ≤ (iss.map Output.sats).sum :=
    (List.filter_sublist.map _).sum_le_sum (by simp)
  have hto : issuedTo (minersOf poolScript iss) script = issuedSum iss script := by
    rw [issuedTo, filter_minersOf hp ho, foldl_satAdd _ _ (by decide), Nat.zero_add]
    exact Nat.min_eq_left (by unfold issuedSum at hle; omega)
  rw [capFor, hto, ceilingOf]
  split
  · rfl
  · have hlt := totalOutputValue_lt cb
    refine cast_of_lt (Nat.lt_of_le_of_lt (Nat.div_le_of_le_mul ?_) hlt)
    exact Nat.mul_le_mul_right _ hle

/-- What is said of a coinbase that drops a commitment. -/
def droppedKind (cb : Coinbase) (iss : List Output) : CoinbaseKind :=
  let present := (iss.filter fun i => !(commits iss).contains i && decide (0 < cb.paidTo i.script)).length
  if 0 < present then .partialSplit (cast sizeU16 present) else .poolOnly

/-- What is said of a coinbase once the loop has held its miners. -/
def heldKind (cb : Coinbase) (poolScript : Bytes) (iss : List Output) (present : Nat) (shorted : Bool) :
    CoinbaseKind :=
  if !shorted && (present == (minersOf poolScript iss).length &&
    (poolPaid cb poolScript || !(minersOf poolScript iss).isEmpty)) then .split
  else if !shorted && decide (0 < present) then .partialSplit present
  else poolOrForeign cb poolScript

/-- How a coinbase with an issued list comes to its kind. -/
theorem classify_cases {kind : CoinbaseKind}
    (h : classifyCoinbase cb poolScript (some iss) tolerance = some kind) :
    ((∃ o ∈ cb.outputs, isForeign poolScript (some iss) o = true) ∧ kind = .foreign) ∨
    (∀ o ∈ cb.outputs, isForeign poolScript (some iss) o = false) ∧
      ((dropsCommit cb iss = true ∧ kind = droppedKind cb iss) ∨
      (dropsCommit cb iss = false ∧ (iss.map Output.sats).sum < sizeU64 ∧
        ∃ r, holdMiners cb tolerance (satAdd sizeU64 tolerance iss.length) (iss.map Output.sats).sum
          cb.totalOutputValue (minersOf poolScript iss) (minersOf poolScript iss) 0 false = some r ∧
          kind = r.elim .foreign fun x => heldKind cb poolScript iss x.1 x.2)) := by
  unfold classifyCoinbase at h
  split at h
  next hany => exact .inl ⟨List.any_eq_true.mp hany, (Option.some.inj h).symm⟩
  next hany =>
    refine .inr ⟨by simpa using hany, ?_⟩
    dsimp only at h
    split at h
    next hdrop => exact .inl ⟨hdrop, (Option.some.inj h).symm⟩
    next hkept =>
      simp only [Option.bind_eq_bind, Option.bind_eq_some_iff] at h
      obtain ⟨_, hsum, r, hhold, h⟩ := h
      obtain ⟨hfit, rfl⟩ := (foldlM_checkedAdd _ _ _ (by decide)).mp hsum
      rw [Nat.zero_add] at hfit hhold
      refine .inr ⟨Bool.eq_false_of_not_eq_true hkept, hfit, r, hhold, ?_⟩
      cases r with
      | none => exact (Option.some.inj h).symm
      | some r =>
        rw [Option.elim_some, heldKind]
        dsimp only at h
        split at h
        next hall => rw [if_pos hall, Option.some.inj h]
        next hall =>
          rw [if_neg hall]
          split at h
          next hsome => rw [if_pos hsome, Option.some.inj h]
          next hsome => rw [if_neg hsome, Option.some.inj h]

theorem poolOrForeign_ne_split : poolOrForeign cb poolScript ≠ .split := by
  unfold poolOrForeign
  split <;> exact CoinbaseKind.noConfusion

theorem droppedKind_ne_split : droppedKind cb iss ≠ .split := by
  unfold droppedKind
  dsimp only
  split <;> exact CoinbaseKind.noConfusion

theorem heldKind_eq_split {present : Nat} {shorted : Bool} :
    heldKind cb poolScript iss present shorted = .split ↔
      shorted = false ∧ present = (minersOf poolScript iss).length ∧
        (poolPaid cb poolScript = true ∨ minersOf poolScript iss ≠ []) := by
  rw [heldKind]
  split
  next hall => exact iff_of_true rfl (by simpa using hall)
  next hall =>
    refine iff_of_false ?_ (by simpa using hall)
    split
    next => exact CoinbaseKind.noConfusion
    next => exact poolOrForeign_ne_split

theorem heldKind_poolOnly {present : Nat} {shorted : Bool}
    (h : heldKind cb poolScript iss present shorted = .poolOnly) :
    poolOrForeign cb poolScript = .poolOnly := by
  rw [heldKind] at h
  split at h
  next => exact CoinbaseKind.noConfusion h
  next =>
    split at h
    next => exact CoinbaseKind.noConfusion h
    next => exact h

/-- What a split went through. -/
theorem split_held (h : classifyCoinbase cb poolScript (some iss) tolerance = some .split) :
    (∀ o ∈ cb.outputs, isForeign poolScript (some iss) o = false) ∧ dropsCommit cb iss = false ∧
      (iss.map Output.sats).sum < sizeU64 ∧
      holdMiners cb tolerance (satAdd sizeU64 tolerance iss.length) (iss.map Output.sats).sum
        cb.totalOutputValue (minersOf poolScript iss) (minersOf poolScript iss) 0 false =
          some (some ((minersOf poolScript iss).length, false)) ∧
      (poolPaid cb poolScript = true ∨ minersOf poolScript iss ≠ []) := by
  rcases classify_cases h with ⟨-, hk⟩ | ⟨known, ⟨-, hk⟩ | ⟨kept, hfit, r, hhold, hk⟩⟩
  · cases hk
  · exact absurd hk.symm droppedKind_ne_split
  · cases r with
    | none => cases hk
    | some r =>
      obtain ⟨present, shorted⟩ := r
      obtain ⟨rfl, rfl, hpool⟩ := heldKind_eq_split.mp hk.symm
      exact ⟨known, kept, hfit, hhold, hpool⟩

/-- A full split has every miner output. -/
theorem split_paid (h : classifyCoinbase cb poolScript (some iss) tolerance = some .split) :
    ∀ i ∈ minersOf poolScript iss, 0 < cb.paidTo i.script := by
  obtain ⟨-, -, -, hhold, -⟩ := split_held h
  obtain ⟨-, -, hr⟩ := (holdMiners_eq_some (by decide)).mp hhold
  have hcount := (Prod.mk.inj hr).1
  rw [Nat.zero_add, eq_comm, List.countP_eq_length] at hcount
  simpa using hcount

theorem poolOrForeign_unpaid (h : poolOrForeign cb poolScript = .poolOnly) {script : Bytes}
    (hp : script ≠ poolScript) (ho : isOpReturnScript script = false) : cb.paidTo script = 0 := by
  unfold poolOrForeign at h
  split at h
  next hall =>
    simp only [Bool.and_eq_true, List.all_eq_true, Bool.or_eq_true, beq_iff_eq] at hall
    refine Nat.eq_zero_of_not_pos fun hpos => ?_
    obtain ⟨o, hmem, rfl⟩ := Coinbase.paidTo_pos hpos
    rcases hall.2 o hmem with hop | heq
    · simp [TxOut.isOpReturn, ho] at hop
    · exact hp heq
  next => simp at h

/-- A pool-only coinbase pays no issued miner output. -/
theorem poolOnly_unpaid (h : classifyCoinbase cb poolScript (some iss) tolerance = some .poolOnly)
    {i : Output} (hi : i ∈ iss) (hp : i.script ≠ poolScript)
    (ho : isOpReturnScript i.script = false) : cb.paidTo i.script = 0 := by
  rcases classify_cases h with ⟨-, hk⟩ | ⟨-, ⟨-, hk⟩ | ⟨-, -, r, -, hk⟩⟩
  · cases hk
  · rw [droppedKind] at hk
    split at hk
    next => cases hk
    next hnone =>
      rw [List.length_pos_iff, not_not, List.filter_eq_nil_iff] at hnone
      have hcommit : (commits iss).contains i = false := by
        rw [← Bool.not_eq_true, List.contains_iff_mem]
        intro hmem
        simp [commits, ho] at hmem
      simpa only [hcommit, Bool.not_false, Bool.true_and, decide_eq_true_eq, Nat.not_lt,
        Nat.le_zero] using hnone i hi
  · cases r with
    | none => cases hk
    | some r => exact poolOrForeign_unpaid (heldKind_poolOnly hk.symm) hp ho

/-- Without an issued list a coinbase is the pool's alone, or foreign. -/
theorem unissued_kind {kind : CoinbaseKind} (h : classifyCoinbase cb poolScript none tolerance = some kind)
    (hk : kind ≠ .foreign) : kind = .poolOnly := by
  unfold classifyCoinbase at h
  split at h
  next => exact absurd (Option.some.inj h).symm hk
  next =>
    obtain rfl := Option.some.inj h
    unfold poolOrForeign at hk ⊢
    split at hk
    next hall => rw [if_pos hall]
    next => exact absurd rfl hk

theorem unissued_unpaid (h : classifyCoinbase cb poolScript none tolerance = some .poolOnly)
    {script : Bytes} (hp : script ≠ poolScript) (ho : isOpReturnScript script = false) :
    cb.paidTo script = 0 := by
  unfold classifyCoinbase at h
  split at h
  next => simp at h
  next => exact poolOrForeign_unpaid (Option.some.inj h) hp ho

/-- A coinbase that is not foreign pays only the pool, commitments and issued scripts. -/
theorem issued_of_paid {kind : CoinbaseKind}
    (h : classifyCoinbase cb poolScript (some iss) tolerance = some kind) (hk : kind ≠ .foreign)
    {script : Bytes} (hp : script ≠ poolScript) (ho : isOpReturnScript script = false)
    (hpaid : 0 < cb.paidTo script) : ∃ i ∈ minersOf poolScript iss, i.script = script := by
  obtain ⟨o, hmem, rfl⟩ := Coinbase.paidTo_pos hpaid
  have hknown : isForeign poolScript (some iss) o = false := by
    rcases classify_cases h with ⟨-, rfl⟩ | ⟨known, -⟩
    · exact absurd rfl hk
    · exact known o hmem
  have hs : sanctioned (some iss) o.script = true := by
    simpa [isForeign, TxOut.isOpReturn, ho, hp] using hknown
  obtain ⟨i, hi, heq⟩ := List.any_eq_true.mp hs
  refine ⟨i, List.mem_filter.mpr ⟨hi, ?_⟩, by simpa using heq⟩
  simp only [beq_iff_eq] at heq
  simp [heq, hp, ho]

/-- Once every commitment is present, the ceiling is held on every exit. -/
theorem within_of_commits {kind : CoinbaseKind} (hc : dropsCommit cb iss = false)
    (h : classifyCoinbase cb poolScript (some iss) tolerance = some kind) (hk : kind ≠ .foreign) :
    WithinIssue cb poolScript iss tolerance := by
  intro script hp ho
  rcases Nat.eq_zero_or_pos (cb.paidTo script) with hz | hpos
  · omega
  obtain ⟨i, hi, rfl⟩ := issued_of_paid h hk hp ho hpos
  rcases classify_cases h with ⟨-, rfl⟩ | ⟨-, ⟨hd, -⟩ | ⟨-, hfit, r, hhold, hkind⟩⟩
  · exact absurd rfl hk
  · rw [hc] at hd
    cases hd
  · cases r with
    | none => exact absurd hkind hk
    | some r =>
      obtain ⟨-, hbound, -⟩ := (holdMiners_eq_some (by decide)).mp hhold
      have hb := (hbound i hi).trans (satAdd_le ..)
      rw [capFor_eq hfit hp ho] at hb
      have := satAdd_le sizeU64 tolerance iss.length
      omega

/-- With a commitment dropped and nobody unknown paid, no amount is looked at. -/
theorem classify_dropped (tolerance : Nat) (hd : dropsCommit cb iss = true)
    (hn : ¬ ∃ o ∈ cb.outputs, isForeign poolScript (some iss) o = true) :
    ∃ kind, classifyCoinbase cb poolScript (some iss) tolerance = some kind ∧ kind ≠ .foreign := by
  have hany : ¬ cb.outputs.any (isForeign poolScript (some iss)) = true := by
    rwa [List.any_eq_true]
  rw [classifyCoinbase, if_neg hany]
  simp only [if_pos hd]
  refine ⟨_, rfl, ?_⟩
  split <;> simp

/-- The ceiling holds of every accepted coinbase exactly when no issued commitment is dropped,
or somebody unknown is paid, or the check skipped by a dropped commitment would have passed. -/
theorem classify_within_iff : (∀ kind, classifyCoinbase cb poolScript (some iss) tolerance = some kind →
      kind ≠ .foreign → WithinIssue cb poolScript iss tolerance) ↔
    (dropsCommit cb iss = false ∨ (∃ o ∈ cb.outputs, isForeign poolScript (some iss) o = true) ∨
      ∀ i ∈ minersOf poolScript iss,
        cb.paidTo i.script ≤ ceilingOf cb iss i.script + (tolerance + iss.length)) := by
  constructor
  · intro h
    cases hd : dropsCommit cb iss with
    | false => exact .inl rfl
    | true =>
      refine .inr (or_iff_not_imp_left.mpr fun hn i hi => ?_)
      obtain ⟨kind, hkind, hne⟩ := classify_dropped tolerance hd hn
      have hmem := (List.mem_filter.mp hi).2
      simp only [Bool.and_eq_true, bne_iff_ne, ne_eq, Bool.not_eq_true'] at hmem
      exact h kind hkind hne i.script hmem.1 hmem.2
  · rintro (hc | ⟨o, ho, hf⟩ | hb) kind hkind hne
    · exact within_of_commits hc hkind hne
    · have hany : cb.outputs.any (isForeign poolScript (some iss)) = true :=
        List.any_eq_true.mpr ⟨o, ho, hf⟩
      rw [classifyCoinbase, if_pos hany] at hkind
      exact absurd (Option.some.inj hkind).symm hne
    · intro script hp ho
      rcases Nat.eq_zero_or_pos (cb.paidTo script) with hz | hpos
      · omega
      obtain ⟨i, hi, rfl⟩ := issued_of_paid hkind hne hp ho hpos
      exact hb i hi

end

/-- A coinbase with these outputs. -/
def coinbaseOf (outputs : List TxOut) : Coinbase := ⟨1, [1, 7], 0, outputs, 0, some 7, 0, 0⟩

/-- Dropping the commitment hands a miner the pool's remainder. -/
theorem dropped_commitment_diverts :
    ¬ ∀ (cb : Coinbase) (poolScript : Bytes) (iss : List Output) (tolerance : Nat) (kind : CoinbaseKind),
      classifyCoinbase cb poolScript (some iss) tolerance = some kind → kind ≠ .foreign →
      WithinIssue cb poolScript iss tolerance := by
  intro h
  have := h (coinbaseOf [⟨1000, [0, 20, 1]⟩]) [0, 20, 9]
    [⟨0, [0x6a, 1]⟩, ⟨100, [0, 20, 1]⟩, ⟨900, [0, 20, 9]⟩] 1 (.partialSplit 1) (by decide) (by decide)
    [0, 20, 1] (by decide) (by decide)
  exact absurd this (by decide)

end WaviclesPrime.Wire
