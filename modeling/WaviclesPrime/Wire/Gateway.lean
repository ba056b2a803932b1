import WaviclesPrime.Wire.PaidInFull

/-! Coinbases built by a gateway that follows the issued list. -/
namespace WaviclesPrime.Wire
open Machine Apportion

def issuedOutputs (poolScript : Bytes) (commitment : Option Bytes) (miners : List Output)
    (pool : Option Nat) : List Output :=
  (commitment.map fun c => ⟨0, c⟩).toList ++ miners ++ (pool.map fun sats => ⟨sats, poolScript⟩).toList

/-- A list as Prime issues it: at most one commitment, then the miners, then the pool's own output if
it has one. -/
structure IssuedList (poolScript : Bytes) where
  commitment : Option Bytes
  miners : List Output
  pool : Option Nat
  spendable : isOpReturnScript poolScript = false
  unspendable : ∀ c ∈ commitment, isOpReturnScript c = true
  nonempty : miners ≠ []
  distinct : (miners.map Output.script).Nodup
  own : ∀ i ∈ miners, i.script ≠ poolScript ∧ isOpReturnScript i.script = false
  positive : ∀ i ∈ miners, 0 < i.sats
  length_le : (issuedOutputs poolScript commitment miners pool).length ≤ 513
  fits : ((issuedOutputs poolScript commitment miners pool).map Output.sats).sum < sizeU64

def Output.toTxOut (o : Output) : TxOut := ⟨o.sats, o.script⟩

namespace IssuedList
variable {poolScript : Bytes} (l : IssuedList poolScript)

def outputs : List Output := issuedOutputs poolScript l.commitment l.miners l.pool

/-- What a coinbase that keeps these entries of the list should be taken for. -/
def keptKind (kept : List Output) : CoinbaseKind :=
  let count := (minersOf poolScript kept).length
  if count = 0 then .poolOnly
  else if count = l.miners.length ∧ ∀ c ∈ Wire.commits l.outputs, c ∈ kept then .split
  else .partialSplit count

end IssuedList

def addToLast (sats : Nat) : List Output → List Output
  | [] => []
  | [o] => [{ o with sats := o.sats + sats }]
  | o :: next :: rest => o :: addToLast sats (next :: rest)

/-- The whole list rescaled to a coinbase's value, each part rounded down, the last taking what is left. -/
def rescaled (value : Nat) (iss : List Output) : List Output :=
  let parts := iss.map fun o => { o with sats := o.sats * value / (iss.map Output.sats).sum }
  addToLast (value - (parts.map Output.sats).sum) parts

theorem addToLast_scripts (sats : Nat) (os : List Output) :
    (addToLast sats os).map Output.script = os.map Output.script := by
  induction os using addToLast.induct with
  | case1 => rfl
  | case2 o => rfl
  | case3 o next rest ih => rw [addToLast, List.map_cons, ih]; rfl

theorem sum_addToLast (sats : Nat) {os : List Output} (h : os ≠ []) :
    ((addToLast sats os).map Output.sats).sum = (os.map Output.sats).sum + sats := by
  induction os using addToLast.induct with
  | case1 => exact absurd rfl h
  | case2 o => simp [addToLast]
  | case3 o next rest ih =>
    have ih := ih (List.cons_ne_nil _ _)
    rw [addToLast]
    generalize next :: rest = tail at ih ⊢
    simp only [List.map_cons, List.sum_cons, ih]
    omega

/-- Each script is paid what it was, and at most what was added more. -/
theorem sum_script_addToLast (sats : Nat) (os : List Output) (script : Bytes) :
    ((os.filter fun o => o.script = script).map Output.sats).sum ≤
        (((addToLast sats os).filter fun o => o.script = script).map Output.sats).sum ∧
      (((addToLast sats os).filter fun o => o.script = script).map Output.sats).sum ≤
        ((os.filter fun o => o.script = script).map Output.sats).sum + sats := by
  induction os using addToLast.induct with
  | case1 => simp [addToLast]
  | case2 o => by_cases ho : o.script = script <;> simp [addToLast, ho]
  | case3 o next rest ih =>
    rw [addToLast]
    generalize addToLast sats (next :: rest) = grown at ih ⊢
    generalize next :: rest = tail at ih ⊢
    by_cases ho : o.script = script
    · simp only [List.filter_cons, ho, decide_true, if_true, List.map_cons, List.sum_cons]
      omega
    · simpa only [List.filter_cons, ho, decide_false, Bool.false_eq_true, if_false] using ih

theorem rescaled_scripts (value : Nat) (iss : List Output) :
    (rescaled value iss).map Output.script = iss.map Output.script := by
  rw [rescaled, addToLast_scripts, List.map_map]
  rfl

/-- The parts, each rounded down. -/
def floorsOf (value : Nat) (iss : List Output) : Nat :=
  (iss.map fun o => o.sats * value / (iss.map Output.sats).sum).sum

theorem floorsOf_le (value : Nat) (iss : List Output) : floorsOf value iss ≤ value := by
  refine (sum_rescale_le iss Output.sats value _).trans ?_
  exact Nat.div_le_of_le_mul (Nat.le_refl _)

theorem le_floorsOf_add (value : Nat) {iss : List Output} (h : 0 < (iss.map Output.sats).sum) :
    value ≤ floorsOf value iss + iss.length := by
  have hle := div_le_sum_div iss (fun o => o.sats * value) h
  rwa [List.sum_map_mul_right, Nat.mul_div_cancel_left _ h] at hle

theorem sum_rescaled (value : Nat) {iss : List Output} (h : iss ≠ []) :
    ((rescaled value iss).map Output.sats).sum = value := by
  have hle := floorsOf_le value iss
  have hparts : ((iss.map fun o => { o with sats := o.sats * value / (iss.map Output.sats).sum }).map
      Output.sats).sum = floorsOf value iss := by
    rw [List.map_map]
    rfl
  rw [rescaled, sum_addToLast _ (by simpa using h), hparts]
  omega

/-- What is left of a coinbase's value, paid to the pool. -/
def remainder (poolScript : Bytes) (sats : Nat) : List TxOut :=
  if 0 < sats then [⟨sats, poolScript⟩] else []

/-- An output to an OP_RETURN off the list, such as a witness commitment, that carries nothing. -/
def IssuedList.Bare {poolScript : Bytes} (l : IssuedList poolScript) (o : TxOut) : Prop :=
  o.value = 0 ∧ o.isOpReturn = true ∧ ∀ i ∈ l.outputs, i.script ≠ o.script

/-- The outputs a gateway makes of a list and a template's value, and what they should be taken for. -/
inductive IssuedList.Follows {poolScript : Bytes} (l : IssuedList poolScript) (value : Nat) :
    List TxOut → CoinbaseKind → Prop where
  /-- Some entries in full, and what is left to the pool. -/
  | keeps (kept : List Output) (extra : List TxOut) {outputs : List TxOut} (sub : kept.Sublist l.outputs)
      (room : (kept.map Output.sats).sum ≤ value) (bare : ∀ o ∈ extra, l.Bare o)
      (perm : outputs.Perm (kept.map Output.toTxOut ++
        remainder poolScript (value - (kept.map Output.sats).sum) ++ extra)) :
      l.Follows value outputs (l.keptKind kept)
  /-- The whole list, rescaled. -/
  | rescales (extra : List TxOut) {outputs : List TxOut}
      (paid : ∀ o ∈ minersOf poolScript (rescaled value l.outputs), 0 < o.sats)
      (bare : ∀ o ∈ extra, l.Bare o)
      (perm : outputs.Perm ((rescaled value l.outputs).map Output.toTxOut ++ extra)) :
      l.Follows value outputs .split

namespace IssuedList
variable {poolScript : Bytes} {l : IssuedList poolScript}

theorem mem_outputs {o : Output} : o ∈ l.outputs ↔
    (∃ c ∈ l.commitment, o = ⟨0, c⟩) ∨ o ∈ l.miners ∨ ∃ sats ∈ l.pool, o = ⟨sats, poolScript⟩ := by
  simp only [outputs, issuedOutputs, List.mem_append, Option.mem_toList, Option.mem_def,
    Option.map_eq_some_iff, or_assoc, eq_comm (a := o)]

theorem minersOf_outputs : minersOf poolScript l.outputs = l.miners := by
  have hcommit : minersOf poolScript (l.commitment.map fun c => (⟨0, c⟩ : Output)).toList = [] := by
    refine List.filter_eq_nil_iff.mpr fun o ho => ?_
    obtain ⟨c, hc, rfl⟩ := Option.mem_map.mp (Option.mem_toList.mp ho)
    simp [l.unspendable c hc]
  have hpool : minersOf poolScript (l.pool.map fun sats => (⟨sats, poolScript⟩ : Output)).toList = [] := by
    refine List.filter_eq_nil_iff.mpr fun o ho => ?_
    obtain ⟨sats, -, rfl⟩ := Option.mem_map.mp (Option.mem_toList.mp ho)
    simp
  have hminers : minersOf poolScript l.miners = l.miners :=
    List.filter_eq_self.mpr fun i hi => by simp [l.own i hi]
  unfold minersOf at hcommit hpool hminers ⊢
  rw [outputs, issuedOutputs, List.filter_append, List.filter_append, hcommit, hpool, hminers,
    List.nil_append, List.append_nil]

theorem sum_outputs_lt : (l.outputs.map Output.sats).sum < sizeU64 := l.fits

theorem sum_outputs_pos : 0 < (l.outputs.map Output.sats).sum := by
  obtain ⟨i, hi⟩ := List.exists_mem_of_ne_nil _ l.nonempty
  exact Nat.lt_of_lt_of_le (l.positive i hi)
    (le_sum_of_mem (f := Output.sats) (l.mem_outputs.mpr (.inr (.inl hi))))

theorem length_miners_le : l.miners.length ≤ l.outputs.length :=
  l.minersOf_outputs ▸ List.length_filter_le ..

theorem length_miners_lt : l.miners.length < sizeU16 :=
  Nat.lt_of_le_of_lt (l.length_miners_le.trans l.length_le) (by decide)

theorem mem_commits {c : Output} : c ∈ Wire.commits l.outputs ↔ ∃ s ∈ l.commitment, c = ⟨0, s⟩ := by
  rw [Wire.commits, List.mem_filter, mem_outputs]
  constructor
  · rintro ⟨hc | hm | ⟨sats, -, rfl⟩, hop⟩
    · exact hc
    · rw [(l.own c hm).2] at hop
      exact absurd hop Bool.false_ne_true
    · rw [l.spendable] at hop
      exact absurd hop Bool.false_ne_true
  · rintro ⟨s, hs, rfl⟩
    exact ⟨.inl ⟨s, hs, rfl⟩, l.unspendable s hs⟩

/-- An OP_RETURN on the list is the commitment. -/
theorem eq_of_mem_commits {c o : Output} (hc : c ∈ Wire.commits l.outputs) (ho : o ∈ l.outputs)
    (hop : isOpReturnScript o.script = true) : o = c := by
  obtain ⟨s, hs, rfl⟩ := l.mem_commits.mp hc
  obtain ⟨t, ht, rfl⟩ := l.mem_commits.mp (List.mem_filter.mpr ⟨ho, hop⟩)
  rw [Option.mem_unique hs ht]

end IssuedList

/-- A coinbase made of outputs to scripts on the list, and others that only pay the pool. -/
structure Assembled {poolScript : Bytes} (l : IssuedList poolScript) (cb : Coinbase) (value : Nat)
    (paid : List Output) (rest : List TxOut) : Prop where
  outputs : cb.outputs.Perm (paid.map Output.toTxOut ++ rest)
  known : ∀ o ∈ paid, ∃ i ∈ l.outputs, i.script = o.script
  toPool : ∀ o ∈ rest, o.script = poolScript ∨ l.Bare o
  total : (paid.map Output.sats).sum + (rest.map TxOut.value).sum = value
  fits : value < sizeU64

namespace Assembled
variable {poolScript : Bytes} {l : IssuedList poolScript} {cb : Coinbase} {value : Nat}
  {paid : List Output} {rest : List TxOut}

theorem sum_outputs (a : Assembled l cb value paid rest) : (cb.outputs.map TxOut.value).sum = value := by
  rw [(a.outputs.map TxOut.value).sum_eq, List.map_append, List.map_map, List.sum_append]
  exact a.total

theorem value_eq (a : Assembled l cb value paid rest) : cb.totalOutputValue = value := by
  rw [Coinbase.value_eq (a.sum_outputs ▸ a.fits), a.sum_outputs]

theorem not_foreign (a : Assembled l cb value paid rest) :
    ∀ o ∈ cb.outputs, isForeign poolScript (some l.outputs) o = false := by
  intro o ho
  rcases List.mem_append.mp (a.outputs.mem_iff.mp ho) with hp | hr
  · obtain ⟨x, hx, rfl⟩ := List.mem_map.mp hp
    have hs : sanctioned (some l.outputs) x.script = true := by
      obtain ⟨i, hi, heq⟩ := a.known x hx
      exact List.any_eq_true.mpr ⟨i, hi, by simp [heq]⟩
    simp [isForeign, Output.toTxOut, hs]
  · rcases a.toPool o hr with hpool | ⟨-, hop, -⟩
    · simp [isForeign, hpool]
    · simp [isForeign, hop]

/-- A miner's script is paid by its entries alone. -/
theorem paidTo_miner (a : Assembled l cb value paid rest) {script : Bytes} (hp : script ≠ poolScript)
    (ho : isOpReturnScript script = false) :
    cb.paidTo script = ((paid.filter fun o => o.script = script).map Output.sats).sum := by
  have hrest : rest.filter (fun o => o.script = script) = [] := by
    refine List.filter_eq_nil_iff.mpr fun o hr => ?_
    rw [decide_eq_true_eq]
    rintro rfl
    rcases a.toPool o hr with hpool | ⟨-, hop, -⟩
    · exact hp hpool
    · rw [TxOut.isOpReturn, ho] at hop
      exact Bool.false_ne_true hop
  rw [Coinbase.paidTo_exact (a.sum_outputs ▸ a.fits), ((a.outputs.filter _).map TxOut.value).sum_eq,
    List.filter_append, hrest, List.append_nil, List.filter_map, List.map_map]
  rfl

theorem keeps_commits_iff (a : Assembled l cb value paid rest) : dropsCommit cb l.outputs = false ↔
    ∀ c ∈ Wire.commits l.outputs, ∃ o ∈ paid, o.script = c.script := by
  rw [dropsCommit_eq_false]
  refine forall₂_congr fun c hc => ⟨?_, ?_⟩
  · rintro ⟨o, ho, heq⟩
    obtain ⟨hlist, hop⟩ := List.mem_filter.mp hc
    rcases List.mem_append.mp (a.outputs.mem_iff.mp ho) with hpaid | hr
    · obtain ⟨x, hx, rfl⟩ := List.mem_map.mp hpaid
      exact ⟨x, hx, heq⟩
    · rcases a.toPool o hr with hpool | ⟨-, -, hun⟩
      · rw [← heq, hpool, l.spendable] at hop
        exact absurd hop Bool.false_ne_true
      · exact absurd heq.symm (hun c hlist)
  · rintro ⟨x, hx, heq⟩
    exact ⟨x.toTxOut, a.outputs.mem_iff.mpr (List.mem_append_left _ (List.mem_map_of_mem hx)), heq⟩

end Assembled

/-- In a list with one output to each script, a script picks its output. -/
theorem filter_script_eq {os : List Output} (hn : (os.map Output.script).Nodup) {i : Output}
    (hi : i ∈ os) : os.filter (fun o => o.script = i.script) = [i] := by
  have hown : os.filter (fun o => o.script = i.script) = os.filter (· = i) :=
    List.filter_congr fun o ho => by
      rw [decide_eq_decide]
      exact ⟨fun heq => List.inj_on_of_nodup_map hn ho hi heq, fun heq => heq ▸ rfl⟩
  rw [hown, List.filter_eq, hn.of_map.count, if_pos hi, List.replicate_one]

theorem IssuedList.ceilingOf_miner {poolScript : Bytes} {l : IssuedList poolScript} (cb : Coinbase) {i : Output}
    (hi : i ∈ l.miners) : ceilingOf cb l.outputs i.script =
      if (l.outputs.map Output.sats).sum = 0 ∨
        cb.totalOutputValue ≤ (l.outputs.map Output.sats).sum then i.sats
      else i.sats * cb.totalOutputValue / (l.outputs.map Output.sats).sum := by
  have hsum : issuedSum l.outputs i.script = i.sats := by
    rw [issuedSum, ← filter_minersOf (l.own i hi).1 (l.own i hi).2, l.minersOf_outputs,
      filter_script_eq l.distinct hi]
    simp
  rw [ceilingOf, hsum]

namespace Assembled
variable {poolScript : Bytes} {l : IssuedList poolScript} {cb : Coinbase} {value tolerance : Nat}
  {paid : List Output} {rest : List TxOut}

/-- With the commitment there and every paid miner within its bounds, the paid miners are counted. -/
theorem classify_eq (a : Assembled l cb value paid rest) (kept : dropsCommit cb l.outputs = false)
    (hall : ∀ i ∈ l.miners,
      cb.paidTo i.script ≤ ceilingOf cb l.outputs i.script + (tolerance + l.outputs.length) ∧
      (0 < cb.paidTo i.script → scaledDown cb l.outputs i.sats ≤ cb.paidTo i.script + tolerance)) :
    classifyCoinbase cb poolScript (some l.outputs) tolerance = some (
      if l.miners.countP (fun i => 0 < cb.paidTo i.script) = l.miners.length then .split
      else if 0 < l.miners.countP (fun i => 0 < cb.paidTo i.script) then
        .partialSplit (l.miners.countP fun i => 0 < cb.paidTo i.script)
      else poolOrForeign cb poolScript) := by
  have hlen : l.miners.countP (fun i => 0 < cb.paidTo i.script) < sizeU16 :=
    Nat.lt_of_le_of_lt List.countP_le_length l.length_miners_lt
  have hhold := (holdMiners_iff l.sum_outputs_lt).mpr
    ⟨hlen, by rw [l.minersOf_outputs], by rwa [l.minersOf_outputs]⟩
  have h := classify_kept a.not_foreign kept l.sum_outputs_lt hhold
  rw [l.minersOf_outputs] at h
  have hsome : l.miners.isEmpty = false := List.isEmpty_eq_false_iff.mpr l.nonempty
  simpa [hsome] using h

/-- A miner's output is there in full, or not at all. -/
theorem paidTo_kept (a : Assembled l cb value paid rest) (sub : paid.Sublist l.outputs) {i : Output}
    (hi : i ∈ l.miners) : cb.paidTo i.script = if i ∈ paid then i.sats else 0 := by
  obtain ⟨hp, ho⟩ := l.own i hi
  have hminers : (minersOf poolScript paid).Sublist l.miners := l.minersOf_outputs ▸ sub.filter _
  rw [a.paidTo_miner hp ho, ← filter_minersOf hp ho]
  split
  next hmem =>
    rw [filter_script_eq (l.distinct.sublist (hminers.map _)) (mem_minersOf.mpr ⟨hmem, hp, ho⟩)]
    simp
  next hout =>
    have hnil : (minersOf poolScript paid).filter (fun o => o.script = i.script) = [] := by
      refine List.filter_eq_nil_iff.mpr fun o hmem => ?_
      rw [decide_eq_true_eq]
      intro heq
      obtain rfl := List.inj_on_of_nodup_map l.distinct (hminers.subset hmem) hi heq
      exact hout (mem_minersOf.mp hmem).1
    rw [hnil]
    rfl

theorem count_kept (a : Assembled l cb value paid rest) (sub : paid.Sublist l.outputs) :
    l.miners.countP (fun i => 0 < cb.paidTo i.script) = (minersOf poolScript paid).length := by
  have hminers : (minersOf poolScript paid).Sublist l.miners := l.minersOf_outputs ▸ sub.filter _
  have hnodup := l.distinct.of_map
  rw [List.countP_eq_length_filter]
  refine ((List.perm_ext_iff_of_nodup (hnodup.filter _) (hnodup.sublist hminers)).mpr fun i => ?_).length_eq
  rw [List.mem_filter, decide_eq_true_eq]
  constructor
  · rintro ⟨hi, hpos⟩
    rw [a.paidTo_kept sub hi] at hpos
    split at hpos
    next hmem => exact mem_minersOf.mpr ⟨hmem, l.own i hi⟩
    next => exact absurd hpos (Nat.lt_irrefl 0)
  · intro hmem
    have hi := hminers.subset hmem
    rw [a.paidTo_kept sub hi, if_pos (mem_minersOf.mp hmem).1]
    exact ⟨hi, l.positive i hi⟩

/-- An amount paid in full is within both bounds, whichever way they move. -/
theorem kept_bounds (a : Assembled l cb value paid rest) (sub : paid.Sublist l.outputs) {i : Output}
    (hi : i ∈ l.miners) :
    cb.paidTo i.script ≤ ceilingOf cb l.outputs i.script + (tolerance + l.outputs.length) ∧
      (0 < cb.paidTo i.script → scaledDown cb l.outputs i.sats ≤ cb.paidTo i.script + tolerance) := by
  have hdown := scaledDown_le cb l.outputs i.sats
  have hup : i.sats ≤ ceilingOf cb l.outputs i.script := by
    rw [l.ceilingOf_miner cb hi]
    split
    next => exact Nat.le_refl _
    next h =>
      rw [Nat.le_div_iff_mul_le (by omega)]
      exact Nat.mul_le_mul_left _ (by omega)
  rw [a.paidTo_kept sub hi]
  split <;> omega

theorem keeps_commits (a : Assembled l cb value paid rest) (sub : paid.Sublist l.outputs) :
    dropsCommit cb l.outputs = false ↔ ∀ c ∈ Wire.commits l.outputs, c ∈ paid := by
  rw [a.keeps_commits_iff]
  refine forall₂_congr fun c hc => ⟨?_, fun hmem => ⟨c, hmem, rfl⟩⟩
  rintro ⟨o, ho, heq⟩
  have hop : isOpReturnScript o.script = true := heq ▸ (List.mem_filter.mp hc).2
  exact l.eq_of_mem_commits hc (sub.subset ho) hop ▸ ho

/-- If no miner is paid, the pool is. -/
theorem pool_only (a : Assembled l cb value paid rest) (sub : paid.Sublist l.outputs) (hpos : 0 < value)
    (hnone : minersOf poolScript paid = []) : poolOrForeign cb poolScript = .poolOnly := by
  have hkind : ∀ o ∈ paid, o.script = poolScript ∨ isOpReturnScript o.script = true := by
    intro o ho
    have hout := List.filter_eq_nil_iff.mp hnone o ho
    simpa [or_iff_not_imp_left] using hout
  have hall : cb.outputs.all (fun o => o.isOpReturn || o.script == poolScript) = true := by
    refine List.all_eq_true.mpr fun o ho => ?_
    rw [Bool.or_eq_true, beq_iff_eq, or_comm]
    rcases List.mem_append.mp (a.outputs.mem_iff.mp ho) with hp | hr
    · obtain ⟨x, hx, rfl⟩ := List.mem_map.mp hp
      exact hkind x hx
    · exact (a.toPool o hr).imp_right fun h => h.2.1
  have hpool : poolPaid cb poolScript = true := by
    by_contra hno
    have hno : ∀ o ∈ cb.outputs, o.script ≠ poolScript := by
      rintro o ho rfl
      exact hno (List.any_eq_true.mpr ⟨o, ho, by simp [TxOut.isOpReturn, l.spendable]⟩)
    have hpaid : (paid.map Output.sats).sum = 0 := by
      refine List.sum_eq_zero fun x hx => ?_
      obtain ⟨o, ho, rfl⟩ := List.mem_map.mp hx
      have hne := hno o.toTxOut (a.outputs.mem_iff.mpr (List.mem_append_left _ (List.mem_map_of_mem ho)))
      have hc : o ∈ Wire.commits l.outputs :=
        List.mem_filter.mpr ⟨sub.subset ho, (hkind o ho).resolve_left hne⟩
      obtain ⟨s, -, rfl⟩ := l.mem_commits.mp hc
      rfl
    have hrest : (rest.map TxOut.value).sum = 0 := by
      refine List.sum_eq_zero fun x hx => ?_
      obtain ⟨o, ho, rfl⟩ := List.mem_map.mp hx
      have hne := hno o (a.outputs.mem_iff.mpr (List.mem_append_right _ ho))
      exact ((a.toPool o ho).resolve_left hne).1
    have := a.total
    omega
  rw [poolOrForeign, hpool, hall]
  rfl

/-- Some entries kept in full, the commitment among them: the kind is the one it should be. -/
theorem classify_keeps (tolerance : Nat) (a : Assembled l cb value paid rest) (sub : paid.Sublist l.outputs)
    (hpos : 0 < value) (kept : dropsCommit cb l.outputs = false) :
    classifyCoinbase cb poolScript (some l.outputs) tolerance = some (l.keptKind paid) := by
  rw [a.classify_eq kept fun i hi => a.kept_bounds sub hi, a.count_kept sub, IssuedList.keptKind]
  by_cases hnone : (minersOf poolScript paid).length = 0
  · have hlen : 0 ≠ l.miners.length := (List.length_pos_of_ne_nil l.nonempty).ne
    rw [if_pos hnone, hnone, if_neg hlen, if_neg (Nat.lt_irrefl 0),
      a.pool_only sub hpos (List.eq_nil_of_length_eq_zero hnone)]
  · rw [if_neg hnone, if_pos (Nat.pos_of_ne_zero hnone)]
    have hcommits := (a.keeps_commits sub).mp kept
    simp only [and_iff_left hcommits]

/-- Without the commitment, the pool's own entry is counted like a miner's. -/
theorem classify_drops (tolerance : Nat) (a : Assembled l cb value paid rest) (sub : paid.Sublist l.outputs)
    (dropped : dropsCommit cb l.outputs = true) :
    ∃ extra, (extra = 0 ↔ l.pool = none ∨ cb.paidTo poolScript = 0) ∧
      classifyCoinbase cb poolScript (some l.outputs) tolerance = some (
        if 0 < (minersOf poolScript paid).length + extra then
          .partialSplit ((minersOf poolScript paid).length + extra)
        else .poolOnly) := by
  have hforeign : cb.outputs.any (isForeign poolScript (some l.outputs)) = false := by
    simpa [List.any_eq_false] using a.not_foreign
  let counted (i : Output) : Bool :=
    !(Wire.commits l.outputs).contains i && decide (0 < cb.paidTo i.script)
  let own : List Output := (l.pool.map fun sats => ⟨sats, poolScript⟩).toList
  have hmember : ∀ i, isOpReturnScript i.script = false →
      counted i = decide (0 < cb.paidTo i.script) := by
    intro i ho
    have hout : (Wire.commits l.outputs).contains i = false := by
      rw [← Bool.not_eq_true, List.contains_iff_mem]
      intro hmem
      rw [(List.mem_filter.mp hmem).2] at ho
      exact Bool.false_ne_true ho.symm
    simp only [counted, hout, Bool.not_false, Bool.true_and]
  have hcommit : (l.commitment.map fun c => (⟨0, c⟩ : Output)).toList.filter counted = [] := by
    refine List.filter_eq_nil_iff.mpr fun o ho => ?_
    obtain ⟨c, hc, rfl⟩ := Option.mem_map.mp (Option.mem_toList.mp ho)
    have hmem : (Wire.commits l.outputs).contains ⟨0, c⟩ = true :=
      List.contains_iff_mem.mpr (l.mem_commits.mpr ⟨c, hc, rfl⟩)
    simp only [counted, hmem, Bool.not_true, Bool.false_and, Bool.false_eq_true, not_false_eq_true]
  have hminers : (l.miners.filter counted).length = (minersOf poolScript paid).length := by
    rw [← a.count_kept sub, List.countP_eq_length_filter,
      List.filter_congr fun i hi => hmember i (l.own i hi).2]
  have hpresent : (l.outputs.filter counted).length =
      (minersOf poolScript paid).length + (own.filter counted).length := by
    rw [IssuedList.outputs, issuedOutputs, List.filter_append, List.filter_append, hcommit,
      List.nil_append, List.length_append, hminers]
  refine ⟨(own.filter counted).length, ?_, ?_⟩
  · cases hpool : l.pool with
    | none => simp [own, hpool]
    | some sats => simp [own, hpool, hmember ⟨sats, poolScript⟩ l.spendable]
  · have hlt : (l.outputs.filter counted).length < sizeU16 :=
      Nat.lt_of_le_of_lt ((List.length_filter_le ..).trans l.length_le) (by decide)
    simp only [classifyCoinbase, hforeign, dropped, Bool.false_eq_true, if_false, if_true]
    rw [cast_of_lt hlt, hpresent]

theorem classify_keeps_iff (tolerance : Nat) (a : Assembled l cb value paid rest) (sub : paid.Sublist l.outputs)
    (hpos : 0 < value) :
    classifyCoinbase cb poolScript (some l.outputs) tolerance = some (l.keptKind paid) ↔
      dropsCommit cb l.outputs = false ∨ l.pool = none ∨ cb.paidTo poolScript = 0 := by
  cases hd : dropsCommit cb l.outputs with
  | false => exact iff_of_true (a.classify_keeps tolerance sub hpos hd) (.inl rfl)
  | true =>
    obtain ⟨extra, hextra, hkind⟩ := a.classify_drops tolerance sub hd
    have hmissing : ¬ ∀ c ∈ Wire.commits l.outputs, c ∈ paid := by
      rw [← a.keeps_commits sub, hd]
      exact Bool.noConfusion
    rw [hkind, IssuedList.keptKind, ← hextra, Option.some.injEq, or_iff_right Bool.noConfusion]
    simp only [hmissing, and_false, if_false]
    by_cases hnone : (minersOf poolScript paid).length = 0
    · rw [if_pos hnone, hnone, Nat.zero_add]
      split <;> simp <;> omega
    · rw [if_neg hnone, if_pos (by omega), CoinbaseKind.partialSplit.injEq]
      omega

/-- A rescaled miner is paid its part, and no more above it than the rounding left over. -/
theorem paidTo_rescaled (a : Assembled l cb value (rescaled value l.outputs) rest) {i : Output}
    (hi : i ∈ l.miners) :
    i.sats * value / (l.outputs.map Output.sats).sum ≤ cb.paidTo i.script ∧
      cb.paidTo i.script ≤ i.sats * value / (l.outputs.map Output.sats).sum + l.outputs.length := by
  obtain ⟨hp, ho⟩ := l.own i hi
  let part (o : Output) : Output := { o with sats := o.sats * value / (l.outputs.map Output.sats).sum }
  have hpart : (((l.outputs.map part).filter fun o => o.script = i.script).map Output.sats).sum =
      i.sats * value / (l.outputs.map Output.sats).sum := by
    have hone : l.outputs.filter (fun o => o.script = i.script) = [i] := by
      rw [← filter_minersOf hp ho, l.minersOf_outputs, filter_script_eq l.distinct hi]
    rw [List.filter_map, show ((fun o => decide (o.script = i.script)) ∘ part) =
      fun o => decide (o.script = i.script) from rfl, hone]
    simp [part]
  have hbounds := sum_script_addToLast
    (value - ((l.outputs.map part).map Output.sats).sum) (l.outputs.map part) i.script
  have hleft : value - ((l.outputs.map part).map Output.sats).sum ≤ l.outputs.length := by
    have hle := le_floorsOf_add value l.sum_outputs_pos
    rw [List.map_map]
    exact Nat.sub_le_iff_le_add'.mpr hle
  rw [a.paidTo_miner hp ho, rescaled]
  rw [hpart] at hbounds
  exact ⟨hbounds.1, hbounds.2.trans (Nat.add_le_add_left hleft _)⟩

theorem rescaled_bounds (a : Assembled l cb value (rescaled value l.outputs) rest) {i : Output}
    (hi : i ∈ l.miners) :
    cb.paidTo i.script ≤ ceilingOf cb l.outputs i.script + (tolerance + l.outputs.length) ∧
      (0 < cb.paidTo i.script → scaledDown cb l.outputs i.sats ≤ cb.paidTo i.script + tolerance) := by
  obtain ⟨hlow, hhigh⟩ := a.paidTo_rescaled hi
  have hpos := l.sum_outputs_pos
  have hceiling : i.sats * value / (l.outputs.map Output.sats).sum ≤ ceilingOf cb l.outputs i.script := by
    rw [l.ceilingOf_miner cb hi, a.value_eq]
    split
    next hsmall =>
      refine Nat.div_le_of_le_mul ?_
      rw [Nat.mul_comm]
      exact Nat.mul_le_mul_right _ (hsmall.resolve_left hpos.ne')
    next => exact Nat.le_refl _
  have hdown : scaledDown cb l.outputs i.sats ≤ i.sats * value / (l.outputs.map Output.sats).sum := by
    unfold scaledDown
    dsimp only
    rw [a.value_eq]
    split
    next hlarge =>
      rw [Nat.le_div_iff_mul_le hpos]
      exact Nat.mul_le_mul_left _ (hlarge.resolve_left hpos.ne')
    next => exact Nat.le_refl _
  omega

/-- The whole list rescaled is a split, whichever way it is scaled. -/
theorem classify_rescaled (tolerance : Nat) (a : Assembled l cb value (rescaled value l.outputs) rest)
    (hpaid : ∀ o ∈ minersOf poolScript (rescaled value l.outputs), 0 < o.sats) :
    classifyCoinbase cb poolScript (some l.outputs) tolerance = some .split := by
  have hscript : ∀ i ∈ l.outputs, ∃ o ∈ rescaled value l.outputs, o.script = i.script := by
    intro i hi
    have hmem := List.mem_map_of_mem (f := Output.script) hi
    rwa [← rescaled_scripts value, List.mem_map] at hmem
  have hall : ∀ i ∈ l.miners, 0 < cb.paidTo i.script := by
    intro i hi
    obtain ⟨hp, ho⟩ := l.own i hi
    obtain ⟨o, hmem, heq⟩ := hscript i (l.mem_outputs.mpr (.inr (.inl hi)))
    rw [a.paidTo_miner hp ho]
    refine Nat.lt_of_lt_of_le (hpaid o (mem_minersOf.mpr ⟨hmem, heq ▸ hp, heq ▸ ho⟩)) ?_
    exact le_sum_of_mem (f := Output.sats) (List.mem_filter.mpr ⟨hmem, by simp [heq]⟩)
  have kept : dropsCommit cb l.outputs = false :=
    a.keeps_commits_iff.mpr fun c hc => hscript c (List.mem_filter.mp hc).1
  rw [a.classify_eq kept fun i hi => a.rescaled_bounds hi,
    if_pos (List.countP_eq_length.mpr (by simpa using hall))]

end Assembled

namespace IssuedList
variable {poolScript : Bytes} {l : IssuedList poolScript} {cb : Coinbase} {value tolerance : Nat}
  {kind : CoinbaseKind}

theorem keptKind_ne_foreign (l : IssuedList poolScript) (kept : List Output) :
    l.keptKind kept ≠ .foreign := by
  unfold keptKind
  dsimp only
  split
  next => exact CoinbaseKind.noConfusion
  next => split <;> exact CoinbaseKind.noConfusion

theorem sum_bare {extra : List TxOut} (bare : ∀ o ∈ extra, l.Bare o) : (extra.map TxOut.value).sum = 0 := by
  refine List.sum_eq_zero fun x hx => ?_
  obtain ⟨o, ho, rfl⟩ := List.mem_map.mp hx
  exact (bare o ho).1

theorem keeps_assembled {kept : List Output} {extra : List TxOut} (sub : kept.Sublist l.outputs)
    (room : (kept.map Output.sats).sum ≤ value) (hv : value < sizeU64) (bare : ∀ o ∈ extra, l.Bare o)
    (perm : cb.outputs.Perm (kept.map Output.toTxOut ++
      remainder poolScript (value - (kept.map Output.sats).sum) ++ extra)) :
    Assembled l cb value kept (remainder poolScript (value - (kept.map Output.sats).sum) ++ extra) := by
  refine ⟨List.append_assoc .. ▸ perm, fun o ho => ⟨o, sub.subset ho, rfl⟩, ?_, ?_, hv⟩
  · intro o ho
    rcases List.mem_append.mp ho with hleft | ho
    · unfold remainder at hleft
      split at hleft
      next => exact .inl (List.mem_singleton.mp hleft ▸ rfl)
      next => exact absurd hleft List.not_mem_nil
    · exact .inr (bare o ho)
  · rw [List.map_append, List.sum_append, sum_bare bare, remainder]
    split
    next => simp only [List.map_cons, List.map_nil, List.sum_cons, List.sum_nil]; omega
    next => simp only [List.map_nil, List.sum_nil]; omega

theorem rescales_assembled {extra : List TxOut} (hv : value < sizeU64) (bare : ∀ o ∈ extra, l.Bare o)
    (perm : cb.outputs.Perm ((rescaled value l.outputs).map Output.toTxOut ++ extra)) :
    Assembled l cb value (rescaled value l.outputs) extra := by
  refine ⟨perm, fun o ho => ?_, fun o ho => .inr (bare o ho), ?_, hv⟩
  · have hmem := List.mem_map_of_mem (f := Output.script) ho
    rwa [rescaled_scripts, List.mem_map] at hmem
  · have hsome : l.outputs ≠ [] := by
      rintro hnil
      have hpos := l.sum_outputs_pos
      simp [hnil] at hpos
    rw [sum_bare bare, sum_rescaled value hsome, Nat.add_zero]

/-- A coinbase that follows the list is never refused, and is taken for what it is exactly when it keeps
the commitment, or the list does not name the pool, or the pool is paid nothing. -/
theorem follows_classified_iff (hpos : 0 < value) (hv : value < sizeU64)
    (h : l.Follows value cb.outputs kind) :
    (classifyCoinbase cb poolScript (some l.outputs) tolerance = some kind ↔
      dropsCommit cb l.outputs = false ∨ l.pool = none ∨ cb.paidTo poolScript = 0) ∧
    ∃ k, classifyCoinbase cb poolScript (some l.outputs) tolerance = some k ∧ k ≠ .foreign := by
  cases h with
  | keeps _ _ sub room bare perm =>
    have a := keeps_assembled sub room hv bare perm
    refine ⟨a.classify_keeps_iff tolerance sub hpos, ?_⟩
    cases hd : dropsCommit cb l.outputs with
    | false => exact ⟨_, a.classify_keeps tolerance sub hpos hd, l.keptKind_ne_foreign _⟩
    | true =>
      obtain ⟨extra, -, hkind⟩ := a.classify_drops tolerance sub hd
      exact ⟨_, hkind, by split <;> exact CoinbaseKind.noConfusion⟩
  | rescales _ paid bare perm =>
    have a := rescales_assembled hv bare perm
    have hsplit := a.classify_rescaled tolerance paid
    have kept : dropsCommit cb l.outputs = false := (split_held hsplit).2.1
    exact ⟨iff_of_true hsplit (.inl kept), _, hsplit, CoinbaseKind.noConfusion⟩

end IssuedList

/-- A commitment, one miner and the pool. -/
def sampleList : IssuedList [0, 20, 9] where
  commitment := some [0x6a, 1]
  miners := [⟨100, [0, 20, 1]⟩]
  pool := some 900
  spendable := rfl
  unspendable := by decide
  nonempty := by decide
  distinct := by decide
  own := by decide
  positive := by decide
  length_le := by decide
  fits := by decide

/-- The miner in full, the commitment, and the rest of the value to the pool. -/
theorem follows_classified_kept : classifyCoinbase
    (coinbaseOf [⟨0, [0x6a, 1]⟩, ⟨100, [0, 20, 1]⟩, ⟨700, [0, 20, 9]⟩, ⟨0, [0x6a, 2]⟩]) [0, 20, 9]
      (some sampleList.outputs) 1 = some .split := by
  have h : sampleList.Follows 800 (coinbaseOf [⟨0, [0x6a, 1]⟩, ⟨100, [0, 20, 1]⟩, ⟨700, [0, 20, 9]⟩,
      ⟨0, [0x6a, 2]⟩]).outputs .split :=
    .keeps [⟨0, [0x6a, 1]⟩, ⟨100, [0, 20, 1]⟩] [⟨0, [0x6a, 2]⟩] (by decide) (by decide)
      (by simp [IssuedList.Bare]; decide) (by decide)
  exact (IssuedList.follows_classified_iff (by decide) (by decide) h).1.mpr (.inl (by decide))

/-- A gateway that drops the whole list and pays the pool is taken to have paid one miner. -/
theorem pool_only_taken_for_partial : ¬ ∀ (poolScript : Bytes) (l : IssuedList poolScript)
    (cb : Coinbase) (value tolerance : Nat) (kind : CoinbaseKind), 0 < value → value < sizeU64 →
      l.Follows value cb.outputs kind →
      classifyCoinbase cb poolScript (some l.outputs) tolerance = some kind := by
  intro h
  have hkind := h _ sampleList (coinbaseOf [⟨1000, [0, 20, 9]⟩, ⟨0, [0x6a, 2]⟩]) 1000 1 .poolOnly
    (by decide) (by decide) (.keeps [] [⟨0, [0x6a, 2]⟩] (List.nil_sublist _) (by decide)
      (by simp [IssuedList.Bare]; decide) (by decide))
  exact absurd hkind (by decide)

end WaviclesPrime.Wire
