import WaviclesPrime.Primed.Honest

/-! What settling a block adds to the ledger, against what its coinbase left the pool. -/
namespace WaviclesPrime.Primed
open Wire Machine Tides Apportion

/-- Settling owes no more than the pool received and the carry it settles. -/
def Solvent (r : BlockRecord) : Prop := given r.unpaid ≤ r.poolSats + given r.carryPaid

instance (r : BlockRecord) : Decidable (Solvent r) := inferInstanceAs (Decidable (_ ≤ _))

/-- The list's unpaid amounts and what its payees come to are within the template and the carry. -/
def Covered (rescaled : Bool) (kind : CoinbaseKind) (value : Nat) (c : IssuedCoinbaser) : Prop :=
  given c.unpaid + (c.payees.map fun q => booked rescaled kind value c.value q.sats).sum ≤
    value + given c.carryPaid

/-- Every payee has a script of its own. -/
structure OwnScripts (c : IssuedCoinbaser) (poolScript : Bytes) : Prop where
  distinct : (c.payees.map Payee.script).Nodup
  notPool : ∀ q ∈ c.payees, q.script ≠ poolScript

section
variable {D : Decoders} {H : Digests} {canonical : Snapshot.Doc → Bytes} {sh sh' : Shared}
  {w w' : WindowView} {carry : Carry} {c : IssuedCoinbaser} {v : VerifiedShare}

theorem Issued.sats_le (hs : Started D sh) (i : Issued D H canonical sh w carry c)
    (hv : c.value < sizeU64) : (c.payees.map Payee.sats).sum + i.split.poolSats = c.value := by
  have h := i.paid_add_pool hs hv
  rwa [Split.paidSats, ← i.payees_eq] at h

/-- The unpaid amounts a coinbaser holds are among those of its split. -/
theorem given_carriable_le (s : Split) : given (carriable s) ≤ (s.unpaid.map fun e => e.2.1).sum := by
  have h : given (carriable s) = ((s.unpaid.filter fun e => e.2.2 ≠ .noScript).map fun e => e.2.1).sum := by
    simp [given, carriable, Function.comp_def, dueAmount]
  rw [h]
  exact (List.filter_sublist.map _).sum_le_sum (by simp)

/-- Rounded up to a larger template, nobody comes to more than its rescaled sats. -/
theorem booked_le {rescaled : Bool} {kind : CoinbaseKind} {value issuedValue sats : Nat}
    (hs : sats ≤ issuedValue) (hle : issuedValue ≤ value) (hv : value < sizeU64) :
    booked rescaled kind value issuedValue sats ≤ sats * value / issuedValue := by
  have hscale := scale_eq hs hv
  have hgrow : sats ≤ sats * value / issuedValue := by
    rcases Nat.eq_zero_or_pos issuedValue with hz | hpos
    · omega
    · exact (Nat.le_div_iff_mul_le hpos).mpr (Nat.mul_le_mul_left _ hle)
  have hplaced : placed rescaled value issuedValue sats ≤ sats * value / issuedValue := by
    unfold placed
    split
    · exact hscale.le
    · exact hgrow
  unfold booked
  split
  · exact hscale.le
  · split
    · exact hgrow
    · exact hplaced
  · exact hplaced
  · exact hplaced

/-- Without a cap, a template worth at least what was issued covers everything. -/
theorem Issued.covered (hs : Started D sh) (i : Issued D H canonical sh w carry c)
    (hv : c.value < sizeU64) (hcap : sh.splitParams.maxPayees = 0) {value : Nat}
    (hle : c.value ≤ value) (hfit : value < sizeU64) (rescaled : Bool) (kind : CoinbaseKind) :
    Covered rescaled kind value c := by
  obtain ⟨f⟩ := i.phases hs hv
  have hpool := f.uncapped (w.input hs.bounded hv) hcap
  have hunpaid := given_carriable_le i.split
  have hsats := i.sats_le hs hv
  have hsum : (c.payees.map fun q => booked rescaled kind value c.value q.sats).sum ≤
      value - i.split.poolSats := by
    calc (c.payees.map fun q => booked rescaled kind value c.value q.sats).sum
        ≤ (c.payees.map fun q => q.sats * value / c.value).sum :=
          List.sum_le_sum fun q hq => booked_le
            ((le_sum_of_mem (f := Payee.sats) hq).trans (by omega)) hle hfit
      _ ≤ (c.payees.map Payee.sats).sum * value / c.value := sum_rescale_le ..
      _ = (c.value - i.split.poolSats) * value / c.value := by congr 2; omega
      _ ≤ value - i.split.poolSats := Nat.div_le_of_le_mul (by
          rw [Nat.sub_mul, Nat.mul_sub]
          have := Nat.mul_le_mul_left i.split.poolSats hle
          rw [Nat.mul_comm c.value i.split.poolSats]
          omega)
  unfold Covered
  rw [i.unpaid_eq, i.carryPaid_eq]
  omega

/-- A candidate on an issued coinbaser is recorded: no sum leaves its word. -/
theorem Issued.recorded (hs : Started D sh) (i : Issued D H canonical sh w carry c)
    (sh' : Shared) (w' : WindowView) (hv : c.value < sizeU64) {ss : Session} {s : PowSubmit} (hc : ss.jobCoinbaser s.jobId = some c)
    (hval : v.coinbaseValue < sizeU64) (finder : Identity) (ts : Nat) (gateway : String) :
    ∃ r, onBlockCandidate D sh' w' ss s v finder ts gateway = some r := by
  have hsats := i.sats_le hs hv
  have hdrop : given (droppedBy v.coinbase c.payees) < sizeU64 := by
    have h : given (droppedBy v.coinbase c.payees) ≤ (c.payees.map Payee.sats).sum := by
      have hmap : (droppedBy v.coinbase c.payees).map Prod.snd =
          (c.payees.filter fun q => v.coinbase.paidTo q.script = 0).map Payee.sats := by
        simp [droppedBy, Function.comp_def, Payee.amount]
      rw [given, hmap]
      exact (List.filter_sublist.map _).sum_le_sum (by simp)
    omega
  have hscaled : given (scaledSplit c v.coinbaseValue) < sizeU64 := by
    have h : given (scaledSplit c v.coinbaseValue) ≤ v.coinbaseValue := by
      have hmap : (scaledSplit c v.coinbaseValue).map Prod.snd =
          c.payees.map fun q => q.sats * v.coinbaseValue / c.value := by
        simp only [scaledSplit, List.map_map]
        exact List.map_congr_left fun q hq => scale_eq
          ((le_sum_of_mem (f := Payee.sats) hq).trans (by omega)) hval
      rw [given, hmap]
      refine (sum_rescale_le ..).trans (Nat.div_le_of_le_mul ?_)
      exact Nat.mul_le_mul_right _ (by omega)
    omega
  obtain ⟨books, hb⟩ : ∃ books, booksOf D sh' w' v (some c) = some books := by
    unfold booksOf
    cases v.coinbaseKind with
    | split => exact ⟨_, rfl⟩
    | partialSplit n =>
      dsimp only
      rw [sumSats_eq_some.mpr ⟨hdrop, rfl⟩]
      exact ⟨_, rfl⟩
    | poolOnly =>
      dsimp only
      rw [sumSats_eq_some.mpr ⟨hscaled, rfl⟩]
      exact ⟨_, rfl⟩
    | foreign => exact ⟨_, rfl⟩
  simp only [onBlockCandidate, hc, hb, Option.bind_eq_bind, Option.bind_some]
  exact ⟨_, rfl⟩

/-- What is recorded as unpaid for a candidate on an issued coinbaser. -/
theorem unpaid_recorded {ss : Session} {s : PowSubmit} {finder : Identity} {ts : Nat}
    {gateway : String} {r : BlockRecord} (hc : ss.jobCoinbaser s.jobId = some c)
    (hj : v.Judged sh.poolScript (some c.outputs) sh.cfg.splitTolerance)
    (run : onBlockCandidate D sh' w' ss s v finder ts gateway = some r) :
    r.poolSats = v.coinbase.paidTo sh.poolScript ∧ r.carryPaid = c.carryPaid ∧ given r.unpaid =
      given c.unpaid + (c.payees.map (addedFor v.coinbase c v.coinbaseKind)).sum := by
  obtain ⟨-, -, hpool, hcarry, books, hb, hunpaid⟩ := onBlockCandidate_record run
  rw [hc] at hcarry hb hunpaid
  refine ⟨hpool.trans hj.pool, hcarry, ?_⟩
  rw [hunpaid, ← given_added hb hj.value hj.known]
  simp [given]

/-- Settling a block never owes more than its coinbase left the pool and the carry it settles
exactly when its list is covered, and so always without a cap in a template worth what was issued. -/
theorem settlement_solvent_iff (hd : D.Documented) (hs : Started D sh)
    (i : Issued D H canonical sh w carry c) (hv : c.value < sizeU64) {ss : Session} {s : PowSubmit}
    (hc : ss.jobCoinbaser s.jobId = some c)
    (hj : v.Judged sh.poolScript (some c.outputs) sh.cfg.splitTolerance)
    (hon : Honest v.coinbase c sh.poolScript) (finder : Identity) (ts : Nat) (gateway : String) :
    (∃ r, onBlockCandidate D sh' w' ss s v finder ts gateway = some r ∧
      (Covered hon.rescaled v.coinbaseKind v.coinbaseValue c → Solvent r) ∧
      (OwnScripts c sh.poolScript →
        (Solvent r ↔ Covered hon.rescaled v.coinbaseKind v.coinbaseValue c))) ∧
    (sh.splitParams.maxPayees = 0 → c.value ≤ v.coinbaseValue →
      Covered hon.rescaled v.coinbaseKind v.coinbaseValue c) := by
  have hval : v.coinbaseValue < sizeU64 := hj.value ▸ totalOutputValue_lt _
  refine ⟨?_, fun hcap hle => i.covered hs hv hcap hle hval _ _⟩
  obtain ⟨r, run⟩ := i.recorded hs sh' w' hv hc hval finder ts gateway
  obtain ⟨hpool, hcarry, hunpaid⟩ := unpaid_recorded hc hj run
  obtain ⟨b, hb⟩ := hon.built i
  have hout : ∀ q ∈ c.payees, isOpReturnScript q.script = false := fun q hq =>
    i.not_opReturn hd hs hv hq
  have hacc := b.pool_add_miners
  have hcover : Covered hon.rescaled v.coinbaseKind v.coinbaseValue c → Solvent r := by
    intro h
    have hsum := sum_add_sum_le (f := addedFor v.coinbase c v.coinbaseKind) b.sub
      (fun q hq => b.added_le hq) fun q hq => b.added_add_share_le hj.kind hq (i.output_mem (b.sub.subset hq))
        (hout q (b.sub.subset hq))
    unfold Covered at h
    unfold Solvent
    rw [hb, ← hj.value] at hsum
    rw [← hj.value] at hacc
    rw [hpool, hcarry, hunpaid]
    omega
  refine ⟨r, run, hcover, fun hown => ⟨fun h => ?_, hcover⟩⟩
  have hn := i.payees_nodup hs hv
  have halone : ∀ q ∈ c.payees, ∀ x ∈ c.payees, x.script = q.script → x = q := fun q hq x hx heq =>
    List.inj_on_of_nodup_map hown.distinct hx hq heq
  have hpaid : (c.payees.map fun q => v.coinbase.paidTo q.script).sum =
      (b.kept.map fun q => if q.script = sh.poolScript then 0 else b.share q).sum := by
    have hto : ∀ q ∈ c.payees, v.coinbase.paidTo q.script = if q ∈ b.kept then b.share q else 0 :=
      fun q hq => b.paidTo_own hn (halone q hq) (hown.notPool q hq) (hout q hq)
    refine sum_sublist_eq b.sub hn (fun q hq => ?_) fun q hq hnot => ?_
    · rw [hto q (b.sub.subset hq), if_pos hq, if_neg (hown.notPool q (b.sub.subset hq))]
    · rw [hto q hq, if_neg hnot]
  have hbook : (c.payees.map fun q => booked hon.rescaled v.coinbaseKind v.coinbaseValue c.value q.sats).sum =
      (c.payees.map fun q => v.coinbase.paidTo q.script).sum +
        (c.payees.map (addedFor v.coinbase c v.coinbaseKind)).sum := by
    rw [← List.sum_map_add]
    refine congrArg List.sum (List.map_congr_left fun q hq => ?_)
    rw [← hb, hj.value]
    exact (b.booked_eq hj.kind hj.known hn hq (i.output_mem hq) (halone q hq) (hown.notPool q hq)
      (hout q hq)).symm
  unfold Solvent at h
  unfold Covered
  rw [← hj.value] at hacc
  rw [hpool, hcarry, hunpaid] at h
  omega

end

/-- Two base58 addresses besides the sample one. -/
def pairDecoders : Decoders where
  segwit := sampleDecoders.segwit
  base58 a :=
    if a = "1Ann" then some (0 :: List.replicate 20 1)
    else if a = "1Bob" then some (0 :: List.replicate 20 2)
    else none

theorem pairDecoders_documented : pairDecoders.Documented :=
  ⟨sampleDecoders_documented.version, sampleDecoders_documented.program⟩

/-- No fees, one payee, no commitment. -/
def cappedConfig : Config :=
  { sampleConfig with feeBps := 0, stratumFeeBps := 0, maxPayees := 1, commitSnapshot := false }

def pairWindow : WindowView where
  targetWork := 8
  totalWork := 8
  miners := [⟨"1Ann", 6, 0, 1, 0⟩, ⟨"1Bob", 2, 0, 1, 0⟩]
  ranked := by decide
  distinct := by decide
  total := by decide
  fits := by decide

def annScript : Bytes := [0x76, 0xa9, 0x14] ++ List.replicate 20 1 ++ [0x88, 0xac]

/-- The capped split of the pair: one takes it all, the other is below the cut. -/
def cutSplit : Split where
  value := 2000000
  feeSats := 0
  totalWork := 8
  payees := [⟨"1Ann", 6, 2000000, annScript⟩]
  unpaid := [("1Bob", 500000, .belowCut)]
  carryPaid := []
  poolSats := 0

def sampleSession (c : IssuedCoinbaser) : Session where
  slots _ := { JobSlot.default with job := some { sampleJob with coinbaserId := c.id } }
  coinbaseBytes := 0
  liveSlots := []
  coinbasers := [c]
  nextCoinbaserId := nextId c.id

/-- An accepted share on a coinbase. -/
def sampleCandidate (cb : Coinbase) (poolScript : Bytes) (kind : CoinbaseKind) : VerifiedShare where
  hash := List.replicate 32 0
  work := 1
  targetPot := 0
  height := 7
  ntime := 0
  isBlockCandidate := true
  coinbaseKind := kind
  coinbaseValue := cb.totalOutputValue
  paidToPool := cb.paidTo poolScript
  commitment := ⟨0, zeros 32, 7, zeros 32, 0, 0, 0, 0, 0, zeros 16, zeros 32⟩
  coinbaseLegacy := []
  coinbase := cb

/-- The pair paid without a cap. -/
def openConfig : Config := { cappedConfig with maxPayees := 0 }

def bobScript : Bytes := [0x76, 0xa9, 0x14] ++ List.replicate 20 2 ++ [0x88, 0xac]

def fairSplit : Split where
  value := 2000000
  feeSats := 0
  totalWork := 8
  payees := [⟨"1Ann", 6, 1500000, annScript⟩, ⟨"1Bob", 2, 500000, bobScript⟩]
  unpaid := []
  carryPaid := []
  poolSats := 0

def fairIssue : IssuedCoinbaser := issueOf (startedShared openConfig) 1 2000000 fairSplit none

theorem openShared_started : Started pairDecoders (startedShared openConfig) :=
  startedShared_started (by decide +kernel) (by decide +kernel)

def fairIssued : Issued pairDecoders sumDigests (fun _ => []) (startedShared openConfig) pairWindow
    .empty fairIssue := ⟨fairSplit, none, by decide +kernel, rfl⟩

def fairCandidate : VerifiedShare :=
  sampleCandidate (coinbaseOf [⟨1500000, annScript⟩, ⟨500000, bobScript⟩])
    (startedShared openConfig).poolScript .split

theorem fairCandidate_judged : fairCandidate.Judged (startedShared openConfig).poolScript
    (some fairIssue.outputs) openConfig.splitTolerance :=
  ⟨by decide +kernel, by simp [fairCandidate, sampleCandidate], rfl, rfl⟩

/-- The whole list, paid in full. -/
def fairHonest : Honest fairCandidate.coinbase fairIssue (startedShared openConfig).poolScript where
  rescaled := false
  kept := fairIssue.outputs
  rest := []
  sub := List.Sublist.refl _
  whole _ := rfl
  outputs := by decide +kernel
  toPool := by simp
  fits := by decide +kernel

theorem settlement_solvent_pair : ∃ r, onBlockCandidate pairDecoders (startedShared openConfig) pairWindow
    (sampleSession fairIssue) (sampleShare 5 4) fairCandidate "1Ann" 0 "" = some r ∧ Solvent r := by
  have hheld : (sampleSession fairIssue).jobCoinbaser (sampleShare 5 4).jobId = some fairIssue := rfl
  obtain ⟨⟨r, run, hsolvent, -⟩, hcover⟩ := settlement_solvent_iff pairDecoders_documented
    openShared_started fairIssued (by decide) hheld fairCandidate_judged fairHonest "1Ann" 0 ""
  exact ⟨r, run, hsolvent (hcover rfl (by decide +kernel))⟩

/-- The share below the cut is carried although no coinbase left it with the pool. -/
theorem cut_share_insolvent : ∃ (c : IssuedCoinbaser) (v : VerifiedShare) (r : BlockRecord),
    Started pairDecoders (startedShared cappedConfig) ∧
    Nonempty (Issued pairDecoders sumDigests (fun _ => []) (startedShared cappedConfig) pairWindow .empty c) ∧
    v.Judged (startedShared cappedConfig).poolScript (some c.outputs) cappedConfig.splitTolerance ∧
    Nonempty (Honest v.coinbase c (startedShared cappedConfig).poolScript) ∧
    onBlockCandidate pairDecoders (startedShared cappedConfig) pairWindow (sampleSession c)
      (sampleShare 5 4) v "1Ann" 0 "" = some r ∧ ¬ Solvent r := by
  let sh := startedShared cappedConfig
  let c := issueOf sh 1 2000000 cutSplit none
  let cb := coinbaseOf [⟨2000000, annScript⟩]
  refine ⟨c, sampleCandidate cb sh.poolScript .split, _, startedShared_started (by decide +kernel)
    (by decide +kernel), ⟨cutSplit, none, by decide +kernel, rfl⟩, ⟨by decide +kernel, by simp [sampleCandidate], rfl, rfl⟩,
    ⟨false, c.outputs, [], List.Sublist.refl _, fun _ => rfl, by decide +kernel, by simp, by decide +kernel⟩, rfl, by decide +kernel⟩

end WaviclesPrime.Primed
