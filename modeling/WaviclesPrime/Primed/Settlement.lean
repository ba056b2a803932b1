import WaviclesPrime.Primed.Solvency

/-! What an identity has once a block settles, against its share of the block. -/
namespace WaviclesPrime.Primed
open Wire Machine Tides Apportion

/-- What the window work of a split gives an identity without its carry, and what it leaves unpaid. -/
def baseOf (s : Split) (i : Identity) : Nat :=
  amountOf i (s.payees.map Payee.amount) - amountOf i s.carryPaid

def leftOf (s : Split) (i : Identity) : Nat := amountOf i (s.unpaid.map dueAmount)

/-- Settling a block loses an identity nothing: what the coinbase pays it and the change to its
carry make up its share, scaled down with the template, but for the tolerance and one sat. -/
def NothingLost (sh : Shared) (s : Split) (i : Identity) (paid value issuedValue : Nat)
    (ledger : Carry) (r : BlockRecord) : Prop :=
  (baseOf s i + leftOf s i) * min value issuedValue + issuedValue * ledger.due i ≤
    issuedValue * (paid + (sh.settleRecord ledger r).due i + (sh.cfg.splitTolerance + 1))

instance (sh : Shared) (s : Split) (i : Identity) (paid value issuedValue : Nat) (ledger : Carry)
    (r : BlockRecord) : Decidable (NothingLost sh s i paid value issuedValue ledger r) :=
  inferInstanceAs (Decidable (_ ≤ _))

/-- The outputs or records of a coinbase are its payees' sats scaled to the template. -/
def Shrinks (rescaled : Bool) (kind : CoinbaseKind) (value issuedValue sats : Nat) : Prop :=
  match kind with
  | .poolOnly => True
  | .partialSplit _ => rescaled = true ∧ sats * value / issuedValue ≠ 0
  | .split | .foreign => rescaled = true

/-- What does not fit a balance of u64 any more, once `carry` comes off it and `more` goes on. -/
def spilled (due carry more : Nat) : Nat := due - carry + more - (sizeU64 - 1)

namespace Built
variable {cb : Coinbase} {c : IssuedCoinbaser} {poolScript : Bytes}

/-- What a coinbase pays an identity: the output kept for it. -/
def ownOutput (b : Built cb c poolScript) (i : Identity) : Nat :=
  amountOf i (b.kept.map fun q => (q.identity, b.share q))

/-- What the record adds to an identity's unpaid amount. -/
def recorded (_ : Built cb c poolScript) (kind : CoinbaseKind) (i : Identity) : Nat :=
  amountOf i (c.payees.map fun q => (q.identity, addedFor cb c kind q))

/-- A payee whose output is missing, or carries nothing, is taken as paid: the coinbase is a split, or
another output pays the same script. -/
def Overlooked (b : Built cb c poolScript) (kind : CoinbaseKind) (q : Payee) : Prop :=
  (q ∈ b.kept → b.share q = 0) ∧ match kind with
    | .split => True
    | .partialSplit _ => cb.paidTo q.script ≠ 0
    | .poolOnly | .foreign => False

/-- The ways for an identity to come to less than its issued sats: they shrink with the template, or
its output is overlooked. -/
def Short (b : Built cb c poolScript) (kind : CoinbaseKind) (i : Identity) : Prop :=
  ∃ q ∈ c.payees, q.identity = i ∧
    (cb.totalOutputValue < c.value ∧ Shrinks b.rescaled kind cb.totalOutputValue c.value q.sats ∨
      b.Overlooked kind q)

/-- The ledger takes the carry paid in full, and loses what spills over: what the identity comes to, what
stays unpaid and the tolerance make up for both. -/
def CarryHolds (b : Built cb c poolScript) (kind : CoinbaseKind) (s : Split) (i : Identity) (tolerance : Nat)
    (ledger : Carry) : Prop :=
  baseOf s i * min cb.totalOutputValue c.value + c.value * (min (amountOf i s.carryPaid) (ledger.due i) +
      spilled (ledger.due i) (amountOf i s.carryPaid) (leftOf s i + b.recorded kind i)) ≤
    c.value * (b.ownOutput i + b.recorded kind i + (tolerance + 1)) +
      leftOf s i * (c.value - min cb.totalOutputValue c.value)

/-- Settling the block moves the ledger: carry-forward is on, and the unpaid amounts add up inside u64. -/
def Moves (_ : Built cb c poolScript) (sh : Shared) (kind : CoinbaseKind) : Prop :=
  sh.cfg.carryForward = true ∧ given c.unpaid + (c.payees.map (addedFor cb c kind)).sum < sizeU64

/-- The coinbase has no output for a payee. -/
def LeavesOut (b : Built cb c poolScript) (i : Identity) : Prop := ∃ q ∈ c.payees, q.identity = i ∧ q ∉ b.kept

/-- When an issued list keeps an identity's share. Where the ledger does not move, its own output has to make up
for what it stands to lose. -/
def KeepsShare (b : Built cb c poolScript) (sh : Shared) (kind : CoinbaseKind) (s : Split) (i : Identity)
    (ledger : Carry) : Prop :=
  (b.Moves sh kind → b.Short kind i ∨
      0 < spilled (ledger.due i) (amountOf i s.carryPaid) (leftOf s i + b.recorded kind i) →
    b.CarryHolds kind s i sh.cfg.splitTolerance ledger) ∧
  (¬ b.Moves sh kind → b.LeavesOut i ∨ 0 < leftOf s i →
    (baseOf s i + leftOf s i) * min cb.totalOutputValue c.value ≤
      c.value * (b.ownOutput i + (sh.cfg.splitTolerance + 1)))

end Built

/-- When the window's split, recorded without what it leaves unpaid, keeps an identity's share. -/
def KeepsWindowShare (sh : Shared) (s : Split) (i : Identity) (ledger : Carry) : Prop :=
  if sh.cfg.carryForward then
    leftOf s i + spilled (ledger.due i) 0 (baseOf s i) ≤ sh.cfg.splitTolerance + 1
  else baseOf s i + leftOf s i ≤ sh.cfg.splitTolerance + 1

/-- The arithmetic of a ledger that moves: `carry` comes off the balance, `left` and `added` go on it. -/
theorem ledger_share_iff {base left value issuedValue due carry own added slack : Nat} (hle : value ≤ issuedValue) :
    ((base + left) * value + issuedValue * due ≤
        issuedValue * (own + min (due - carry + (left + added)) (sizeU64 - 1) + slack)) ↔
      base * value + issuedValue * (min carry due + spilled due carry (left + added)) ≤
        issuedValue * (own + added + slack) + left * (issuedValue - value) := by
  have hleft : left * (issuedValue - value) + left * value = issuedValue * left := by
    rw [← Nat.mul_add, Nat.sub_add_cancel hle, Nat.mul_comm]
  generalize hafter : min (due - carry + (left + added)) (sizeU64 - 1) = after
  generalize hspill : spilled due carry (left + added) = spill
  have hgain : after + spill = due - carry + (left + added) := by
    unfold spilled at hspill
    omega
  have htaken : due = due - carry + min carry due := by omega
  -- both sides grow by what spills over
  have hdue := congrArg (issuedValue * ·) htaken
  have hall := congrArg (issuedValue * ·) hgain
  simp only [Nat.mul_add, Nat.add_mul] at hdue hall hleft ⊢
  omega

/-- An identity that comes to its issued sats loses nothing while its balance holds them. -/
theorem full_share {base carry value issuedValue due come left slack : Nat} (hle : value ≤ issuedValue)
    (hcome : base + carry ≤ come) : base * value + issuedValue * (min carry due + 0) ≤
      issuedValue * (come + slack) + left * (issuedValue - value) := by
  calc base * value + issuedValue * (min carry due + 0)
      ≤ base * issuedValue + issuedValue * carry :=
        Nat.add_le_add (Nat.mul_le_mul_left _ hle) (Nat.mul_le_mul_left _ (Nat.min_le_left _ _))
    _ = issuedValue * (base + carry) := by ring
    _ ≤ issuedValue * (come + slack) := Nat.mul_le_mul_left _ (by omega)
    _ ≤ issuedValue * (come + slack) + left * (issuedValue - value) := Nat.le_add_right _ _

section
variable {cb : Coinbase} {c : IssuedCoinbaser} {poolScript : Bytes} {kind : CoinbaseKind} {q : Payee}

theorem Built.ownOutput_eq (b : Built cb c poolScript) (hn : (identities c.payees).Nodup) (hq : q ∈ c.payees) :
    b.ownOutput q.identity = if q ∈ b.kept then b.share q else 0 := by
  split
  next hkept =>
    refine amountOf_of_mem (e := (q.identity, b.share q)) ?_ (List.mem_map_of_mem hkept)
    simpa [identities, Function.comp_def] using hn.sublist (b.sub.map Payee.identity)
  next hnot =>
    refine amountOf_of_notMem fun hmem => hnot ?_
    simp only [List.map_map, Function.comp_def] at hmem
    obtain ⟨x, hx, heq⟩ := List.mem_map.mp hmem
    exact List.inj_on_of_nodup_map hn (b.sub.subset hx) hq heq ▸ hx

theorem Built.recorded_eq (b : Built cb c poolScript) (hn : (identities c.payees).Nodup) (hq : q ∈ c.payees) :
    b.recorded kind q.identity = addedFor cb c kind q :=
  amountOf_of_mem (e := (q.identity, addedFor cb c kind q))
    (by simpa [identities, Function.comp_def] using hn) (List.mem_map_of_mem hq)

/-- A kept output carries its payee's sats, scaled down with the template, but for the rounding. -/
theorem Built.kept_share (b : Built cb c poolScript) (hn : (identities c.payees).Nodup) (hq : q ∈ c.payees)
    (hkept : q ∈ b.kept) (hsats : q.sats ≤ c.value) :
    q.sats * min cb.totalOutputValue c.value ≤ c.value * (b.ownOutput q.identity + 1) := by
  rw [b.ownOutput_eq hn hq, if_pos hkept, Built.share, placed]
  split
  next =>
    rw [scale_eq hsats (totalOutputValue_lt cb)]
    rcases Nat.eq_zero_or_pos c.value with hz | hpos
    · simp [hz]
    · calc q.sats * min cb.totalOutputValue c.value
          ≤ q.sats * cb.totalOutputValue := Nat.mul_le_mul_left _ (Nat.min_le_left _ _)
        _ ≤ c.value * (q.sats * cb.totalOutputValue / c.value + 1) := (Nat.lt_mul_div_succ _ hpos).le
  next =>
    calc q.sats * min cb.totalOutputValue c.value
        ≤ q.sats * c.value := Nat.mul_le_mul_left _ (Nat.min_le_right _ _)
      _ = c.value * q.sats := Nat.mul_comm _ _
      _ ≤ c.value * (q.sats + 1) := Nat.mul_le_mul_left _ (Nat.le_succ _)

/-- A payee that comes to less than its issued sats shrinks with the template, or is overlooked. -/
theorem Built.short_of_lt (b : Built cb c poolScript) (hn : (identities c.payees).Nodup) (hq : q ∈ c.payees)
    (hsats : q.sats ≤ c.value) (hknown : kind ≠ .foreign)
    (hlt : b.ownOutput q.identity + b.recorded kind q.identity < q.sats) : b.Short kind q.identity := by
  refine ⟨q, hq, rfl, ?_⟩
  rw [b.ownOutput_eq hn hq, b.recorded_eq hn hq] at hlt
  have hscale : scale q.sats cb.totalOutputValue c.value = q.sats * cb.totalOutputValue / c.value :=
    scale_eq hsats (totalOutputValue_lt cb)
  have hless (h : q.sats * cb.totalOutputValue / c.value < q.sats) : cb.totalOutputValue < c.value := by
    by_contra hge
    rcases Nat.eq_zero_or_pos c.value with hz | hpos
    · omega
    · exact absurd h (Nat.not_lt.mpr ((Nat.le_div_iff_mul_le hpos).mpr
        (Nat.mul_le_mul_left _ (Nat.le_of_not_lt hge))))
  have hshrunk (h : b.share q < q.sats) : b.rescaled = true ∧ b.share q = q.sats * cb.totalOutputValue / c.value := by
    cases hr : b.rescaled with
    | true => exact ⟨rfl, by rw [← hscale, Built.share, placed, if_pos hr]⟩
    | false => simp [Built.share, placed, hr] at h
  cases kind with
  | foreign => exact absurd rfl hknown
  | poolOnly =>
    simp only [addedFor, hscale] at hlt
    exact .inl ⟨hless (by omega), trivial⟩
  | split =>
    simp only [addedFor, Nat.add_zero] at hlt
    by_cases hkept : q ∈ b.kept
    · rw [if_pos hkept] at hlt
      obtain ⟨hr, hshare⟩ := hshrunk hlt
      exact .inl ⟨hless (hshare ▸ hlt), hr⟩
    · exact .inr ⟨fun h => absurd h hkept, trivial⟩
  | partialSplit n =>
    have hpaid : cb.paidTo q.script ≠ 0 := fun hz => by simp [addedFor, hz] at hlt
    simp only [addedFor, if_neg hpaid, Nat.add_zero] at hlt
    by_cases hkept : q ∈ b.kept
    · rw [if_pos hkept] at hlt
      obtain ⟨hr, hshare⟩ := hshrunk hlt
      by_cases hz : b.share q = 0
      · exact .inr ⟨fun _ => hz, hpaid⟩
      · exact .inl ⟨hless (hshare ▸ hlt), hr, hshare ▸ hz⟩
    · exact .inr ⟨fun h => absurd h hkept, hpaid⟩

end

section
variable {D : Decoders} {H : Digests} {canonical : Snapshot.Doc → Bytes} {sh sh' : Shared}
  {w w' : WindowView} {carry ledger : Carry} {c : IssuedCoinbaser} {v : VerifiedShare} {ss : Session}
  {s : PowSubmit} {finder : Identity} {ts : Nat} {gateway : String} {r : BlockRecord}
  {identity : Identity} {script : Bytes}

/-- A coinbaser holds all that its split leaves a payable identity. -/
theorem amountOf_carriable {t : Split}
    (h : ∀ e ∈ t.unpaid, e.2.2 = .noScript → e.1 ≠ identity) :
    amountOf identity (carriable t) = leftOf t identity := by
  unfold carriable leftOf
  generalize t.unpaid = unpaid at h
  induction unpaid with
  | nil => rfl
  | cons e unpaid ih =>
    have ih := ih fun x hx => h x (List.mem_cons_of_mem _ hx)
    by_cases he : e.2.2 = .noScript
    · have hne := h e List.mem_cons_self he
      simp only [amountOf, List.filter_cons, he, ne_eq, not_true_eq_false, decide_false,
        Bool.false_eq_true, if_false, List.map_cons, List.sum_cons, dueAmount, if_neg hne,
        Nat.zero_add] at ih ⊢
      exact ih
    · simp only [amountOf, List.filter_cons, he, ne_eq, not_false_eq_true, decide_true, if_true,
        List.map_cons, List.sum_cons] at ih ⊢
      rw [ih]

/-- A payable identity that comes to less than its issued sats is short. -/
theorem Issued.short_of_lt (hs : Started D sh) (i : Issued D H canonical sh w carry c) (hv : c.value < sizeU64)
    (b : Built v.coinbase c sh.poolScript) {kind : CoinbaseKind} (hknown : kind ≠ .foreign)
    (hlt : b.ownOutput identity + b.recorded kind identity < amountOf identity (i.split.payees.map Payee.amount)) :
    b.Short kind identity := by
  obtain ⟨f⟩ := i.phases hs hv
  have hids : (identities c.payees).Nodup := i.payees_eq ▸ f.payees_nodup w.distinct
  by_cases hmem : identity ∈ identities c.payees
  · obtain ⟨q, hq, rfl⟩ := List.mem_map.mp hmem
    have hpay : amountOf q.identity (i.split.payees.map Payee.amount) = q.sats :=
      i.payees_eq ▸ amountOf_payees hids hq
    have hsum := i.sats_le hs hv
    have hsats := le_sum_of_mem (f := Payee.sats) hq
    exact b.short_of_lt hids hq (by omega) hknown (hpay ▸ hlt)
  · rw [amountOf_payees_none (i.payees_eq ▸ hmem)] at hlt
    omega

/-- An identity that is not left out is paid what the window work gives it. -/
theorem Issued.base_paid (hs : Started D sh) (i : Issued D H canonical sh w carry c) (hv : c.value < sizeU64)
    (b : Built v.coinbase c sh.poolScript) (hkept : ¬ b.LeavesOut identity) :
    baseOf i.split identity * min v.coinbase.totalOutputValue c.value ≤ c.value * (b.ownOutput identity + 1) := by
  obtain ⟨f⟩ := i.phases hs hv
  have hids : (identities c.payees).Nodup := i.payees_eq ▸ f.payees_nodup w.distinct
  have hbase : baseOf i.split identity ≤ amountOf identity (c.payees.map Payee.amount) := i.payees_eq ▸ Nat.sub_le _ _
  refine (Nat.mul_le_mul_right _ hbase).trans ?_
  by_cases hmem : identity ∈ identities c.payees
  · obtain ⟨q, hq, rfl⟩ := List.mem_map.mp hmem
    have hsum := i.sats_le hs hv
    have hsats := le_sum_of_mem (f := Payee.sats) hq
    rw [amountOf_payees hids hq]
    refine b.kept_share hids hq ?_ (by omega)
    by_contra hnot
    exact hkept ⟨q, hq, rfl, hnot⟩
  · rw [amountOf_payees_none hmem, Nat.zero_mul]
    exact Nat.zero_le _

/-- What a settlement records for an identity, and whether it goes through. -/
theorem Issued.settled_amounts (hs : Started D sh) (i : Issued D H canonical sh w carry c) (hv : c.value < sizeU64)
    (hc : ss.jobCoinbaser s.jobId = some c)
    (hj : v.Judged sh.poolScript (some c.outputs) sh.cfg.splitTolerance) (b : Built v.coinbase c sh.poolScript)
    (run : onBlockCandidate D sh' w' ss s v finder ts gateway = some r)
    (hscript : sh.scriptFor D identity = some script) :
    r.carryPaid = i.split.carryPaid ∧
      amountOf identity r.unpaid = leftOf i.split identity + b.recorded v.coinbaseKind identity ∧
      (sh.cfg.carryForward = true ∧ SumsFit r ↔ b.Moves sh v.coinbaseKind) := by
  obtain ⟨f⟩ := i.phases hs hv
  obtain ⟨-, -, -, -, books, hbooks, hunpaid⟩ := onBlockCandidate_record run
  obtain ⟨-, hcarry, hgiven⟩ := unpaid_recorded hc hj run
  rw [hc] at hbooks hunpaid
  have hleft : amountOf identity c.unpaid = leftOf i.split identity := by
    rw [i.unpaid_eq]
    refine amountOf_carriable fun e he hr heq => ?_
    have hnone := f.noScript e he hr
    rw [heq, hscript] at hnone
    cases hnone
  have hpaid : given r.carryPaid < sizeU64 := by
    have hpool := f.pool_add_carry (w.input hs.bounded hv)
    rw [hcarry, i.carryPaid_eq]
    omega
  refine ⟨hcarry.trans i.carryPaid_eq, ?_, and_congr_right fun _ => ?_⟩
  · rw [hunpaid, Option.elim_some, amountOf_append, hleft, amountOf_added hbooks hj.value hj.known]
    rfl
  · rw [SumsFit, hgiven]
    exact and_iff_left hpaid

/-- On an issued coinbaser an identity loses nothing exactly when its share is kept. -/
theorem Issued.share_kept_iff (hs : Started D sh) (i : Issued D H canonical sh w carry c) (hv : c.value < sizeU64)
    (hc : ss.jobCoinbaser s.jobId = some c)
    (hj : v.Judged sh.poolScript (some c.outputs) sh.cfg.splitTolerance) (b : Built v.coinbase c sh.poolScript)
    (run : onBlockCandidate D sh' w' ss s v finder ts gateway = some r)
    (hscript : sh.scriptFor D identity = some script) (hdue : ledger.due identity < sizeU64) :
    NothingLost sh i.split identity (b.ownOutput identity) v.coinbaseValue c.value ledger r ↔
      b.KeepsShare sh v.coinbaseKind i.split identity ledger := by
  obtain ⟨f⟩ := i.phases hs hv
  obtain ⟨hcarry, hunpaid, hmoves⟩ := i.settled_amounts hs hv hc hj b run hscript
  have hbase : baseOf i.split identity + amountOf identity i.split.carryPaid =
      amountOf identity (i.split.payees.map Payee.amount) :=
    Nat.sub_add_cancel (f.carryPaid_le_paid w.distinct identity)
  have hmin : min v.coinbase.totalOutputValue c.value ≤ c.value := Nat.min_le_right _ _
  unfold NothingLost Shared.settleRecord Built.KeepsShare
  rw [hj.value]
  by_cases hgo : b.Moves sh v.coinbaseKind
  · have hafter := ledger.due_applied r.carryPaid r.unpaid identity hdue
    rw [hcarry, hunpaid] at hafter
    have hholds := @ledger_share_iff (baseOf i.split identity) (leftOf i.split identity) _ _ (ledger.due identity)
      (amountOf identity i.split.carryPaid) (b.ownOutput identity) (b.recorded v.coinbaseKind identity)
      (sh.cfg.splitTolerance + 1) hmin
    rw [if_pos (hmoves.mpr hgo), hcarry, hafter, hholds]
    refine ⟨fun h => ⟨fun _ _ => h, fun hno => absurd hgo hno⟩, fun h => ?_⟩
    by_cases hcause : b.Short v.coinbaseKind identity ∨ 0 < spilled (ledger.due identity)
        (amountOf identity i.split.carryPaid) (leftOf i.split identity + b.recorded v.coinbaseKind identity)
    · exact h.1 hgo hcause
    · rw [not_or, Nat.not_lt, Nat.le_zero] at hcause
      rw [hcause.2]
      refine full_share hmin (Nat.le_of_not_lt fun hlt => hcause.1 ?_)
      exact i.short_of_lt hs hv b hj.known (hbase ▸ hlt)
  · have hsplit : c.value * (b.ownOutput identity + ledger.due identity + (sh.cfg.splitTolerance + 1)) =
        c.value * (b.ownOutput identity + (sh.cfg.splitTolerance + 1)) + c.value * ledger.due identity := by ring
    rw [if_neg fun h => hgo (hmoves.mp h), hsplit, Nat.add_le_add_iff_right]
    refine ⟨fun h => ⟨fun hyes => absurd hyes hgo, fun _ _ => h⟩, fun h => ?_⟩
    by_cases hcause : b.LeavesOut identity ∨ 0 < leftOf i.split identity
    · exact h.2 hgo hcause
    · rw [not_or, Nat.not_lt, Nat.le_zero] at hcause
      rw [hcause.2, Nat.add_zero]
      exact (i.base_paid hs hv b hcause.1).trans (Nat.mul_le_mul_left _ (by omega))

/-- With no coinbaser issued, the window's split is recorded without what it leaves unpaid. -/
theorem nothing_lost_unissued (hd : D.Documented) (hs : Started D sh)
    (hc : ss.jobCoinbaser s.jobId = none)
    (hj : v.Judged sh.poolScript none sh.cfg.splitTolerance)
    (run : onBlockCandidate D sh w ss s v finder ts gateway = some r)
    (hscript : sh.scriptFor D identity = some script) (hdue : ledger.due identity < sizeU64) :
    (script ≠ sh.poolScript → v.coinbase.paidTo script = 0) ∧
    ∃ split, w.split v.coinbaseValue sh.splitParams (sh.scriptFor D) = some split ∧
      (NothingLost sh split identity 0 v.coinbaseValue v.coinbaseValue ledger r ↔
        (0 < v.coinbaseValue → KeepsWindowShare sh split identity ledger)) := by
  obtain ⟨-, -, -, hcarry, books, hbooks, hunpaid⟩ := onBlockCandidate_record run
  have hkind := hj.kind
  obtain hk : v.coinbaseKind = .poolOnly := unissued_kind hj.kind hj.known
  rw [hc] at hcarry hbooks hunpaid
  unfold booksOf at hbooks
  rw [hk] at hbooks hkind
  simp only [Option.bind_eq_bind, Option.bind_eq_some_iff, Option.some.injEq] at hbooks
  obtain ⟨split, hsplit, owed, howed, rfl⟩ := hbooks
  have hval : v.coinbaseValue < sizeU64 := hj.value ▸ totalOutputValue_lt _
  obtain ⟨f⟩ := computeWithCarry_phases (w.input hs.bounded hval) w.distinct hsplit
  refine ⟨fun hnp => unissued_unpaid hkind hnp (decodeScript_shape hd (decodeScript_of_toScript hscript)).2,
    split, hsplit, ?_⟩
  simp only [Option.elim_none, List.nil_append] at hcarry hunpaid
  have hsums : SumsFit r := by
    rw [SumsFit, hcarry, hunpaid]
    exact ⟨(sumSats_eq_some.mp howed).1, by decide⟩
  have hbase : baseOf split identity = amountOf identity (split.payees.map Payee.amount) := by
    rw [baseOf, f.carryPaid_empty, amountOf_nil, Nat.sub_zero]
  have hafter : (ledger.applied r.carryPaid r.unpaid).due identity =
      min (ledger.due identity - 0 + baseOf split identity) (sizeU64 - 1) := by
    rw [ledger.due_applied _ _ _ hdue, hunpaid, hcarry, amountOf_nil, hbase]
  have hshare (after : Nat) : (baseOf split identity + leftOf split identity) * min v.coinbaseValue v.coinbaseValue +
        v.coinbaseValue * ledger.due identity ≤ v.coinbaseValue * (0 + after + (sh.cfg.splitTolerance + 1)) ↔
      (0 < v.coinbaseValue → baseOf split identity + leftOf split identity + ledger.due identity ≤
        after + (sh.cfg.splitTolerance + 1)) := by
    rw [Nat.min_self, Nat.zero_add, Nat.mul_comm _ v.coinbaseValue, ← Nat.mul_add]
    rcases Nat.eq_zero_or_pos v.coinbaseValue with hz | hpos
    · simp [hz]
    · rw [Nat.mul_le_mul_left_iff hpos]
      exact ⟨fun h _ => h, fun h => h hpos⟩
  unfold NothingLost Shared.settleRecord KeepsWindowShare
  cases hcf : sh.cfg.carryForward with
  | true =>
    rw [if_pos ⟨rfl, hsums⟩, if_pos rfl, hafter, hshare]
    refine forall_congr' fun _ => ?_
    unfold spilled
    omega
  | false =>
    rw [if_neg (by simp), if_neg (by simp), hshare]
    refine forall_congr' fun _ => ?_
    omega

end

theorem fairCandidate_placed : fairCandidate.coinbase.outputs.Perm
    (fairIssue.payees.map (fun q => ⟨placed false fairCandidate.coinbase.totalOutputValue fairIssue.value q.sats,
      q.script⟩) ++ []) := by decide +kernel

theorem nothing_toPool : ∀ o ∈ ([] : List TxOut), o.script = (startedShared openConfig).poolScript ∨
    o.isOpReturn = true ∧ o.value = 0 := fairHonest.toPool

theorem fairCandidate_fits : (fairCandidate.coinbase.outputs.map TxOut.value).sum < sizeU64 := fairHonest.fits

/-- The same coinbase by its payees. -/
def fairBuilt : Built fairCandidate.coinbase fairIssue (startedShared openConfig).poolScript where
  rescaled := false
  kept := fairIssue.payees
  rest := []
  sub := List.Sublist.refl _
  whole _ := rfl
  outputs := fairCandidate_placed
  toPool := nothing_toPool
  fits := fairCandidate_fits

/-- What an empty window pays out of the carry. -/
def carrySplit : Split where
  value := 2000000
  feeSats := 0
  totalWork := 0
  payees := [⟨"1Bob", 0, 300000, bobScript⟩]
  unpaid := []
  carryPaid := [("1Bob", 300000)]
  poolSats := 1700000

def owedBob : Carry := ⟨.insert .empty "1Bob" 300000⟩

end WaviclesPrime.Primed
