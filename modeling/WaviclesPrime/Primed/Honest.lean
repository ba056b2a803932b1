import WaviclesPrime.Primed.Blocks
import WaviclesPrime.Primed.Issued

/-! Coinbases an honest gateway builds from an issued list, and what a record adds for each payee. -/
namespace WaviclesPrime.Primed
open Wire Machine Tides Apportion

/-- What an output issued for `sats` carries: all of it, or its part of the template's value. -/
def placed (rescaled : Bool) (value issuedValue sats : Nat) : Nat :=
  if rescaled then scale sats value issuedValue else sats

/-- A coinbase built from an issued list: the outputs it keeps are paid in full, or the whole list
is rescaled, and the rest goes to the pool or is a commitment without value. -/
structure Honest (cb : Coinbase) (c : IssuedCoinbaser) (poolScript : Bytes) where
  rescaled : Bool
  kept : List Output
  rest : List TxOut
  sub : kept.Sublist c.outputs
  whole : rescaled = true → kept = c.outputs
  outputs : cb.outputs.Perm
    (kept.map (fun o => ⟨placed rescaled cb.totalOutputValue c.value o.sats, o.script⟩) ++ rest)
  toPool : ∀ o ∈ rest, o.script = poolScript ∨ o.isOpReturn = true ∧ o.value = 0
  fits : (cb.outputs.map TxOut.value).sum < sizeU64

/-- The same coinbase by the payees it keeps an output for. -/
structure Built (cb : Coinbase) (c : IssuedCoinbaser) (poolScript : Bytes) where
  rescaled : Bool
  kept : List Payee
  rest : List TxOut
  sub : kept.Sublist c.payees
  whole : rescaled = true → kept = c.payees
  outputs : cb.outputs.Perm
    (kept.map (fun q => ⟨placed rescaled cb.totalOutputValue c.value q.sats, q.script⟩) ++ rest)
  toPool : ∀ o ∈ rest, o.script = poolScript ∨ o.isOpReturn = true ∧ o.value = 0
  fits : (cb.outputs.map TxOut.value).sum < sizeU64

/-- What a record adds to the unpaid amounts for a payee. -/
def addedFor (cb : Coinbase) (c : IssuedCoinbaser) (kind : CoinbaseKind) (q : Payee) : Nat :=
  match kind with
  | .partialSplit _ => if cb.paidTo q.script = 0 then q.sats else 0
  | .poolOnly => scale q.sats cb.totalOutputValue c.value
  | .split | .foreign => 0

/-- What a payee comes to in all: its output, or the amount recorded for it. -/
def booked (rescaled : Bool) (kind : CoinbaseKind) (value issuedValue sats : Nat) : Nat :=
  match kind with
  | .poolOnly => scale sats value issuedValue
  | .partialSplit _ =>
    if placed rescaled value issuedValue sats = 0 then sats else placed rescaled value issuedValue sats
  | .split | .foreign => placed rescaled value issuedValue sats

theorem scale_eq {sats value issuedValue : Nat} (hs : sats ≤ issuedValue) (hv : value < sizeU64) :
    scale sats value issuedValue = sats * value / issuedValue := by
  unfold scale
  split
  next hz =>
    obtain rfl : sats = 0 := by omega
    simp
  next =>
    refine cast_of_lt (Nat.lt_of_le_of_lt (Nat.div_le_of_le_mul ?_) hv)
    exact Nat.mul_le_mul_right _ hs

section
variable {cb : Coinbase} {c : IssuedCoinbaser} {poolScript : Bytes} {tolerance : Nat}
  {kind : CoinbaseKind}

namespace Built

/-- What a kept payee's output carries. -/
def share (b : Built cb c poolScript) (q : Payee) : Nat :=
  placed b.rescaled cb.totalOutputValue c.value q.sats

theorem value_eq (b : Built cb c poolScript) :
    cb.totalOutputValue = (b.kept.map b.share).sum + (b.rest.map TxOut.value).sum := by
  rw [Coinbase.value_eq b.fits, (b.outputs.map TxOut.value).sum_eq]
  simp only [List.map_append, List.map_map, List.sum_append, Function.comp_def]
  rfl

theorem paidTo_eq (b : Built cb c poolScript) (script : Bytes) : cb.paidTo script =
    ((b.kept.filter fun q => q.script = script).map b.share).sum +
      ((b.rest.filter fun o => o.script = script).map TxOut.value).sum := by
  rw [Coinbase.paidTo_exact b.fits, ((b.outputs.filter _).map TxOut.value).sum_eq]
  simp only [List.filter_append, List.filter_map, List.map_append, List.map_map, List.sum_append,
    Function.comp_def]
  rfl

/-- Everything that is not a miner output is the pool's. -/
theorem rest_eq (b : Built cb c poolScript) : (b.rest.map TxOut.value).sum =
    ((b.rest.filter fun o => o.script = poolScript).map TxOut.value).sum := by
  have hpool := b.toPool
  generalize b.rest = rest at hpool
  induction rest with
  | nil => rfl
  | cons o rest ih =>
    have ih := ih fun x hx => hpool x (List.mem_cons_of_mem _ hx)
    by_cases ho : o.script = poolScript
    · simp [ho, ih]
    · have hzero := ((hpool o List.mem_cons_self).resolve_left ho).2
      simp [ho, ih, hzero]

/-- The value goes to the pool and to the miners that are kept. -/
theorem pool_add_miners (b : Built cb c poolScript) : cb.paidTo poolScript +
    (b.kept.map fun q => if q.script = poolScript then 0 else b.share q).sum =
      cb.totalOutputValue := by
  have hsplit : (b.kept.map b.share).sum =
      ((b.kept.filter fun q => q.script = poolScript).map b.share).sum +
        (b.kept.map fun q => if q.script = poolScript then 0 else b.share q).sum := by
    induction b.kept with
    | nil => rfl
    | cons q kept ih =>
      by_cases hq : q.script = poolScript
      · simp [hq, ih, Nat.add_assoc]
      · simp [hq, ih, Nat.add_left_comm]
  rw [b.value_eq, b.paidTo_eq, b.rest_eq, hsplit]
  omega

theorem share_le_paid (b : Built cb c poolScript) {q : Payee} (hq : q ∈ b.kept) :
    b.share q ≤ cb.paidTo q.script := by
  rw [b.paidTo_eq]
  exact (le_sum_of_mem (f := b.share) (List.mem_filter.mpr ⟨hq, by simp⟩)).trans
    (Nat.le_add_right _ _)

/-- A script that is one payee's alone is paid that payee's output and nothing else. -/
theorem paidTo_own (b : Built cb c poolScript) (hn : c.payees.Nodup) {q : Payee}
    (hown : ∀ x ∈ c.payees, x.script = q.script → x = q)
    (hp : q.script ≠ poolScript) (ho : isOpReturnScript q.script = false) :
    cb.paidTo q.script = if q ∈ b.kept then b.share q else 0 := by
  have hrest : b.rest.filter (fun o => o.script = q.script) = [] := by
    refine List.filter_eq_nil_iff.mpr fun o hmem => ?_
    rw [decide_eq_true_eq]
    intro heq
    rcases b.toPool o hmem with hpool | ⟨hop, -⟩
    · exact hp (heq ▸ hpool)
    · simp [TxOut.isOpReturn, heq, ho] at hop
  have hkept : b.kept.filter (fun x => x.script = q.script) = b.kept.filter (· = q) :=
    List.filter_congr fun x hx => by
      rw [decide_eq_decide]
      exact ⟨hown x (b.sub.subset hx), fun heq => heq ▸ rfl⟩
  rw [b.paidTo_eq, hrest, hkept, List.filter_eq, (hn.sublist b.sub).count]
  split <;> simp

/-- The output of a payee that has a script of its own, and the amount recorded for it, come to
what the payee is booked with. -/
theorem booked_eq (b : Built cb c poolScript)
    (hc : classifyCoinbase cb poolScript (some c.outputs) tolerance = some kind) (hk : kind ≠ .foreign)
    (hn : c.payees.Nodup) {q : Payee} (hq : q ∈ c.payees) (hout : outputOf q ∈ c.outputs)
    (hown : ∀ x ∈ c.payees, x.script = q.script → x = q) (hp : q.script ≠ poolScript)
    (ho : isOpReturnScript q.script = false) : cb.paidTo q.script + addedFor cb c kind q =
      booked b.rescaled kind cb.totalOutputValue c.value q.sats := by
  have hpaid := b.paidTo_own hn hown hp ho
  cases kind with
  | split =>
    have hpos : 0 < cb.paidTo q.script := split_paid hc (outputOf q)
      (List.mem_filter.mpr ⟨hout, by simp [outputOf, hp, ho]⟩)
    rw [hpaid] at hpos ⊢
    split at hpos
    next hmem => rw [if_pos hmem]; rfl
    next => omega
  | partialSplit n =>
    simp only [addedFor, booked]
    rw [hpaid]
    by_cases hmem : q ∈ b.kept
    · rw [if_pos hmem]
      change b.share q + (if b.share q = 0 then q.sats else 0) =
        if b.share q = 0 then q.sats else b.share q
      split <;> omega
    · have hr : b.rescaled = false := by
        rw [← Bool.not_eq_true]
        exact fun hr => hmem (b.whole hr ▸ hq)
      simp only [if_neg hmem, placed, hr, Bool.false_eq_true, if_true, if_false, ite_self]
      omega
  | poolOnly =>
    have hzero : cb.paidTo q.script = 0 := poolOnly_unpaid hc hout hp ho
    rw [hzero, Nat.zero_add]
    rfl
  | foreign => exact absurd rfl hk

/-- A payee is never recorded and paid for more than it is booked with. -/
theorem added_le (b : Built cb c poolScript) {q : Payee} (hq : q ∈ c.payees) :
    addedFor cb c kind q ≤ booked b.rescaled kind cb.totalOutputValue c.value q.sats := by
  cases kind with
  | split => exact Nat.zero_le _
  | partialSplit n =>
    simp only [addedFor, booked]
    by_cases hmem : q ∈ b.kept
    · have hle : b.share q ≤ cb.paidTo q.script := b.share_le_paid hmem
      change _ ≤ if b.share q = 0 then q.sats else b.share q
      split <;> split <;> omega
    · have hr : b.rescaled = false := by
        rw [← Bool.not_eq_true]
        exact fun hr => hmem (b.whole hr ▸ hq)
      simp only [placed, hr, Bool.false_eq_true, if_false, ite_self]
      split <;> omega
  | poolOnly => exact Nat.le_refl _
  | foreign => exact Nat.zero_le _

theorem added_add_share_le (b : Built cb c poolScript)
    (hc : classifyCoinbase cb poolScript (some c.outputs) tolerance = some kind) {q : Payee}
    (hq : q ∈ b.kept) (hout : outputOf q ∈ c.outputs) (ho : isOpReturnScript q.script = false) :
    addedFor cb c kind q + (if q.script = poolScript then 0 else b.share q) ≤
      booked b.rescaled kind cb.totalOutputValue c.value q.sats := by
  have hle : b.share q ≤ cb.paidTo q.script := b.share_le_paid hq
  have hshare : (if q.script = poolScript then 0 else b.share q) ≤ b.share q := by split <;> omega
  cases kind with
  | split =>
    simp only [addedFor, booked, Nat.zero_add]
    exact hshare
  | partialSplit n =>
    simp only [addedFor, booked]
    change _ ≤ if b.share q = 0 then q.sats else b.share q
    by_cases hpaid : cb.paidTo q.script = 0
    · rw [if_pos hpaid, if_pos (show b.share q = 0 by omega)]
      omega
    · have hbook : b.share q ≤ if b.share q = 0 then q.sats else b.share q := by
        split <;> omega
      rw [if_neg hpaid]
      omega
  | poolOnly =>
    have hzero : (if q.script = poolScript then 0 else b.share q) = 0 := by
      split
      next => rfl
      next hp =>
        have : cb.paidTo q.script = 0 := poolOnly_unpaid hc hout hp ho
        omega
    rw [hzero, Nat.add_zero]
    exact Nat.le_refl _
  | foreign =>
    simp only [addedFor, booked, Nat.zero_add]
    exact hshare

end Built
/-- The parts of an issued list that a gateway keeps. -/
theorem kept_parts {commits : List Bytes} {s : Split} {kept : List Output}
    (h : kept.Sublist (issueOutputs poolScript commits s)) : ∃ kc kp kq,
      kept = kc ++ kp.map outputOf ++ kq ∧ kc.Sublist (commits.map fun x => ⟨0, x⟩) ∧
      kp.Sublist s.payees ∧ (∀ o ∈ kq, o.script = poolScript) ∧
      (kept = issueOutputs poolScript commits s → kp = s.payees) := by
  obtain ⟨tail, hlist, htail⟩ : ∃ tail : List Output, issueOutputs poolScript commits s =
      commits.map (⟨0, ·⟩) ++ s.payees.map outputOf ++ tail ∧ ∀ o ∈ tail, o.script = poolScript := by
    unfold issueOutputs
    dsimp only
    split
    · exact ⟨_, rfl, by simp⟩
    · exact ⟨[], by simp, by simp⟩
  rw [hlist] at h ⊢
  obtain ⟨front, kq, rfl, hfront, hkq⟩ := List.sublist_append_iff.mp h
  obtain ⟨kc, kp', rfl, hkc, hkp'⟩ := List.sublist_append_iff.mp hfront
  obtain ⟨kp, hkp, rfl⟩ := List.sublist_map_iff.mp hkp'
  refine ⟨kc, kp, kq, rfl, hkc, hkp, fun o ho => htail o (hkq.subset ho), fun heq => ?_⟩
  have hlen := congrArg List.length heq
  have hc := hkc.length_le
  have hp := hkp.length_le
  have hq := hkq.length_le
  simp only [List.length_append, List.length_map] at hlen hc
  exact hkp.eq_of_length (by omega)

end

theorem Snapshot.opReturn_isOpReturn (hash : Hash) (tag : String) :
    isOpReturnScript (Snapshot.opReturn hash tag) = true := rfl

@[simp] theorem placed_zero (rescaled : Bool) (value issuedValue : Nat) :
    placed rescaled value issuedValue 0 = 0 := by
  unfold placed scale
  split
  · split <;> simp [Machine.cast]
  · rfl

section
variable {D : Decoders} {H : Digests} {canonical : Snapshot.Doc → Bytes} {sh : Shared}
  {w : WindowView} {carry : Carry} {c : IssuedCoinbaser} {cb : Coinbase}

/-- An honest coinbase, by the payees of its list. -/
theorem Honest.built (h : Honest cb c sh.poolScript) (i : Issued D H canonical sh w carry c) :
    ∃ b : Built cb c sh.poolScript, b.rescaled = h.rescaled := by
  obtain ⟨kc, kp, kq, hkept, hkc, hkp, hkq, hall⟩ := kept_parts (i.outputs_eq ▸ h.sub)
  let place (o : Output) : TxOut := ⟨placed h.rescaled cb.totalOutputValue c.value o.sats, o.script⟩
  refine ⟨⟨h.rescaled, kp, kc.map place ++ kq.map place ++ h.rest, i.payees_eq ▸ hkp, ?_, ?_, ?_,
    h.fits⟩, rfl⟩
  · intro hr
    exact (hall (i.outputs_eq ▸ h.whole hr)).trans i.payees_eq.symm
  · refine h.outputs.trans ?_
    rw [hkept]
    simp only [List.map_append, List.map_map, List.append_assoc]
    exact List.perm_append_comm_assoc ..
  · intro o ho
    rcases List.mem_append.mp ho with ho | ho
    · rcases List.mem_append.mp ho with ho | ho
      · obtain ⟨x, hx, rfl⟩ := List.mem_map.mp ho
        obtain ⟨script, hs, rfl⟩ := List.mem_map.mp (hkc.subset hx)
        obtain ⟨hash, -, rfl⟩ := List.mem_map.mp hs
        exact .inr ⟨Snapshot.opReturn_isOpReturn _ _, placed_zero ..⟩
      · obtain ⟨x, hx, rfl⟩ := List.mem_map.mp ho
        exact .inl (hkq x hx)
    · exact h.toPool o ho

theorem Issued.output_mem (i : Issued D H canonical sh w carry c) {q : Payee} (hq : q ∈ c.payees) :
    outputOf q ∈ c.outputs := by
  have hmem : outputOf q ∈ (i.hash.toList.map fun h => Snapshot.opReturn h sh.cfg.snapshotTag).map
      (⟨0, ·⟩) ++ i.split.payees.map outputOf :=
    List.mem_append_right _ (List.mem_map_of_mem (i.payees_eq ▸ hq))
  rw [i.outputs_eq]
  unfold issueOutputs
  dsimp only
  split
  · exact List.mem_append_left _ hmem
  · exact hmem

theorem Issued.payees_nodup (hs : Started D sh) (i : Issued D H canonical sh w carry c)
    (hv : c.value < sizeU64) : c.payees.Nodup :=
  (i.phases hs hv).elim fun f => i.payees_eq ▸ (f.payees_nodup w.distinct).of_map _

theorem Issued.not_opReturn (hd : D.Documented) (hs : Started D sh)
    (i : Issued D H canonical sh w carry c) (hv : c.value < sizeU64) {q : Payee} (hq : q ∈ c.payees) :
    isOpReturnScript q.script = false :=
  (decodeScript_shape hd (decodeScript_of_toScript (i.scripted hs hv hq))).2

/-- A sum over the dropped payees is one over all of them, the others counting nothing. -/
theorem sum_droppedBy (φ : Identity → Nat → Nat) (hφ : ∀ i, φ i 0 = 0) (payees : List Payee) :
    ((droppedBy cb payees).map fun e => φ e.1 e.2).sum =
      (payees.map fun q => φ q.identity (if cb.paidTo q.script = 0 then q.sats else 0)).sum := by
  induction payees with
  | nil => rfl
  | cons q payees ih =>
    unfold droppedBy at ih ⊢
    by_cases hq : cb.paidTo q.script = 0
    · simp only [hq, decide_true, List.filter_cons_of_pos, List.map_cons, List.sum_cons, if_true, ih]
      rfl
    · simp only [hq, decide_false, Bool.false_eq_true, not_false_eq_true, List.filter_cons_of_neg,
        List.map_cons, List.sum_cons, if_false, hφ, Nat.zero_add, ih]

/-- The books of a candidate add, for each payee, what its kind of coinbase leaves it. -/
theorem sum_added {v : VerifiedShare} {books : Books} (h : booksOf D sh w v (some c) = some books)
    (hv : v.coinbaseValue = v.coinbase.totalOutputValue) (hk : v.coinbaseKind ≠ .foreign)
    (φ : Identity → Nat → Nat) (hφ : ∀ i, φ i 0 = 0) : (books.added.map fun e => φ e.1 e.2).sum =
      (c.payees.map fun q => φ q.identity (addedFor v.coinbase c v.coinbaseKind q)).sum := by
  unfold booksOf at h
  generalize v.coinbaseKind = kind at h hk ⊢
  cases kind with
  | split =>
    obtain rfl := Option.some.inj h
    simp [addedFor, hφ]
  | partialSplit n =>
    simp only [Option.bind_eq_bind, Option.bind_eq_some_iff, Option.some.injEq] at h
    obtain ⟨owed, -, rfl⟩ := h
    exact sum_droppedBy φ hφ c.payees
  | poolOnly =>
    simp only [Option.bind_eq_bind, Option.bind_eq_some_iff, Option.some.injEq] at h
    obtain ⟨owed, -, rfl⟩ := h
    simp [scaledSplit, addedFor, Function.comp_def, hv]
  | foreign => exact absurd rfl hk

theorem given_added {v : VerifiedShare} {books : Books} (h : booksOf D sh w v (some c) = some books)
    (hv : v.coinbaseValue = v.coinbase.totalOutputValue) (hk : v.coinbaseKind ≠ .foreign) :
    given books.added = (c.payees.map (addedFor v.coinbase c v.coinbaseKind)).sum :=
  sum_added h hv hk (fun _ n => n) fun _ => rfl

theorem amountOf_added {v : VerifiedShare} {books : Books} (h : booksOf D sh w v (some c) = some books)
    (hv : v.coinbaseValue = v.coinbase.totalOutputValue) (hk : v.coinbaseKind ≠ .foreign)
    (i : Identity) : amountOf i books.added = amountOf i
      (c.payees.map fun q => (q.identity, addedFor v.coinbase c v.coinbaseKind q)) := by
  refine (sum_added h hv hk (fun j n => if j = i then n else 0) fun j => by simp).trans ?_
  simp only [amountOf, List.map_map]
  rfl

end
end WaviclesPrime.Primed
