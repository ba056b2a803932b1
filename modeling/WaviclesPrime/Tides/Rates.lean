import WaviclesPrime.Tides.Accounting

/-! Who bears a fee rate: the identity it is set for, until a cap charges the whole window. -/
namespace WaviclesPrime.Tides
open Machine Apportion

/-- Two miners of equal work, all of one kind for both, the first charged `d` basis points less. -/
structure ChargedLess (p : SplitParams) (d : Nat) (a b : MinerStat) : Prop where
  work : a.work = b.work
  rates : (stratumPart a = a.work ∧ stratumPart b = b.work ∧
      (p.bpsFor a.identity).1 + d = (p.bpsFor b.identity).1) ∨
    (stratumPart a = 0 ∧ stratumPart b = 0 ∧ (p.bpsFor a.identity).2 + d = (p.bpsFor b.identity).2)

/-- What a payee is paid, without the rounding remainder a cap gives to one of them. -/
def basePay (p : SplitParams) (s : Split) (q : Payee) : Nat :=
  if 0 < p.maxPayees then (s.value - s.feeSats) * q.work / max (workOf s.payees) 1 else q.sats

/-- What `d` basis points on this work come to. -/
def rateDifference (value totalWork work d : Nat) : Nat := value * work * d / (totalWork * 10000)

/-- The miner charged less is paid the difference more, up to one sat. -/
def RateBorne (p : SplitParams) (s : Split) (work d : Nat) (qa qb : Payee) : Prop :=
  basePay p s qb + rateDifference s.value s.totalWork work d ≤ basePay p s qa + 1

section
variable {miners : List MinerStat} {totalWork value : Nat} {p : SplitParams}
  {scriptFor : Identity → Option Bytes} {s : Split} {a b : MinerStat} {d : Nat}

/-- A lower rate leaves its difference with the miner. -/
theorem ChargedLess.keepWeight_eq (hp : p.Bounded) (h : ChargedLess p d a b) :
    keepWeight p a = keepWeight p b + a.work * d := by
  have hle := hp.bpsFor_le b.identity
  have hrate (w ra rb : Nat) (hr : ra + d = rb) (hb : rb ≤ 10000) :
      w * (10000 - ra) = w * (10000 - rb) + w * d := by
    rw [← Nat.mul_add]
    congr 1
    omega
  have hw := h.work
  rcases h.rates with ⟨ha, hb, hr⟩ | ⟨ha, hb, hr⟩
  · have := hrate a.work _ _ hr hle.1
    simp only [keepWeight, datumPart, ha, hb, ← hw, Nat.sub_self, Nat.zero_mul, Nat.add_zero]
    exact this
  · have := hrate a.work _ _ hr hle.2
    simp only [keepWeight, datumPart, ha, hb, ← hw, Nat.sub_zero, Nat.zero_mul, Nat.zero_add]
    exact this

/-- The offers differ by what the rates come to. -/
theorem ChargedLess.shareOf_le (hp : p.Bounded) (h : ChargedLess p d a b) :
    shareOf p value totalWork b + rateDifference value totalWork a.work d
      ≤ shareOf p value totalWork a := by
  rw [shareOf, shareOf, rateDifference, Nat.div_div_eq_div_mul, Nat.div_div_eq_div_mul,
    h.keepWeight_eq hp, Nat.mul_add, ← Nat.mul_assoc]
  exact Nat.div_add_div_le_add_div

/-- The split of a window nobody is owed anything from. -/
def windowSplit (p : SplitParams) (value totalWork : Nat) (t : Tally) : Split :=
  settledSplit value totalWork (limited p value totalWork t) (openPurse value (limited p value totalWork t))

theorem windowSplit_payees (p : SplitParams) (value totalWork : Nat) (t : Tally) :
    (windowSplit p value totalWork t).payees = (limited p value totalWork t).payees := rfl

theorem compute_eq (h : SplitInput miners totalWork value p)
    (run : compute miners totalWork value p scriptFor = some s) :
    ∃ t, Decided p value totalWork scriptFor (counted miners totalWork) t ∧
      s = windowSplit p value totalWork t := by
  obtain ⟨t, u, -, hd, hu, rfl⟩ := computeWithCarry_cases h run
  obtain rfl : openPurse value (limited p value totalWork t) = u := Option.some.inj hu
  exact ⟨t, hd, rfl⟩

/-- A payee of the window carries the identity and work of one of its miners. -/
theorem limited_payee {done : List MinerStat} {t : Tally} (hd : Decided p value totalWork scriptFor done t)
    {q : Payee} (hq : q ∈ (limited p value totalWork t).payees) :
    ∃ m ∈ done, q.identity = m.identity ∧ q.work = m.work ∧
      (p.maxPayees = 0 → q.sats = shareOf p value totalWork m) := by
  unfold limited at hq
  split at hq
  next hc =>
    have hmem : (q.identity, q.work) ∈ (keptOf p t.payees).map fun x => (x.identity, x.work) :=
      cappedPayees_map (fun x => (x.identity, x.work)) (fun _ _ => rfl) (fun _ _ _ => rfl) _ _ ▸
        List.mem_map_of_mem (f := fun x => (x.identity, x.work)) hq
    obtain ⟨x, hx, heq⟩ := List.mem_map.mp hmem
    obtain ⟨hi, hw⟩ := Prod.mk.inj heq
    obtain ⟨m, hm, rfl⟩ := List.mem_map.mp (hd.offered.subset ((keptOf_perm_sublist p t.payees).subset hx))
    exact ⟨m, hm, hi.symm, hw.symm, fun hzero => absurd hc.1 (by omega)⟩
  next =>
    obtain ⟨m, hm, rfl⟩ := List.mem_map.mp (hd.offered.subset hq)
    exact ⟨m, hm, rfl, rfl, fun _ => rfl⟩

theorem limited_capped {t : Tally} (hc : CapApplies p t) : (limited p value totalWork t).payees =
    cappedPayees (value - cappedFee value totalWork t.feeNum) (keptOf p t.payees) := by
  rw [limited, if_pos hc]
  rfl

/-- Under a cap the base pay is the re-distribution by work, before its remainder. -/
theorem basePay_capped {t : Tally} (hc : CapApplies p t) :
    basePay p (windowSplit p value totalWork t) = fun q =>
      (value - cappedFee value totalWork t.feeNum) * q.work / max (workOf (keptOf p t.payees)) 1 := by
  funext q
  have hfee : (windowSplit p value totalWork t).feeSats = cappedFee value totalWork t.feeNum := by
    simp only [windowSplit, settledSplit, limited, if_pos hc]
    rfl
  have hwork : workOf (windowSplit p value totalWork t).payees = workOf (keptOf p t.payees) := by
    rw [windowSplit_payees, limited_capped hc]
    exact congrArg List.sum (cappedPayees_map Payee.work (fun _ _ => rfl) (fun _ _ _ => rfl) _ _)
  rw [basePay, if_pos hc.1, hfee, hwork]
  rfl

/-- What the payees are paid is their base pay, and the remainder to one of them. -/
theorem paid_base (t : Tally) : ∃ top rest, (windowSplit p value totalWork t).payees.map Payee.sats =
    ((windowSplit p value totalWork t).payees.map (basePay p (windowSplit p value totalWork t))).modify
      top (· + rest) := by
  by_cases hc : CapApplies p t
  · rw [basePay_capped hc, windowSplit_payees, limited_capped hc,
      cappedPayees_map (fun q => (value - cappedFee value totalWork t.feeNum) * q.work /
        max (workOf (keptOf p t.payees)) 1) (fun _ _ => rfl) (fun _ _ _ => rfl), cappedPayees]
    set distributed := value - cappedFee value totalWork t.feeNum
    set dust := dustOf distributed (keptOf p t.payees)
    refine ⟨topIndex (floorShares distributed (keptOf p t.payees)), dust, ?_⟩
    rw [@map_modify _ _ Payee.sats (bump dust) (· + dust) (fun _ => rfl), floorShares, List.map_map]
    rfl
  · have hpayees : (windowSplit p value totalWork t).payees = t.payees := by
      rw [windowSplit_payees, limited, if_neg hc]
    refine ⟨0, 0, ?_⟩
    rw [hpayees]
    rcases Nat.eq_zero_or_pos p.maxPayees with hzero | hpos
    · have hfun : basePay p (windowSplit p value totalWork t) = Payee.sats := by
        funext q
        rw [basePay, if_neg (by omega)]
      rw [hfun]
      exact (List.modify_id ..).symm
    · simp [payees_nil_of_uncapped hc hpos]

/-- Of two payees of equal work, the one at the lower rate is paid the difference more exactly
when no cap is set or the difference is lost in rounding anyway. -/
theorem rate_borne_iff (h : SplitInput miners totalWork value p)
    (hid : (miners.map MinerStat.identity).Nodup)
    (run : compute miners totalWork value p scriptFor = some s) :
    (∃ top rest, s.payees.map Payee.sats = (s.payees.map (basePay p s)).modify top (· + rest)) ∧
    ∀ a ∈ miners, ∀ b ∈ miners, ∀ d, ChargedLess p d a b →
      ∀ qa ∈ s.payees, ∀ qb ∈ s.payees, qa.identity = a.identity → qb.identity = b.identity →
        (RateBorne p s a.work d qa qb ↔
          p.maxPayees = 0 ∨ rateDifference value totalWork a.work d ≤ 1) := by
  obtain ⟨t, hd, rfl⟩ := compute_eq h run
  refine ⟨paid_base t, fun a ha b hb d hab qa hqa qb hqb hia hib => ?_⟩
  have hof {m : MinerStat} (hm : m ∈ miners) {q : Payee} (hi : q.identity = m.identity)
      (hq : q ∈ (limited p value totalWork t).payees) :
      q.work = m.work ∧ (p.maxPayees = 0 → q.sats = shareOf p value totalWork m) := by
    obtain ⟨x, hx, hxi, hxw⟩ := limited_payee hd hq
    obtain rfl : x = m := List.inj_on_of_nodup_map hid (counted_sublist.subset hx) hm (hxi ▸ hi)
    exact hxw
  obtain ⟨hwa, hsa⟩ := hof ha hia hqa
  obtain ⟨hwb, hsb⟩ := hof hb hib hqb
  rcases Nat.eq_zero_or_pos p.maxPayees with hzero | hpos
  · refine iff_of_true ?_ (.inl hzero)
    have hle : shareOf p value totalWork b + rateDifference value totalWork a.work d
        ≤ shareOf p value totalWork a := hab.shareOf_le h.bounded
    rw [RateBorne, basePay, basePay, if_neg (by omega), if_neg (by omega), hsa hzero, hsb hzero]
    exact Nat.le_succ_of_le hle
  · have hsame : basePay p (windowSplit p value totalWork t) qb =
        basePay p (windowSplit p value totalWork t) qa := by
      rw [basePay, basePay, if_pos hpos, if_pos hpos, hwa, hwb, hab.work]
    rw [RateBorne, hsame, Nat.add_le_add_iff_left, or_iff_right hpos.ne']
    rfl

end

/-- A fee of 1 % on every identity but one, which has 0.5 %, and a cap of `maxPayees`. -/
def promotedRate (maxPayees : Nat) : SplitParams :=
  ⟨100, 200, 1, 512, 14000, maxPayees, .insert .empty "v" 50⟩

/-- Without a cap the promotion is worth 5000 sats here. -/
theorem promotion_borne : ∃ s, compute [⟨"a", 1000, 0, 1, 0⟩, ⟨"v", 1000, 0, 1, 0⟩] 2000 2000000
    (promotedRate 0) plainScript = some s ∧ ∃ qa ∈ s.payees, ∃ qb ∈ s.payees,
      RateBorne (promotedRate 0) s 1000 50 qa qb :=
  ⟨_, rfl, ⟨"v", 1000, 995000, [118]⟩, by decide, ⟨"a", 1000, 990000, [97]⟩, by decide,
    ((@rate_borne_iff [⟨"a", 1000, 0, 1, 0⟩, ⟨"v", 1000, 0, 1, 0⟩] 2000 2000000 (promotedRate 0)
      plainScript _ (by decide) (by decide) rfl).2 ⟨"v", 1000, 0, 1, 0⟩ (by decide)
      ⟨"a", 1000, 0, 1, 0⟩ (by decide) 50 ⟨rfl, .inr (by decide)⟩ ⟨"v", 1000, 995000, [118]⟩ (by decide)
      ⟨"a", 1000, 990000, [97]⟩ (by decide) rfl rfl).mpr (.inl rfl)⟩

/-- Under a cap the two are paid the same. -/
theorem promotion_lost : SplitInput [⟨"a", 1000, 0, 1, 0⟩, ⟨"v", 1000, 0, 1, 0⟩] 2000 2000000
      (promotedRate 2) ∧
    ChargedLess (promotedRate 2) 50 ⟨"v", 1000, 0, 1, 0⟩ ⟨"a", 1000, 0, 1, 0⟩ ∧
    ∃ s, compute [⟨"a", 1000, 0, 1, 0⟩, ⟨"v", 1000, 0, 1, 0⟩] 2000 2000000 (promotedRate 2) plainScript
        = some s ∧
      s.payees = [⟨"a", 1000, 992500, [97]⟩, ⟨"v", 1000, 992500, [118]⟩] ∧
      ¬ RateBorne (promotedRate 2) s 1000 50 ⟨"v", 1000, 992500, [118]⟩ ⟨"a", 1000, 992500, [97]⟩ :=
  ⟨by decide, ⟨rfl, .inr (by decide)⟩, _, rfl, by decide, by unfold RateBorne; decide⟩

end WaviclesPrime.Tides
