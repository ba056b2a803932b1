import WaviclesPrime.Tides.Accounting

/-! The order in which a split decides: who is placed, who comes too late, and whom the carry
loop can still add. -/
namespace WaviclesPrime.Tides
open Machine

/-- A sublist of an image with distinct keys is the image of those whose key is in it. -/
theorem sublist_map_eq_filter {α β κ : Type} [DecidableEq κ] {f : α → β} (key : β → κ) {xs : List α}
    {ys : List β} (hs : ys.Sublist (xs.map f)) (hn : (xs.map fun x => key (f x)).Nodup) :
    ys = (xs.filter fun x => key (f x) ∈ ys.map key).map f := by
  induction xs generalizing ys with
  | nil => simpa using hs
  | cons x xs ih =>
    obtain ⟨hx, hxs⟩ := List.nodup_cons.mp hn
    rw [List.map_cons] at hs
    cases hs with
    | cons _ hs =>
      have hnot : key (f x) ∉ ys.map key := fun hm => hx <| by
        obtain ⟨y, hy, heq⟩ := List.mem_map.mp hm
        obtain ⟨z, hz, rfl⟩ := List.mem_map.mp (hs.subset hy)
        exact List.mem_map.mpr ⟨z, hz, heq⟩
      rw [List.filter_cons_of_neg (by simpa using hnot)]
      exact ih hs hxs
    | cons_cons _ hs =>
      rw [List.filter_cons_of_pos (by simp), List.map_cons]
      congr 1
      refine (ih hs hxs).trans (congrArg (List.map f) (List.filter_congr fun z hz => ?_))
      have hne : key (f z) ≠ key (f x) := fun heq => hx (List.mem_map.mpr ⟨z, hz, heq⟩)
      simp [hne]

/-- Two selections start with the same `n` elements when every one of those is in both, and
nothing else is selected by `G` before them. -/
theorem take_filter_congr {α : Type} {P G : α → Bool} (n : Nat) (xs : List α)
    (hboth : ∀ x ∈ (xs.filter P).take n, G x = true)
    (hlate : ∀ before x after, xs = before ++ x :: after → G x = true → P x = false →
      n ≤ (before.filter P).length) : (xs.filter G).take n = (xs.filter P).take n := by
  induction xs generalizing n with
  | nil => rfl
  | cons x xs ih =>
    cases n with
    | zero => rfl
    | succ n =>
      cases hP : P x with
      | true =>
        rw [List.filter_cons_of_pos hP, List.take_succ_cons] at hboth
        have hG : G x = true := hboth x (by simp)
        rw [List.filter_cons_of_pos hP, List.filter_cons_of_pos hG, List.take_succ_cons,
          List.take_succ_cons]
        congr 1
        refine ih n (fun y hy => hboth y (List.mem_cons_of_mem _ hy)) fun before y after heq hy hn => ?_
        have := hlate (x :: before) y after (by simp [heq]) hy hn
        rw [List.filter_cons_of_pos hP, List.length_cons] at this
        omega
      | false =>
        have hG : ¬ G x = true := fun hG => by simpa using hlate [] x xs rfl hG hP
        rw [List.filter_cons_of_neg (by simp [hP])] at hboth
        rw [List.filter_cons_of_neg hG, List.filter_cons_of_neg (by simp [hP])]
        refine ih (n + 1) hboth fun before y after heq hy hn => ?_
        have := hlate (x :: before) y after (by simp [heq]) hy hn
        rwa [List.filter_cons_of_neg (by simp [hP])] at this

section
variable {miners : List MinerStat} {totalWork value : Nat} {p : SplitParams}
  {scriptFor : Identity → Option Bytes}

/-- A miner with an offer above the floor and a script, left without an output, either did not
fit, or the list was full and nobody after it got one. -/
def Late (p : SplitParams) (value totalWork : Nat) (scriptFor : Identity → Option Bytes)
    (done : List MinerStat) (t : Tally) : Prop :=
  ∀ before m after script, done = before ++ m :: after → m.identity ∉ identities t.payees →
    p.minPayout ≤ shareOf p value totalWork m → scriptFor m.identity = some script →
    p.outputBudgetBytes < t.bytes + outputNeed script ∨
      (p.maxOutputs ≤ t.payees.length ∧ ∀ x ∈ after, x.identity ∉ identities t.payees)

private theorem Late.leave {done : List MinerStat} {t t' : Tally} {m : MinerStat}
    (h : Late p value totalWork scriptFor done t) (hp : t'.payees = t.payees) (hb : t'.bytes = t.bytes)
    (hnew : m.identity ∉ identities t.payees)
    (hm : ∀ script, p.minPayout ≤ shareOf p value totalWork m → scriptFor m.identity = some script →
      p.outputBudgetBytes < t.bytes + outputNeed script ∨ p.maxOutputs ≤ t.payees.length) :
    Late p value totalWork scriptFor (done ++ [m]) t' := by
  intro before x after script heq hx hmin hs
  rw [hp] at hx ⊢
  rw [hb]
  rcases List.eq_nil_or_concat after with rfl | ⟨rest, last, rfl⟩
  · obtain ⟨rfl, hlast⟩ := List.append_inj' heq rfl
    obtain rfl := (List.cons.inj hlast).1
    exact (hm script hmin hs).imp_right fun hfull => ⟨hfull, by simp⟩
  · rw [List.concat_eq_append, ← List.cons_append, ← List.append_assoc] at heq
    obtain ⟨rfl, hlast⟩ := List.append_inj' heq rfl
    obtain rfl := (List.cons.inj hlast).1
    refine (h before x rest script rfl hx hmin hs).imp_right fun hlate => ⟨hlate.1, fun y hy => ?_⟩
    rw [List.concat_eq_append] at hy
    rcases List.mem_append.mp hy with hy | hy
    · exact hlate.2 y hy
    · exact List.mem_singleton.mp hy ▸ hnew

private theorem Late.place {done : List MinerStat} {t t' : Tally} {m : MinerStat} {script : Bytes}
    {q : Payee} (h : Late p value totalWork scriptFor done t) (hq : q.identity = m.identity)
    (hp : t'.payees = t.payees ++ [q]) (hb : t'.bytes = t.bytes + outputNeed script)
    (hroom : t.payees.length < p.maxOutputs) :
    Late p value totalWork scriptFor (done ++ [m]) t' := by
  intro before x after script' heq hx hmin hs
  rw [hp] at hx
  simp only [identities, List.map_append, List.map_cons, List.map_nil, List.mem_append,
    List.mem_singleton, not_or, hq] at hx
  rcases List.eq_nil_or_concat after with rfl | ⟨rest, last, rfl⟩
  · obtain ⟨rfl, hlast⟩ := List.append_inj' heq rfl
    obtain rfl := (List.cons.inj hlast).1
    exact absurd rfl hx.2
  · rw [List.concat_eq_append, ← List.cons_append, ← List.append_assoc] at heq
    obtain ⟨rfl, hlast⟩ := List.append_inj' heq rfl
    rcases h before x rest script' rfl hx.1 hmin hs with hover | hfull
    · exact .inl (by omega)
    · omega

/-- The whole loop leaves nobody out for another reason. -/
theorem late_run (h : SplitInput miners totalWork value p)
    (hid : (miners.map MinerStat.identity).Nodup) {t : Tally}
    (run : miners.foldlM (addMiner p value totalWork scriptFor) .start = some t) :
    Late p value totalWork scriptFor miners t := by
  refine (Loop.run_invariant (P := fun done t => Decided p value totalWork scriptFor done t ∧
    Late p value totalWork scriptFor done t) ?_ ⟨decided_start, ?_⟩ run).2
  · intro done m t t' hpre ⟨hd, hl⟩ hstep
    have hm : m ∈ miners := hpre.subset (by simp)
    have hnd : ((done ++ [m]).map MinerStat.identity).Nodup := (hpre.sublist.map _).nodup hid
    have hnew : m.identity ∉ identities t.payees := by
      intro hmem
      have hsub : identities t.payees ⊆ done.map MinerStat.identity := by
        have := (hd.offered.map Payee.identity).subset
        simpa [List.map_map, Function.comp_def, offer, identities] using this
      rw [List.map_append] at hnd
      exact (List.disjoint_of_nodup_append hnd) (hsub hmem) (by simp)
    refine ⟨decided_step h hm hd hstep, ?_⟩
    rcases addMiner_cases h hm hstep with ⟨hlow, rfl⟩ | ⟨hmin, hs, rfl⟩ |
      ⟨script, hmin, hs, hover, rfl⟩ | ⟨script, hmin, hs, hc, hb, -, rfl⟩
    · exact hl.leave rfl rfl hnew fun script hmin _ => by omega
    · exact hl.leave rfl rfl hnew fun script _ hs' => by simp [hs] at hs'
    · refine hl.leave rfl rfl hnew fun script' _ hs' => ?_
      obtain rfl := Option.some.inj (hs.symm.trans hs')
      exact hover.symm
    · exact hl.place rfl rfl rfl hc
  · intro before m after _ heq
    simp at heq

/-- The payees of the loop are the offers of those it placed, in order. -/
theorem Decided.payees_eq {done : List MinerStat} {t : Tally}
    (h : Decided p value totalWork scriptFor done t) (hid : (done.map MinerStat.identity).Nodup) :
    t.payees = (done.filter fun m => m.identity ∈ identities t.payees).map
      (offer p value totalWork scriptFor) :=
  sublist_map_eq_filter Payee.identity h.offered (by simpa [offer] using hid)

/-- An output opened for carry alone had room on the list and in its bytes. -/
theorem Funded.newcomer_room {start u : Purse} {done : List (Identity × Nat)}
    (h : Funded p scriptFor start done u) {e : Identity × Nat}
    (he : e ∈ newcomers start.payees u.carryPaid) {script : Bytes} (hs : scriptFor e.1 = some script) :
    start.payees.length < p.maxOutputs ∧ start.bytes + outputNeed script ≤ p.outputBudgetBytes := by
  have hlen := congrArg List.length h.payees
  have hcount := h.count
  have hpos := List.length_pos_of_mem he
  simp only [List.length_append, List.length_map] at hlen
  have hneed := Apportion.le_sum_of_mem (f := fun e => outputNeed (newOutput scriptFor e).script) he
  have hbytes := h.bytes
  have hsize := h.size
  have hscript : (newOutput scriptFor e).script = script := by simp [newOutput, hs]
  rw [hscript] at hneed
  have : 0 < outputNeed script := by unfold outputNeed; omega
  omega

/-- Miners in the order a window lists them: largest work first, then by name. -/
def rankedBefore (a b : MinerStat) : Prop := b.work < a.work ∨ (a.work = b.work ∧ a.identity < b.identity)

instance : DecidableRel rankedBefore := fun a b => by unfold rankedBefore; infer_instance

/-- The loop over a ranked window pays in rank order. -/
theorem Decided.ranked {done : List MinerStat} {t : Tally}
    (h : Decided p value totalWork scriptFor done t) (hr : done.Pairwise rankedBefore) :
    t.payees.Pairwise byWork :=
  (List.pairwise_map.mpr (hr.imp fun hab => hab.imp_right fun hw => ⟨hw.1, hw.2.le⟩)).sublist h.offered

/-- Under a cap, a ranked window keeps the first payees. -/
theorem Decided.keptOf_eq {done : List MinerStat} {t : Tally}
    (h : Decided p value totalWork scriptFor done t) (hr : done.Pairwise rankedBefore) :
    keptOf p t.payees = t.payees.take p.maxPayees := by
  rw [keptOf, (h.ranked hr).insertionSort_eq]

theorem identities_limited_subset (p : SplitParams) (value totalWork : Nat) (t : Tally) :
    identities (limited p value totalWork t).payees ⊆ identities t.payees := by
  unfold limited
  split
  · change identities (cappedPayees _ _) ⊆ _
    rw [identities_cappedPayees]
    exact List.map_subset _ (keptOf_perm_sublist p t.payees).subset
  · exact List.Subset.refl _

@[simp] theorem limited_bytes (p : SplitParams) (value totalWork : Nat) (t : Tally) :
    (limited p value totalWork t).bytes = t.bytes := by
  unfold limited
  split <;> rfl

variable {carry : OrdMap Identity Nat} {s : Split}

/-- Whoever is paid though the window left it out, with an offer above the floor, came after a
full list, and the cap then made room. -/
theorem Phases.late_newcomer (f : Phases miners totalWork value p carry scriptFor s)
    (h : SplitInput miners totalWork value p) (hid : (miners.map MinerStat.identity).Nodup)
    {before after : List MinerStat} {m : MinerStat} (hm : counted miners totalWork = before ++ m :: after)
    (hmin : p.minPayout ≤ shareOf p value totalWork m) (hpaid : m.identity ∈ identities s.payees)
    (hout : m.identity ∉ identities f.tally.payees) :
    (limited p value totalWork f.tally).payees.length < f.tally.payees.length ∧
      ∀ x ∈ after, x.identity ∉ identities f.tally.payees := by
  have hcid : ((counted miners totalWork).map MinerStat.identity).Nodup :=
    (counted_sublist.map _).nodup hid
  have hlate := late_run h.counted hcid (tallyMiners_eq ▸ f.ran)
  rw [f.payees_eq, f.funded.identities_eq, List.mem_append] at hpaid
  have hnew := hpaid.resolve_left fun hx => hout (identities_limited_subset _ _ _ _ hx)
  obtain ⟨e, he, hei⟩ := List.mem_map.mp hnew
  obtain ⟨script, hs⟩ := Option.isSome_iff_exists.mp (f.funded.scripted e he).2
  obtain ⟨hcount, hsize⟩ := f.funded.newcomer_room he hs
  simp only [openPurse, limited_bytes] at hcount hsize
  rcases hlate before m after script hm hout hmin (hei ▸ hs) with hover | ⟨hfull, hafter⟩
  · omega
  · exact ⟨by omega, hafter⟩

end
end WaviclesPrime.Tides
