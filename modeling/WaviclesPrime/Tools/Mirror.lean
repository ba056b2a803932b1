import WaviclesPrime.Tools.Window

/-! The verifier's carry loop runs beside the split's, whatever amounts the lines started from. -/
namespace WaviclesPrime.Tools
open Machine Tides Primed Primed.Snapshot

def lineIds (lines : List Line) : List Identity := lines.map Line.identity

def topUpLine (es : List (Identity × Nat)) (q : Line) : Line := q.add (amountOf q.identity es)

@[simp] theorem topUpLine_nil : topUpLine [] = id := by funext q; simp [topUpLine, Line.add]

def newLine (scriptFor : Identity → Option Bytes) (e : Identity × Nat) : Line :=
  lineOf (newOutput scriptFor e)

theorem hitLine_none {i : Identity} {give : Nat} {lines : List Line} (h : i ∉ lineIds lines) :
    hitLine i give lines = none := by
  induction lines with
  | nil => rfl
  | cons q rest ih =>
    simp only [lineIds, List.map_cons, List.mem_cons, not_or] at h
    rw [hitLine, if_neg (Ne.symm h.1), ih h.2, Option.map_none]

theorem hitLine_some {i : Identity} {lines : List Line} (hn : (lineIds lines).Nodup)
    (h : i ∈ lineIds lines) (give : Nat) (rest : List Line) : hitLine i give (lines ++ rest) =
      some (lines.map (fun q => if q.identity = i then q.add give else q) ++ rest) := by
  induction lines with
  | nil => simp [lineIds] at h
  | cons q lines ih =>
    obtain ⟨hq, hlines⟩ := List.nodup_cons.mp hn
    rw [List.cons_append, hitLine]
    by_cases hqi : q.identity = i
    · have hsame : lines.map (fun q => if q.identity = i then q.add give else q) = lines :=
        (List.map_congr_left fun x hx => if_neg fun heq : x.identity = i =>
          hq (hqi.trans heq.symm ▸ List.mem_map_of_mem hx)).trans (List.map_id _)
      rw [if_pos hqi, List.map_cons, if_pos hqi, hsame, List.cons_append]
    · have hi : i ∈ lineIds lines := (List.mem_cons.mp h).resolve_left (Ne.symm hqi)
      rw [if_neg hqi, ih hlines hi, List.map_cons, if_neg hqi]
      rfl

theorem topUpLine_snoc (es : List (Identity × Nat)) (i : Identity) (give : Nat) (q : Line) :
    (if (topUpLine es q).identity = i then (topUpLine es q).add give else topUpLine es q) =
      topUpLine (es ++ [(i, give)]) q := by
  unfold topUpLine Line.add
  by_cases h : q.identity = i
  · simp [h, Nat.add_assoc]
  · simp [h, Ne.symm h]

section
variable {p : SplitParams} {scriptFor : Identity → Option Bytes} {start : Purse} {base : List Line}

/-- The verifier's state beside a purse, over its own first lines. -/
def mirror (scriptFor : Identity → Option Bytes) (start : Purse) (base : List Line) (u : Purse) : Till where
  payees := base.map (topUpLine u.carryPaid) ++
    (newcomers start.payees u.carryPaid).map (newLine scriptFor)
  paid := u.paid
  room := u.room

theorem lineIds_mirror {done : List (Identity × Nat)} {u : Purse}
    (hb : lineIds base = identities start.payees) (h : Funded p scriptFor start done u) :
    lineIds (mirror scriptFor start base u).payees = identities u.payees := by
  rw [h.identities_eq, ← hb]
  simp [mirror, lineIds, Function.comp_def, topUpLine, Line.add, newLine, lineOf, newOutput]

/-- The loop only adds payments, to identities it still has to go through. -/
theorem payCarry_extends {entries : List (Identity × Nat)} {done : List (Identity × Nat)} {u uf : Purse}
    (hs : (identities start.payees).Nodup) (hd : ((done ++ entries).map Prod.fst).Nodup)
    (h : Funded p scriptFor start done u) (run : Tides.payCarry p scriptFor entries u = some uf) :
    ∃ more, uf.carryPaid = u.carryPaid ++ more ∧ (more.map Prod.fst) ⊆ entries.map Prod.fst := by
  induction entries generalizing done u with
  | nil => exact ⟨[], by simp [Option.some.inj (run : some u = some uf)], by simp⟩
  | cons e entries ih =>
    obtain ⟨i, owed⟩ := e
    obtain ⟨hsnoc, hrest, hdone⟩ := nodup_snoc hd
    rcases payCarry_cons (h.nodup hs hdone) run with ⟨-, rfl⟩ | ⟨hroom, next, ht, run⟩
    · exact ⟨[], by simp, by simp⟩
    · obtain ⟨more, heq, hsub⟩ := ih hrest (h.turn hs hsnoc hroom ht) run
      have hcons : more.map Prod.fst ⊆ ((i, owed) :: entries).map Prod.fst :=
        fun _ hx => List.mem_cons_of_mem _ (hsub hx)
      cases ht with
      | idle => exact ⟨more, heq, hcons⟩
      | skipped => exact ⟨more, heq, hcons⟩
      | topped => exact ⟨(i, min owed u.room) :: more, by simp [heq, Purse.booked, Purse.credited],
          List.cons_subset_cons _ hsub⟩
      | opened => exact ⟨(i, min owed u.room) :: more, by simp [heq, Purse.booked, Purse.opened],
          List.cons_subset_cons _ hsub⟩

/-- Nobody the loop has passed without an output ends up with one. -/
theorem passed_over {entries : List (Identity × Nat)} {done : List (Identity × Nat)} {u uf : Purse}
    (hs : (identities start.payees).Nodup) (hd : ((done ++ entries).map Prod.fst).Nodup)
    (h : Funded p scriptFor start done u) (run : Tides.payCarry p scriptFor entries u = some uf)
    {i : Identity} (hi : i ∈ done.map Prod.fst) (hu : i ∉ identities u.payees) :
    i ∉ identities uf.payees := by
  obtain ⟨more, heq, hsub⟩ := payCarry_extends hs hd h run
  have hf := payCarry_funded hs entries done hd h run
  rw [h.identities_eq, List.mem_append, not_or] at hu
  rw [hf.identities_eq, List.mem_append, not_or]
  refine ⟨hu.1, fun hm => ?_⟩
  obtain ⟨e, he, rfl⟩ := List.mem_map.mp hm
  rw [newcomers, heq, List.filter_append, List.mem_append] at he
  rcases he with he | he
  · exact hu.2 (List.mem_map_of_mem he)
  · have hlate := hsub (List.mem_map_of_mem (List.mem_filter.mp he).1)
    rw [List.map_append] at hd
    exact List.disjoint_of_nodup_append hd hi hlate

/-- Whoever has an output keeps it. -/
theorem kept_output {entries : List (Identity × Nat)} {done : List (Identity × Nat)} {u uf : Purse}
    (hs : (identities start.payees).Nodup) (hd : ((done ++ entries).map Prod.fst).Nodup)
    (h : Funded p scriptFor start done u) (run : Tides.payCarry p scriptFor entries u = some uf)
    {i : Identity} (hu : i ∈ identities u.payees) : i ∈ identities uf.payees := by
  obtain ⟨more, heq, -⟩ := payCarry_extends hs hd h run
  have hf := payCarry_funded hs entries done hd h run
  rw [h.identities_eq, List.mem_append] at hu
  rw [hf.identities_eq, List.mem_append, newcomers, heq, List.filter_append, List.map_append,
    List.mem_append]
  exact hu.imp_right .inl

/-- A top-up of one of the first lines, on both sides. -/
theorem mirror_credited (hs : (identities start.payees).Nodup) (hb : lineIds base = identities start.payees)
    {i : Identity} (hi : i ∈ identities start.payees) (u : Purse) (give : Nat) :
    hitLine i give (mirror scriptFor start base u).payees =
      some (mirror scriptFor start base ((u.credited i give).booked i give)).payees := by
  have hbase : lineIds (base.map (topUpLine u.carryPaid)) = lineIds base := by
    simp [lineIds, Function.comp_def, topUpLine, Line.add]
  have hids : (lineIds (base.map (topUpLine u.carryPaid))).Nodup := by rw [hbase, hb]; exact hs
  have hhit := hitLine_some hids (by rw [hbase, hb]; exact hi) give
    ((newcomers start.payees u.carryPaid).map (newLine scriptFor))
  rw [List.map_map, Function.comp_def] at hhit
  simp only [topUpLine_snoc] at hhit
  simpa [mirror, Purse.booked, Purse.credited, newcomers_snoc_mem hi] using hhit

/-- A new output, on both sides. -/
theorem mirror_opened (hb : lineIds base = identities start.payees) {i : Identity} {script : Bytes}
    (hi : i ∉ identities start.payees) (hsc : scriptFor i = some script) (u : Purse) (give : Nat) :
    (mirror scriptFor start base ((u.opened i give script).booked i give)).payees =
      (mirror scriptFor start base u).payees ++ [⟨i, give, hexEncode script⟩] := by
  have hsame : base.map (topUpLine (u.carryPaid ++ [(i, give)])) = base.map (topUpLine u.carryPaid) := by
    refine List.map_congr_left fun q hq => ?_
    have hne : i ≠ q.identity := fun heq => hi (hb ▸ heq ▸ List.mem_map_of_mem hq)
    simp [topUpLine, hne]
  simp only [mirror, Purse.booked, Purse.opened, newcomers_snoc_notMem hi, hsame, List.map_append,
    List.map_cons, List.map_nil, List.append_assoc]
  simp [newLine, lineOf, newOutput, hsc]

/-- Step by step the verifier pays the same carry to the same identities. -/
theorem payCarry_mirror {scriptOf : Identity → Option String} (hs : (identities start.payees).Nodup)
    (hb : lineIds base = identities start.payees) {uf : Purse}
    (hinf : Inferred scriptFor scriptOf (identities uf.payees)) (entries done : List (Identity × Nat))
    (hd : ((done ++ entries).map Prod.fst).Nodup) {u : Purse} (h : Funded p scriptFor start done u)
    (run : Tides.payCarry p scriptFor entries u = some uf) :
    payCarry p.minPayout scriptOf entries (mirror scriptFor start base u) =
      mirror scriptFor start base uf := by
  induction entries generalizing done u with
  | nil => rw [← Option.some.inj (run : some u = some uf)]; rfl
  | cons e entries ih =>
    obtain ⟨i, owed⟩ := e
    obtain ⟨hsnoc, hrest, hdone⟩ := nodup_snoc hd
    have hn := h.nodup hs hdone
    have hids := lineIds_mirror hb h
    have hiDone : i ∈ (done ++ [(i, owed)]).map Prod.fst := by simp
    rcases payCarry_cons hn run with ⟨hroom, rfl⟩ | ⟨hroom, next, ht, run⟩
    · rw [payCarry, if_pos (show (mirror scriptFor start base uf).room = 0 from hroom)]
    · have hf := h.turn hs hsnoc hroom ht
      have hnext := ih (done ++ [(i, owed)]) hrest hf run
      rw [payCarry, if_neg (show (mirror scriptFor start base u).room ≠ 0 from hroom.ne')]
      cases ht with
      | idle hzero => rw [if_pos hzero]; exact hnext
      | skipped howed hi =>
        rw [if_neg howed.ne']
        simp only [hitLine_none (hids ▸ hi)]
        split
        · exact hnext
        · rw [(hinf i).2 (passed_over hs hrest hf run hiDone hi)]
          exact hnext
      | topped howed hi =>
        have his : i ∈ identities start.payees := by
          have hnot : i ∉ done.map Prod.fst := by
            rw [List.map_append] at hsnoc
            exact fun hx => List.disjoint_of_nodup_append hsnoc hx (by simp)
          rw [h.identities_eq, List.mem_append] at hi
          refine hi.resolve_right fun hm => hnot ?_
          exact h.keys.subset ((List.filter_sublist.map _).subset hm)
        have hroom' : (mirror scriptFor start base u).room = u.room := rfl
        rw [if_neg howed.ne']
        dsimp only
        rw [hroom', mirror_credited hs hb his]
        exact hnext
      | opened script howed hi hmin hsc hcount hsize =>
        have hfinal : i ∈ identities uf.payees :=
          kept_output hs hrest hf run (by simp [identities, Purse.booked, Purse.opened])
        obtain ⟨script', hs', ho⟩ := (hinf i).1 hfinal
        obtain rfl := Option.some.inj (hsc.symm.trans hs')
        have his : i ∉ identities start.payees := fun hx => hi (by
          rw [h.identities_eq, List.mem_append]; exact .inl hx)
        have hroom' : (mirror scriptFor start base u).room = u.room := rfl
        rw [if_neg howed.ne']
        simp only [hitLine_none (hids ▸ hi)]
        rw [hroom', if_neg (Nat.not_lt.mpr hmin), ho]
        dsimp only
        rw [← mirror_opened hb his hsc]
        exact hnext

end
end WaviclesPrime.Tools
