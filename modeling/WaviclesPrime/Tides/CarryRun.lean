import WaviclesPrime.Tides.Cap

/-! The carry loop: who is topped up, who gets a new output, and what funds it. -/
namespace WaviclesPrime.Tides
open Machine Apportion

def identities (payees : List Payee) : List Identity := payees.map Payee.identity

/-- What a list of payments gives one identity. -/
def amountOf (i : Identity) (es : List (Identity × Nat)) : Nat :=
  (es.map fun e => if e.1 = i then e.2 else 0).sum

def given (es : List (Identity × Nat)) : Nat := (es.map Prod.snd).sum

def credit (i : Identity) (give : Nat) (q : Payee) : Payee :=
  if q.identity = i then { q with sats := q.sats + give } else q

def topUp (es : List (Identity × Nat)) (q : Payee) : Payee :=
  { q with sats := q.sats + amountOf q.identity es }

/-- The output of an identity that is paid carry only. -/
def newOutput (scriptFor : Identity → Option Bytes) (e : Identity × Nat) : Payee :=
  ⟨e.1, 0, e.2, (scriptFor e.1).getD []⟩

/-- Payments to identities that had no output. -/
def newcomers (payees : List Payee) (es : List (Identity × Nat)) : List (Identity × Nat) :=
  es.filter fun e => e.1 ∉ identities payees

@[simp] theorem amountOf_nil (i : Identity) : amountOf i [] = 0 := rfl

@[simp] theorem amountOf_append (i : Identity) (xs ys : List (Identity × Nat)) :
    amountOf i (xs ++ ys) = amountOf i xs + amountOf i ys := by simp [amountOf]

@[simp] theorem amountOf_single (i j : Identity) (n : Nat) :
    amountOf i [(j, n)] = if j = i then n else 0 := by simp [amountOf]

theorem amountOf_of_notMem {i : Identity} {es : List (Identity × Nat)}
    (h : i ∉ es.map Prod.fst) : amountOf i es = 0 := by
  induction es with
  | nil => rfl
  | cons e es ih =>
    simp only [List.map_cons, List.mem_cons, not_or] at h
    have := ih h.2
    simp only [amountOf, List.map_cons, List.sum_cons, if_neg (Ne.symm h.1)] at this ⊢
    omega

theorem amountOf_of_mem {e : Identity × Nat} {es : List (Identity × Nat)}
    (hn : (es.map Prod.fst).Nodup) (h : e ∈ es) : amountOf e.1 es = e.2 := by
  induction es with
  | nil => simp at h
  | cons x es ih =>
    obtain ⟨hx, hes⟩ := List.nodup_cons.mp hn
    rcases List.mem_cons.mp h with rfl | h
    · have := amountOf_of_notMem hx
      simp only [amountOf, List.map_cons, List.sum_cons, if_true] at this ⊢
      omega
    · have hne : x.1 ≠ e.1 := fun heq => hx (heq ▸ List.mem_map_of_mem h)
      have := ih hes h
      simp only [amountOf, List.map_cons, List.sum_cons, if_neg hne] at this ⊢
      omega

@[simp] theorem identities_map {f : Payee → Payee} (hf : ∀ q, (f q).identity = q.identity)
    (payees : List Payee) : identities (payees.map f) = identities payees := by
  simp [identities, Function.comp_def, hf]

@[simp] theorem credit_identity (i : Identity) (g : Nat) (q : Payee) :
    (credit i g q).identity = q.identity := by unfold credit; split <;> rfl

@[simp] theorem topUp_identity (es : List (Identity × Nat)) (q : Payee) :
    (topUp es q).identity = q.identity := rfl

@[simp] theorem topUp_nil : topUp [] = id := by funext q; simp [topUp]

theorem credit_topUp (es : List (Identity × Nat)) (i : Identity) (g : Nat) (q : Payee) :
    credit i g (topUp es q) = topUp (es ++ [(i, g)]) q := by
  unfold credit topUp
  by_cases h : q.identity = i
  · simp [h, Nat.add_assoc]
  · simp [h, Ne.symm h]

theorem credit_map_of_notMem {i : Identity} {g : Nat} {payees : List Payee}
    (h : i ∉ identities payees) : payees.map (credit i g) = payees :=
  (List.map_congr_left fun q hq => if_neg fun heq : q.identity = i =>
    h (heq ▸ List.mem_map_of_mem hq)).trans (List.map_id _)

theorem sum_map_credit {i : Identity} {g : Nat} {payees : List Payee}
    (hn : (identities payees).Nodup) (h : i ∈ identities payees) :
    ((payees.map (credit i g)).map Payee.sats).sum = (payees.map Payee.sats).sum + g := by
  induction payees with
  | nil => simp [identities] at h
  | cons q rest ih =>
    obtain ⟨hq, hrest⟩ := List.nodup_cons.mp hn
    simp only [List.map_cons, List.sum_cons]
    by_cases hqi : q.identity = i
    · rw [credit_map_of_notMem (hqi ▸ hq), credit, if_pos hqi]
      dsimp only
      omega
    · have hi : i ∈ identities rest := (List.mem_cons.mp h).resolve_left (Ne.symm hqi)
      rw [ih hrest hi, credit, if_neg hqi]
      omega

/-- A top-up is of the first output of the identity. -/
theorem giveTo_cases {i : Identity} {g : Nat} {payees : List Payee} {r : Option (List Payee)}
    (h : giveTo i g payees = some r) :
    (i ∉ identities payees ∧ r = none) ∨
    ∃ before q after, payees = before ++ q :: after ∧ i ∉ identities before ∧ q.identity = i ∧
      r = some (before ++ { q with sats := q.sats + g } :: after) := by
  induction payees generalizing r with
  | nil => exact .inl ⟨by simp [identities], (Option.some.inj h).symm⟩
  | cons q rest ih =>
    unfold giveTo at h
    split at h
    next hq =>
      simp only [Option.bind_eq_bind, Option.bind_eq_some_iff, checkedAdd_eq_some,
        Option.some.injEq] at h
      obtain ⟨_, ⟨_, rfl⟩, rfl⟩ := h
      exact .inr ⟨[], q, rest, rfl, by simp [identities], hq, rfl⟩
    next hq =>
      simp only [Option.bind_eq_bind, Option.bind_eq_some_iff, Option.some.injEq] at h
      obtain ⟨found, hf, rfl⟩ := h
      rcases ih hf with ⟨hi, rfl⟩ | ⟨before, x, after, rfl, hi, hx, rfl⟩
      · exact .inl ⟨by simpa [identities, Ne.symm hq] using hi, rfl⟩
      · exact .inr ⟨q :: before, x, after, rfl, by simpa [identities, Ne.symm hq] using hi, hx, rfl⟩

theorem giveTo_eq {i : Identity} {g : Nat} {payees : List Payee} (hn : (identities payees).Nodup)
    {r : Option (List Payee)} (h : giveTo i g payees = some r) :
    r = if i ∈ identities payees then some (payees.map (credit i g)) else none := by
  rcases giveTo_cases h with ⟨hi, rfl⟩ | ⟨before, q, after, rfl, hbefore, rfl, rfl⟩
  · rw [if_neg hi]
  · have hafter : q.identity ∉ identities after := by
      simp only [identities, List.map_append, List.map_cons] at hn
      exact (List.nodup_cons.mp hn.of_append_right).1
    rw [if_pos (by simp [identities]), List.map_append, List.map_cons,
      credit_map_of_notMem hbefore, credit_map_of_notMem hafter, credit, if_pos rfl]

theorem giveTo_total {i : Identity} {g : Nat} {payees : List Payee}
    (h : ∀ q ∈ payees, q.sats + g < sizeU64) : ∃ r, giveTo i g payees = some r := by
  induction payees with
  | nil => exact ⟨none, rfl⟩
  | cons q rest ih =>
    obtain ⟨r, hr⟩ := ih fun x hx => h x (by simp [hx])
    have hfit : checkedAdd sizeU64 q.sats g = some (q.sats + g) := by simp [h q (by simp)]
    unfold giveTo
    split
    · exact ⟨_, by rw [hfit]; rfl⟩
    · exact ⟨_, by rw [hr]; rfl⟩

/-- The purse after a payment to an identity that has an output. -/
def Purse.credited (u : Purse) (i : Identity) (give : Nat) : Purse :=
  { u with payees := u.payees.map (credit i give) }

/-- The purse after opening an output. -/
def Purse.opened (u : Purse) (i : Identity) (give : Nat) (script : Bytes) : Purse :=
  { u with bytes := u.bytes + outputNeed script, payees := u.payees ++ [⟨i, 0, give, script⟩] }

section
variable {p : SplitParams} {scriptFor : Identity → Option Bytes}

/-- Everything one placement can do. -/
theorem placeCarry_cases {u : Purse} {i : Identity} {give : Nat} {r : Option Purse}
    (h : placeCarry p scriptFor u i give = some r) :
    (∃ ys, i ∈ identities u.payees ∧ giveTo i give u.payees = some (some ys) ∧
      r = some { u with payees := ys }) ∨
    (i ∉ identities u.payees ∧ r = none ∧ ¬ (p.minPayout ≤ give ∧ u.payees.length < p.maxOutputs ∧
      ∃ script ∈ scriptFor i, u.bytes + outputNeed script ≤ p.outputBudgetBytes)) ∨
    (∃ script, i ∉ identities u.payees ∧ p.minPayout ≤ give ∧ scriptFor i = some script ∧
      u.payees.length < p.maxOutputs ∧ u.bytes + outputNeed script ≤ p.outputBudgetBytes ∧
      r = some (u.opened i give script)) := by
  simp only [placeCarry, Option.bind_eq_bind, Option.bind_eq_some_iff] at h
  obtain ⟨found, hf, h⟩ := h
  rcases giveTo_cases hf with ⟨hi, rfl⟩ | ⟨before, q, after, hp, -, hq, rfl⟩
  · refine .inr ?_
    dsimp only at h
    split at h
    next hmin => exact .inl ⟨hi, (Option.some.inj h).symm, fun hc => by omega⟩
    next hmin =>
      split at h
      next hs => exact .inl ⟨hi, (Option.some.inj h).symm, by simp [hs]⟩
      next script hs =>
        split at h
        next hfull => exact .inl ⟨hi, (Option.some.inj h).symm, by
          rintro ⟨_, hcount, other, hother, hsize⟩
          obtain rfl : script = other := Option.some.inj (hs.symm.trans hother)
          omega⟩
        next hroom =>
          rw [not_or, Nat.not_le, Nat.not_lt] at hroom
          exact .inr ⟨script, hi, Nat.le_of_not_lt hmin, hs, hroom.1, hroom.2,
            (Option.some.inj h).symm⟩
  · exact .inl ⟨_, by simp [hp, identities, hq], hf, (Option.some.inj h).symm⟩

theorem placeCarry_total {u : Purse} {i : Identity} {give : Nat}
    (h : ∀ q ∈ u.payees, q.sats + give < sizeU64) :
    ∃ r, placeCarry p scriptFor u i give = some r := by
  obtain ⟨found, hf⟩ := giveTo_total (i := i) h
  simp only [placeCarry, hf, Option.bind_eq_bind, Option.bind_some]
  repeat' split
  all_goals exact ⟨_, rfl⟩

/-- The carry loop has gone through `done`, starting from `start`. -/
structure Funded (p : SplitParams) (scriptFor : Identity → Option Bytes) (start : Purse)
    (done : List (Identity × Nat)) (u : Purse) : Prop where
  paid : u.paid = start.paid + given u.carryPaid
  sats : (u.payees.map Payee.sats).sum = (start.payees.map Payee.sats).sum + given u.carryPaid
  room : u.room + given u.carryPaid = start.room
  payees : u.payees = start.payees.map (topUp u.carryPaid) ++
    (newcomers start.payees u.carryPaid).map (newOutput scriptFor)
  keys : (u.carryPaid.map Prod.fst).Sublist (done.map Prod.fst)
  owed : ∀ e ∈ u.carryPaid, 0 < e.2 ∧ ∃ owed, (e.1, owed) ∈ done ∧ e.2 ≤ owed
  scripted : ∀ e ∈ newcomers start.payees u.carryPaid,
    p.minPayout ≤ e.2 ∧ (scriptFor e.1).isSome
  bytes : u.bytes = start.bytes +
    ((newcomers start.payees u.carryPaid).map fun e => outputNeed (newOutput scriptFor e).script).sum
  count : u.payees.length ≤ max start.payees.length p.maxOutputs
  size : u.bytes ≤ max start.bytes p.outputBudgetBytes

theorem funded_start (start : Purse) (h : start.carryPaid = []) :
    Funded p scriptFor start [] start where
  paid := by simp [h, given]
  sats := by simp [h, given]
  room := by simp [h, given]
  payees := by simp [h, newcomers]
  keys := by simp [h]
  owed := by simp [h]
  scripted := by simp [h, newcomers]
  bytes := by simp [h, newcomers]
  count := Nat.le_max_left _ _
  size := Nat.le_max_left _ _

theorem Funded.mono {start u : Purse} {done more : List (Identity × Nat)}
    (h : Funded p scriptFor start done u) : Funded p scriptFor start (done ++ more) u where
  __ := h
  keys := by
    rw [List.map_append]
    exact h.keys.trans (List.sublist_append_left ..)
  owed := fun e he => by
    obtain ⟨hpos, owed, hm, hle⟩ := h.owed e he
    exact ⟨hpos, owed, List.mem_append_left _ hm, hle⟩

theorem Funded.identities_eq {start u : Purse} {done : List (Identity × Nat)}
    (h : Funded p scriptFor start done u) : identities u.payees =
      identities start.payees ++ (newcomers start.payees u.carryPaid).map Prod.fst := by
  rw [h.payees]
  simp [identities, Function.comp_def, newOutput]

/-- Every identity keeps one output. -/
theorem Funded.nodup {start u : Purse} {done : List (Identity × Nat)}
    (h : Funded p scriptFor start done u) (hs : (identities start.payees).Nodup)
    (hd : (done.map Prod.fst).Nodup) : (identities u.payees).Nodup := by
  rw [h.identities_eq]
  refine hs.append ((h.keys.nodup hd).sublist (List.filter_sublist.map _)) ?_
  intro i hi hm
  obtain ⟨e, he, rfl⟩ := List.mem_map.mp hm
  exact (of_decide_eq_true (List.mem_filter.mp he).2) hi

/-- The purse after the books record a payment. -/
def Purse.booked (u : Purse) (i : Identity) (give : Nat) : Purse :=
  { u with paid := u.paid + give, room := u.room - give, carryPaid := u.carryPaid ++ [(i, give)] }

theorem Purse.book_eq {u u' : Purse} {i : Identity} {give : Nat} (h : u.book i give = some u') :
    give ≤ u.room ∧ u' = u.booked i give := by
  simp only [Purse.book, Option.bind_eq_bind, Option.bind_eq_some_iff, checkedAdd_eq_some,
    checkedSub_eq_some] at h
  obtain ⟨_, ⟨_, rfl⟩, _, ⟨hle, rfl⟩, h⟩ := h
  exact ⟨hle, (Option.some.inj h).symm⟩

@[simp] theorem given_snoc (es : List (Identity × Nat)) (e : Identity × Nat) :
    given (es ++ [e]) = given es + e.2 := by simp [given]

theorem newcomers_snoc_mem {payees : List Payee} {es : List (Identity × Nat)} {i : Identity}
    {g : Nat} (h : i ∈ identities payees) :
    newcomers payees (es ++ [(i, g)]) = newcomers payees es := by
  simp [newcomers, List.filter_append, h]

theorem newcomers_snoc_notMem {payees : List Payee} {es : List (Identity × Nat)} {i : Identity}
    {g : Nat} (h : i ∉ identities payees) :
    newcomers payees (es ++ [(i, g)]) = newcomers payees es ++ [(i, g)] := by
  simp [newcomers, List.filter_append, h]

/-- An entry not seen before can only be credited to an output that was there at the start. -/
private theorem Funded.mem_start {start u : Purse} {done : List (Identity × Nat)} {i : Identity}
    (h : Funded p scriptFor start done u) (hi : i ∉ done.map Prod.fst) :
    i ∈ identities u.payees ↔ i ∈ identities start.payees := by
  rw [h.identities_eq, List.mem_append, or_iff_left]
  exact fun hm => hi (h.keys.subset ((List.filter_sublist.map _).subset hm))

section
variable {start u : Purse} {done : List (Identity × Nat)} {i : Identity} {owed give : Nat}

private theorem Funded.keys_snoc (h : Funded p scriptFor start done u) :
    ((u.carryPaid ++ [(i, give)]).map Prod.fst).Sublist ((done ++ [(i, owed)]).map Prod.fst) := by
  simp only [List.map_append, List.map_cons, List.map_nil]
  exact h.keys.append (List.Sublist.refl [i])

private theorem Funded.owed_snoc (h : Funded p scriptFor start done u)
    (hgive : 0 < give ∧ give ≤ owed) : ∀ e ∈ u.carryPaid ++ [(i, give)],
      0 < e.2 ∧ ∃ w, (e.1, w) ∈ done ++ [(i, owed)] ∧ e.2 ≤ w := by
  intro e he
  rcases List.mem_append.mp he with he | he
  · exact h.mono.owed e he
  · obtain rfl := List.mem_singleton.mp he
    exact ⟨hgive.1, owed, by simp, hgive.2⟩

/-- A payment to an identity that had an output before the loop. -/
private theorem Funded.top (h : Funded p scriptFor start done u)
    (hn : (identities u.payees).Nodup) (hi : i ∈ identities u.payees)
    (his : i ∈ identities start.payees) (hgive : 0 < give ∧ give ≤ owed) (hle : give ≤ u.room) :
    Funded p scriptFor start (done ++ [(i, owed)]) ((u.credited i give).booked i give) where
  paid := by simp [Purse.booked, Purse.credited, h.paid, Nat.add_assoc]
  sats := by
    have := sum_map_credit (g := give) hn hi
    simp only [Purse.booked, Purse.credited, given_snoc, this, h.sats, Nat.add_assoc]
  room := by
    have := h.room
    simp only [Purse.booked, Purse.credited, given_snoc]
    omega
  payees := by
    simp only [Purse.booked, Purse.credited, newcomers_snoc_mem his]
    rw [h.payees, List.map_append, List.map_map]
    congr 1
    · exact List.map_congr_left fun q _ => credit_topUp _ _ _ q
    · refine credit_map_of_notMem fun hm => ?_
      obtain ⟨_, hq, rfl⟩ := List.mem_map.mp hm
      obtain ⟨e, he, rfl⟩ := List.mem_map.mp hq
      exact (of_decide_eq_true (List.mem_filter.mp he).2) his
  keys := h.keys_snoc
  owed := h.owed_snoc hgive
  scripted := by
    simp only [Purse.booked, Purse.credited, newcomers_snoc_mem his]
    exact h.scripted
  bytes := by
    simp only [Purse.booked, Purse.credited, newcomers_snoc_mem his]
    exact h.bytes
  count := by simpa [Purse.booked, Purse.credited] using h.count
  size := h.size

/-- A payment that opens an output. -/
private theorem Funded.new {script : Bytes} (h : Funded p scriptFor start done u)
    (his : i ∉ identities start.payees) (hgive : 0 < give ∧ give ≤ owed) (hle : give ≤ u.room)
    (hmin : p.minPayout ≤ give) (hsc : scriptFor i = some script)
    (hcount : u.payees.length < p.maxOutputs)
    (hsize : u.bytes + outputNeed script ≤ p.outputBudgetBytes) :
    Funded p scriptFor start (done ++ [(i, owed)]) ((u.opened i give script).booked i give) where
  paid := by simp [Purse.booked, Purse.opened, h.paid, Nat.add_assoc]
  sats := by simp [Purse.booked, Purse.opened, h.sats, Nat.add_assoc]
  room := by
    have := h.room
    simp only [Purse.booked, Purse.opened, given_snoc]
    omega
  payees := by
    simp only [Purse.booked, Purse.opened, newcomers_snoc_notMem his]
    rw [h.payees, List.map_append, List.append_assoc]
    congr 1
    · refine List.map_congr_left fun q hq => ?_
      have hne : i ≠ q.identity := fun heq => his (heq ▸ List.mem_map_of_mem hq)
      simp [topUp, hne]
    · simp [newOutput, hsc]
  keys := h.keys_snoc
  owed := h.owed_snoc hgive
  scripted := by
    simp only [Purse.booked, Purse.opened, newcomers_snoc_notMem his]
    intro e he
    rcases List.mem_append.mp he with he | he
    · exact h.scripted e he
    · obtain rfl := List.mem_singleton.mp he
      exact ⟨hmin, by simp [hsc]⟩
  bytes := by
    simp [Purse.booked, Purse.opened, newcomers_snoc_notMem his, h.bytes, newOutput, hsc,
      Nat.add_assoc]
  count := by
    have := h.count
    simp only [Purse.booked, Purse.opened, List.length_append, List.length_singleton]
    omega
  size := by
    simp only [Purse.booked, Purse.opened]
    omega

/-- One turn of the carry loop, taken with room left. -/
inductive CarryTurn (p : SplitParams) (scriptFor : Identity → Option Bytes) (i : Identity)
    (owed : Nat) (u : Purse) : Purse → Prop where
  | idle : owed = 0 → CarryTurn p scriptFor i owed u u
  | skipped : 0 < owed → i ∉ identities u.payees → CarryTurn p scriptFor i owed u u
  | topped : 0 < owed → i ∈ identities u.payees →
      CarryTurn p scriptFor i owed u ((u.credited i (min owed u.room)).booked i (min owed u.room))
  | opened (script : Bytes) : 0 < owed → i ∉ identities u.payees → p.minPayout ≤ min owed u.room →
      scriptFor i = some script → u.payees.length < p.maxOutputs →
      u.bytes + outputNeed script ≤ p.outputBudgetBytes →
      CarryTurn p scriptFor i owed u
        ((u.opened i (min owed u.room) script).booked i (min owed u.room))

theorem Funded.turn {next : Purse} (h : Funded p scriptFor start done u)
    (hs : (identities start.payees).Nodup) (hd : ((done ++ [(i, owed)]).map Prod.fst).Nodup)
    (hroom : 0 < u.room) (ht : CarryTurn p scriptFor i owed u next) :
    Funded p scriptFor start (done ++ [(i, owed)]) next := by
  rw [List.map_append, List.map_cons, List.map_nil, List.nodup_append_comm,
    List.singleton_append, List.nodup_cons] at hd
  have hmem := h.mem_start hd.1
  have hn := h.nodup hs hd.2
  cases ht with
  | idle => exact h.mono
  | skipped => exact h.mono
  | topped hpos hi => exact h.top hn hi (hmem.mp hi) (by omega) (Nat.min_le_right _ _)
  | opened script hpos hi hmin hsc hcount hsize =>
    exact h.new (fun hx => hi (hmem.mpr hx)) (by omega) (Nat.min_le_right _ _) hmin hsc hcount hsize

/-- The loop stops when the room is gone, or takes a turn and goes on. -/
theorem payCarry_cons {u uf : Purse} (hn : (identities u.payees).Nodup) {i : Identity} {owed : Nat}
    {rest : List (Identity × Nat)} (run : payCarry p scriptFor ((i, owed) :: rest) u = some uf) :
    (u.room = 0 ∧ uf = u) ∨ (0 < u.room ∧ ∃ next, CarryTurn p scriptFor i owed u next ∧
      payCarry p scriptFor rest next = some uf) := by
  unfold payCarry at run
  split at run
  next hroom => exact .inl ⟨hroom, (Option.some.inj run).symm⟩
  next hroom =>
    refine .inr ⟨Nat.pos_of_ne_zero hroom, ?_⟩
    split at run
    next hzero => exact ⟨u, .idle hzero, run⟩
    next howed =>
      have howed := Nat.pos_of_ne_zero howed
      simp only [Option.bind_eq_bind, Option.bind_eq_some_iff] at run
      obtain ⟨r, hp, run⟩ := run
      rcases placeCarry_cases hp with
        ⟨ys, hi, hg, rfl⟩ | ⟨hi, rfl, -⟩ | ⟨script, hi, hmin, hsc, hcount, hsize, rfl⟩
      · have hys := giveTo_eq hn hg
        rw [if_pos hi] at hys
        obtain rfl := Option.some.inj hys
        simp only [Option.bind_eq_some_iff] at run
        obtain ⟨next, hb, run⟩ := run
        obtain ⟨-, rfl⟩ := Purse.book_eq hb
        exact ⟨_, .topped howed hi, run⟩
      · exact ⟨u, .skipped howed hi, run⟩
      · simp only [Option.bind_eq_some_iff] at run
        obtain ⟨next, hb, run⟩ := run
        obtain ⟨-, rfl⟩ := Purse.book_eq hb
        exact ⟨_, .opened script howed hi hmin hsc hcount hsize, run⟩

end

theorem nodup_snoc {done rest : List (Identity × Nat)} {e : Identity × Nat}
    (hd : ((done ++ e :: rest).map Prod.fst).Nodup) :
    ((done ++ [e]).map Prod.fst).Nodup ∧ (((done ++ [e]) ++ rest).map Prod.fst).Nodup ∧
      (done.map Prod.fst).Nodup := by
  have hassoc : done ++ e :: rest = (done ++ [e]) ++ rest := by simp
  have hsnoc : ((done ++ [e]).map Prod.fst).Nodup := by
    rw [hassoc, List.map_append] at hd
    exact hd.of_append_left
  refine ⟨hsnoc, hassoc ▸ hd, ?_⟩
  rw [List.map_append] at hsnoc
  exact hsnoc.of_append_left

/-- The carry loop keeps its account through every entry, and through an early stop. -/
theorem payCarry_funded {start : Purse} (hs : (identities start.payees).Nodup)
    (entries done : List (Identity × Nat)) (hd : ((done ++ entries).map Prod.fst).Nodup)
    {u u' : Purse} (h : Funded p scriptFor start done u)
    (run : payCarry p scriptFor entries u = some u') :
    Funded p scriptFor start (done ++ entries) u' := by
  induction entries generalizing done u with
  | nil => simpa [payCarry] using (Option.some.inj run) ▸ h
  | cons e entries ih =>
    obtain ⟨i, owed⟩ := e
    obtain ⟨hsnoc, hrest, hdone⟩ := nodup_snoc hd
    rcases payCarry_cons (h.nodup hs hdone) run with ⟨-, rfl⟩ | ⟨hroom, next, ht, run⟩
    · exact h.mono
    · simpa using ih (done ++ [(i, owed)]) hrest (h.turn hs hsnoc hroom ht) run

theorem placeCarry_carryPaid {u placed : Purse} {i : Identity} {give : Nat}
    (h : placeCarry p scriptFor u i give = some (some placed)) : placed.carryPaid = u.carryPaid := by
  rcases placeCarry_cases h with ⟨ys, -, -, hp⟩ | ⟨-, hp, -⟩ | ⟨script, -, -, -, -, -, hp⟩
  · rw [Option.some.inj hp]
  · cases hp
  · rw [Option.some.inj hp]
    rfl

/-- Nobody is paid more carry than the entries owe. -/
theorem payCarry_amount_le {entries : List (Identity × Nat)} {u u' : Purse}
    (run : payCarry p scriptFor entries u = some u') (j : Identity) :
    amountOf j u'.carryPaid ≤ amountOf j u.carryPaid + amountOf j entries := by
  induction entries generalizing u with
  | nil =>
    obtain rfl := Option.some.inj run
    exact Nat.le_add_right _ _
  | cons e entries ih =>
    obtain ⟨i, owed⟩ := e
    have hcons : amountOf j ((i, owed) :: entries) = (if i = j then owed else 0) + amountOf j entries := rfl
    unfold payCarry at run
    split at run
    · obtain rfl := Option.some.inj run
      exact Nat.le_add_right _ _
    · split at run
      · have hrest := ih run
        omega
      · simp only [Option.bind_eq_bind, Option.bind_eq_some_iff] at run
        obtain ⟨r, hp, run⟩ := run
        cases r with
        | none =>
          have hrest := ih run
          omega
        | some placed =>
          simp only [Option.bind_eq_some_iff] at run
          obtain ⟨next, hb, run⟩ := run
          obtain ⟨-, rfl⟩ := Purse.book_eq hb
          have hrest := ih run
          simp only [Purse.booked, placeCarry_carryPaid hp, amountOf_append, amountOf_single] at hrest
          rw [hcons]
          split at hrest <;> split <;> omega

theorem Purse.book_total {u : Purse} {i : Identity} {give : Nat} (hpaid : u.paid + give < sizeU64)
    (hroom : give ≤ u.room) : u.book i give = some (u.booked i give) := by
  simp only [Purse.book, Option.bind_eq_bind, Option.bind_eq_some_iff, checkedAdd_eq_some,
    checkedSub_eq_some]
  exact ⟨_, ⟨hpaid, rfl⟩, _, ⟨hroom, rfl⟩, rfl⟩

/-- A top-up raises what the outputs hold by what it gives. -/
theorem giveTo_held {i : Identity} {g : Nat} {payees ys : List Payee}
    (h : giveTo i g payees = some (some ys)) :
    (ys.map Payee.sats).sum = (payees.map Payee.sats).sum + g := by
  rcases giveTo_cases h with ⟨-, hnone⟩ | ⟨before, q, after, rfl, -, -, hsome⟩
  · cases hnone
  · obtain rfl := Option.some.inj hsome
    simp only [List.map_append, List.map_cons, List.sum_append, List.sum_cons]
    omega

/-- So does any placement, which leaves the books to the caller. -/
theorem placeCarry_held {u placed : Purse} {i : Identity} {give : Nat}
    (h : placeCarry p scriptFor u i give = some (some placed)) :
    (placed.payees.map Payee.sats).sum = (u.payees.map Payee.sats).sum + give ∧
      placed.paid = u.paid ∧ placed.room = u.room := by
  rcases placeCarry_cases h with ⟨ys, -, hg, hsome⟩ | ⟨-, hnone, -⟩ | ⟨script, -, -, -, -, -, hsome⟩
  · obtain rfl := Option.some.inj hsome
    exact ⟨giveTo_held hg, rfl, rfl⟩
  · cases hnone
  · obtain rfl := Option.some.inj hsome
    exact ⟨by simp [Purse.opened], rfl, rfl⟩

/-- Nothing stops the carry loop while what is paid and what is left fit a word. -/
theorem payCarry_total (p : SplitParams) (scriptFor : Identity → Option Bytes)
    (entries : List (Identity × Nat)) {u : Purse} (hsum : (u.payees.map Payee.sats).sum = u.paid)
    (hfit : u.paid + u.room < sizeU64) : ∃ u', payCarry p scriptFor entries u = some u' := by
  induction entries generalizing u with
  | nil => exact ⟨u, rfl⟩
  | cons e rest ih =>
    obtain ⟨i, owed⟩ := e
    unfold payCarry
    split_ifs with hroom howed
    · exact ⟨u, rfl⟩
    · exact ih hsum hfit
    · have hgive : min owed u.room ≤ u.room := Nat.min_le_right _ _
      obtain ⟨r, hr⟩ : ∃ r, placeCarry p scriptFor u i (min owed u.room) = some r := by
        refine placeCarry_total fun q hq => ?_
        have := le_sum_of_mem (f := Payee.sats) hq
        omega
      simp only [hr, Option.bind_eq_bind, Option.bind_some]
      cases r with
      | none => exact ih hsum hfit
      | some placed =>
        obtain ⟨hheld, hpaid, hleft⟩ := placeCarry_held hr
        have hbook := @Purse.book_total placed i (min owed u.room) (by omega) (by omega)
        simp only [hbook, Option.bind_some]
        refine ih ?_ ?_
        · simp only [Purse.booked]
          omega
        · simp only [Purse.booked]
          omega

end
end WaviclesPrime.Tides
