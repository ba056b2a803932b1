import WaviclesPrime.Primed.Rulings

/-! Settlement across restarts: confirm passes, any of which the process may stop in. -/
namespace WaviclesPrime.Primed
open Wire Machine Tides

/-- A confirm pass, and after how many of its writes the process is stopped, if it is. -/
structure Round where
  tipHeight : Nat
  node : String → Answer
  stop : Option Nat

/-- A pool, its disk, and everything written since its blocks were recorded. -/
structure Process where
  memory : Treasury
  disk : Disk
  written : List Write

namespace Process

def start (d : Disk) : Process := ⟨d.reload, d, []⟩

def pass (carryForward : Bool) (p : Process) (q : Round) : Traced Write Overflow Treasury :=
  p.memory.confirmBlocks carryForward q.tipHeight q.node

/-- The writes of a pass that reach the disk. -/
def reached (carryForward : Bool) (p : Process) (q : Round) : List Write :=
  match q.stop with
  | none => (p.pass carryForward q).written
  | some k => (p.pass carryForward q).written.take k

/-- One pass. The next one after a stop runs in a new process, which starts from what reached the disk: an
overflow ends the poller, and with it the passes of this one. -/
def round (carryForward : Bool) (p : Process) (q : Round) : Process :=
  let disk := p.disk.perform (p.reached carryForward q)
  let memory := match q.stop, (p.pass carryForward q).result with
    | none, .ok t => t
    | _, _ => disk.reload
  ⟨memory, disk, p.written ++ p.reached carryForward q⟩

end Process

/-- A carry file, by the amounts of the record it was written for. -/
def Write.amounts : Write → Option (String × List (Identity × Nat) × List (Identity × Nat))
  | .line _ => none
  | .ledger _ r => some (r.hash, r.carryPaid, r.unpaid)

/-- What was applied for a block. -/
def appliedFor (hash : String) (ws : List Write) :
    List (List (Identity × Nat) × List (Identity × Nat)) :=
  ((ws.filterMap Write.amounts).filter fun e => e.1 = hash).map Prod.snd

def ledgerAfter (c : Carry) (ws : List Write) : Carry :=
  (ws.filterMap Write.amounts).foldl (fun c e => c.applied e.2.1 e.2.2) c

/-- The ledger is what the applied blocks make of the first one, and each settled block is applied
once, the others not. -/
def SettledOnce (c : Carry) (p : Process) : Prop :=
  p.memory.carry = ledgerAfter c p.written ∧ ∀ b ∈ p.memory.blocks,
    appliedFor b.hash p.written = if b.settled then [(b.carryPaid, b.unpaid)] else []

/-- A line that marks a block settled and not yet carried. -/
def Write.opens : Write → Bool
  | .line r => r.settled && !r.carried
  | .ledger _ _ => false

/-- The last write is the line that marks a block settled: the carry file is still to come. -/
def cutShort (ws : List Write) : Bool := ws.getLast?.any Write.opens

/-- No stop falls between a settled line and its carry file: the process is not stopped there, and the
sums logged there do not overflow for any block that the pass settles. -/
structure Round.Clean (p : Process) (q : Round) : Prop where
  stop : ∀ k ∈ q.stop, cutShort ((p.pass true q).written.take k) = false
  sums : q.stop = none → ∀ asked, askAbout q.tipHeight maxAsked p.memory.blocks.reverse = some asked →
    ∀ r ∈ asked, (∃ n, 0 < n ∧ q.node r.hash = .confirmations n) → SumsFit r

def Undisturbed : Process → List Round → Prop
  | _, [] => True
  | p, q :: rest => q.Clean p ∧ Undisturbed (p.round true q) rest

section
variable {c : Carry} {d : Disk} {ws : List Write} {lost : List String} {r : BlockRecord}

theorem Disk.perform_append (d : Disk) (ws more : List Write) :
    d.perform (ws ++ more) = (d.perform ws).perform more := List.foldl_append ..

/-- A line about a recorded block takes its record's place. -/
theorem Disk.reload_line (h : r.hash ∈ d.reload.blocks.map BlockRecord.hash) :
    (d.perform [.line r]).reload = ⟨putRecord r d.reload.blocks, d.carry⟩ := by
  simp only [perform, List.foldl_cons, List.foldl_nil, reload, Journal.replay_append]
  rw [Journal.place_of_mem (Journal.replay_nodup d.log) h]
  rfl

theorem appliedFor_line (hash : String) : appliedFor hash (ws ++ [.line r]) = appliedFor hash ws := by
  simp [appliedFor, List.filterMap_append, Write.amounts]

theorem appliedFor_ledger (hash : String) (b : Carry) : appliedFor hash (ws ++ [.ledger b r]) =
    appliedFor hash ws ++ if r.hash = hash then [(r.carryPaid, r.unpaid)] else [] := by
  by_cases h : r.hash = hash <;> simp [appliedFor, List.filterMap_append, Write.amounts, h]

theorem ledgerAfter_line : ledgerAfter c (ws ++ [.line r]) = ledgerAfter c ws := by
  simp [ledgerAfter, List.filterMap_append, List.filterMap_cons, Write.amounts]

theorem ledgerAfter_ledger (b : Carry) : ledgerAfter c (ws ++ [.ledger b r]) =
    (ledgerAfter c ws).applied r.carryPaid r.unpaid := by
  simp [ledgerAfter, List.filterMap_append, Write.amounts]

/-- What the disk holds after some writes, apart from settled blocks whose carry file was lost. -/
structure Balanced (c : Carry) (lost : List String) (d : Disk) (ws : List Write) : Prop where
  kept : d.reload.Kept
  carry : d.carry = ledgerAfter c ws
  applied : ∀ b ∈ d.reload.blocks, appliedFor b.hash ws =
    if b.settled ∧ b.hash ∉ lost then [(b.carryPaid, b.unpaid)] else []
  settled : ∀ b ∈ d.reload.blocks, b.hash ∈ lost → b.settled = true
  present : ∀ h ∈ lost, h ∈ d.reload.blocks.map BlockRecord.hash

/-- A line that changes a record's marks, when what was applied agrees with the new ones. -/
theorem Balanced.line {x : BlockRecord} {lost' : List String} (h : Balanced c lost d ws)
    (hr : r ∈ d.reload.blocks) (hx : x.hash = r.hash) (hcarried : x.carried = true → x.settled = true)
    (hother : ∀ hash, hash ≠ r.hash → (hash ∈ lost' ↔ hash ∈ lost))
    (happ : appliedFor r.hash ws =
      if x.settled ∧ x.hash ∉ lost' then [(x.carryPaid, x.unpaid)] else [])
    (hlost : x.hash ∈ lost' → x.settled = true) :
    Balanced c lost' (d.perform [.line x]) (ws ++ [.line x]) := by
  have hmem : x.hash ∈ d.reload.blocks.map BlockRecord.hash := hx ▸ List.mem_map_of_mem hr
  have hput (b : BlockRecord) (hb : b ∈ putRecord x d.reload.blocks) :
      b = x ∨ b ∈ d.reload.blocks ∧ b.hash ≠ r.hash := by
    rcases mem_putRecord.mp hb with ⟨rfl, -⟩ | ⟨hb, hne⟩
    · exact .inl rfl
    · exact .inr ⟨hb, hx ▸ hne⟩
  constructor
  · rw [Disk.reload_line hmem]
    constructor
    · simpa using h.kept.distinct
    · intro b hb
      rcases hput b hb with rfl | ⟨hb, -⟩
      · exact hcarried
      · exact h.kept.carried b hb
  · rw [ledgerAfter_line]
    exact h.carry
  · rw [Disk.reload_line hmem]
    intro b hb
    rw [appliedFor_line]
    rcases hput b hb with rfl | ⟨hb, hne⟩
    · rw [hx, happ, hx]
    · rw [h.applied b hb]
      simp only [hother b.hash hne]
  · rw [Disk.reload_line hmem]
    intro b hb hl
    rcases hput b hb with rfl | ⟨hb, hne⟩
    · exact hlost hl
    · exact h.settled b hb ((hother b.hash hne).mp hl)
  · rw [Disk.reload_line hmem]
    intro hash hl
    rw [hash_putRecord]
    by_cases heq : hash = r.hash
    · exact heq ▸ List.mem_map_of_mem hr
    · exact h.present hash ((hother hash heq).mp hl)

/-- The carry file written for a record whose settled line went before it. -/
theorem Balanced.ledger (h : Balanced c (r.hash :: lost) d ws) (hfresh : r.hash ∉ lost)
    (hr : r ∈ d.reload.blocks) : Balanced c lost
      (d.perform [.ledger (d.carry.applied r.carryPaid r.unpaid) r])
      (ws ++ [.ledger (d.carry.applied r.carryPaid r.unpaid) r]) := by
  have hs : r.settled = true := h.settled r hr List.mem_cons_self
  constructor
  · exact ⟨h.kept.distinct, h.kept.carried⟩
  · rw [ledgerAfter_ledger, ← h.carry]
    rfl
  · intro b hb
    rw [appliedFor_ledger, h.applied b hb]
    by_cases hbr : b = r
    · subst hbr
      simp [hs, hfresh]
    · have hne : b.hash ≠ r.hash := fun heq => hbr (List.inj_on_of_nodup_map h.kept.distinct hb hr heq)
      simp [hne, Ne.symm hne]
  · exact fun b hb hl => h.settled b hb (List.mem_cons_of_mem _ hl)
  · exact fun hash hl => h.present hash (List.mem_cons_of_mem _ hl)

/-- An unsettled record has had nothing applied for it, and nothing lost. -/
theorem Balanced.unsettled (h : Balanced c lost d ws) (hr : r ∈ d.reload.blocks)
    (hs : r.settled = false) : appliedFor r.hash ws = [] ∧ r.hash ∉ lost := by
  constructor
  · rw [h.applied r hr]
    simp [hs]
  · intro hl
    simp [h.settled r hr hl] at hs

/-- The line that marks a block settled: its carry file is still to come. -/
theorem Balanced.marked (h : Balanced c lost d ws) (hr : r ∈ d.reload.blocks) (hs : r.settled = false) :
    Balanced c (r.hash :: lost) (d.perform [.line (confirmRecord r)]) (ws ++ [.line (confirmRecord r)]) := by
  refine h.line hr rfl (fun _ => rfl) (fun hash hne => by simp [hne]) ?_ fun _ => rfl
  rw [(h.unsettled hr hs).1]
  simp

theorem Balanced.uncarried (h : Balanced c lost d ws) (hr : r ∈ d.reload.blocks) (hs : r.settled = false) :
    r.carried = false := by
  rw [← Bool.not_eq_true]
  exact fun hc => by simp [h.kept.carried r hr hc] at hs

/-- Every prefix of a ruling's writes leaves the disk balanced; the settled block is lost exactly
when the carry file is the next to come. -/
theorem Balanced.ruling {tipHeight : Nat} {a : Answer} {q : Ruling} {more : List Write}
    (h : Balanced c lost d ws) (hr : r ∈ d.reload.blocks) (hs : r.settled = false)
    (hq : judge true tipHeight d.carry r a = ⟨more, .ok q⟩) (k : Nat) :
    Balanced c (if cutShort (more.take k) then r.hash :: lost else lost)
      (d.perform (more.take k)) (ws ++ more.take k) := by
  obtain ⟨happ, hfresh⟩ := h.unsettled hr hs
  have hempty : Balanced c lost (d.perform []) (ws ++ []) := (List.append_nil ws).symm ▸ h
  have hc := h.uncarried hr hs
  rcases judge_ok hq with ⟨rfl, rfl, -⟩ | ⟨⟨rfl, rfl⟩ | ⟨rfl, rfl⟩, -⟩
  · let x := confirmRecord r
    have hmark : Balanced c (r.hash :: lost) (d.perform [.line x]) (ws ++ [.line x]) := h.marked hr hs
    have hx : x ∈ (d.perform [.line x]).reload.blocks := by
      rw [Disk.reload_line (r := x) (List.mem_map.mpr ⟨r, hr, rfl⟩)]
      exact mem_putRecord.mpr (.inl ⟨rfl, List.mem_map.mpr ⟨r, hr, rfl⟩⟩)
    have hpaid := Balanced.ledger (r := x) hmark hfresh hx
    have happ' := hpaid.applied x hx
    rw [if_pos ⟨rfl, hfresh⟩] at happ'
    have hdone : Balanced c lost _ _ := hpaid.line (x := carryRecord x) hx rfl (fun _ => rfl) (by simp)
      (by rw [happ', if_pos ⟨rfl, hfresh⟩]; rfl) fun _ => rfl
    simp only [List.append_assoc, ← Disk.perform_append, List.cons_append, List.nil_append]
      at hpaid hdone
    obtain rfl | rfl | rfl | hk : k = 0 ∨ k = 1 ∨ k = 2 ∨ 3 ≤ k := by omega
    · exact hempty
    · have hcut : cutShort ((Ruling.settleWrites true d.carry r).take 1) = true := by
        simpa [cutShort, Write.opens, Ruling.settleWrites, confirmRecord] using hc
      rw [if_pos hcut]
      exact hmark
    · exact hpaid
    · rw [List.take_of_length_le (show (Ruling.settleWrites true d.carry r).length ≤ k from hk)]
      exact hdone
  · simpa [cutShort] using hempty
  · cases k with
    | zero => exact hempty
    | succ k =>
      have hline : Balanced c lost (d.perform [.line (orphanRecord r)])
          (ws ++ [.line (orphanRecord r)]) := by
        refine h.line hr rfl (h.kept.carried r hr) (fun _ _ => Iff.rfl) ?_ fun hl => absurd hl hfresh
        rw [happ, if_neg]
        simp [orphanRecord, hs]
      have hshut : cutShort [.line (orphanRecord r)] = false := by
        simp [cutShort, Write.opens, orphanRecord, hs]
      simpa [hshut] using hline

theorem cutShort_append (ws more : List Write) :
    cutShort (ws ++ more) = if more = [] then cutShort ws else cutShort more := by
  unfold cutShort
  split
  next h => rw [h, List.append_nil]
  next h => rw [List.getLast?_append_of_ne_nil _ h]

/-- A ruling carried out to its end leaves no settlement open. -/
theorem cutShort_ruling {tipHeight : Nat} {a : Answer} {q : Ruling} {more : List Write} (hs : r.settled = false)
    (hq : judge true tipHeight c r a = ⟨more, .ok q⟩) : cutShort more = false := by
  rcases judge_ok hq with ⟨rfl, rfl, -⟩ | ⟨⟨rfl, rfl⟩ | ⟨rfl, rfl⟩, -⟩
  · rfl
  · rfl
  · simp [cutShort, Write.opens, orphanRecord, hs]

/-- A restart after a ruling finds what the running process holds. -/
theorem Disk.reload_ruling {tipHeight : Nat} {a : Answer} {q : Ruling} {more : List Write} (hk : d.reload.Kept)
    (hr : r ∈ d.reload.blocks) (hq : judge true tipHeight d.carry r a = ⟨more, .ok q⟩) :
    (d.perform more).reload = d.reload.after q := by
  have hhash : r.hash ∈ d.reload.blocks.map BlockRecord.hash := List.mem_map_of_mem hr
  rcases judge_ok hq with ⟨rfl, rfl, -⟩ | ⟨⟨rfl, rfl⟩ | ⟨rfl, rfl⟩, -⟩
  · let x := confirmRecord r
    let e := (d.perform [.line x]).perform [.ledger (d.carry.applied x.carryPaid x.unpaid) x]
    have hmark : e.reload.blocks = putRecord x d.reload.blocks :=
      congrArg Treasury.blocks (Disk.reload_line (r := x) hhash)
    have hlast : (e.perform [.line (carryRecord x)]).reload = ⟨putRecord (carryRecord x) e.reload.blocks,
        e.carry⟩ := Disk.reload_line (by rw [hmark, hash_putRecord]; exact hhash)
    rw [hmark, putRecord_putRecord (hash_carryRecord x)] at hlast
    exact hlast
  · exact (Treasury.after_keep (t := d.reload) hk.distinct hr).symm
  · exact Disk.reload_line (r := orphanRecord r) hhash

/-- The disk after some writes of a pass: balanced after every prefix of them, with the block of an open
settlement lost. -/
def Prefixes (c : Carry) (lost : List String) (d : Disk) (ws more : List Write) : Prop :=
  ∀ k, ∃ lost', Balanced c lost' (d.perform (more.take k)) (ws ++ more.take k) ∧
    (lost' = [] ↔ lost = [] ∧ cutShort (more.take k) = false)

/-- Prefixes of writes that leave no settlement open, followed by prefixes of others. -/
theorem Prefixes.append {before more : List Write} (h : Prefixes c lost d ws before)
    (hshut : cutShort before = false) (hmore : ∀ k, ∃ hash : String,
      Balanced c (if cutShort (more.take k) then hash :: lost else lost) (d.perform (before ++ more.take k))
        (ws ++ (before ++ more.take k))) : Prefixes c lost d ws (before ++ more) := by
  intro k
  by_cases hle : k ≤ before.length
  · rw [List.take_append_of_le_length hle]
    exact h k
  · rw [List.take_append, List.take_of_length_le (Nat.le_of_not_le hle)]
    obtain ⟨hash, hb⟩ := hmore (k - before.length)
    refine ⟨_, hb, ?_⟩
    rw [cutShort_append]
    cases hcut : cutShort (more.take (k - before.length)) with
    | true =>
      have hne : more.take (k - before.length) ≠ [] := fun heq => by simp [heq, cutShort] at hcut
      simp [hne]
    | false => simp [hshut]

/-- A confirm pass leaves the disk balanced after every prefix of its writes. When it returns, a restart
finds what it returns; and it leaves a settlement open exactly when it comes to a block that is confirmed
and whose sums do not fit. -/
theorem Balanced.pass {x : Traced Write Overflow Treasury} (h : Balanced c lost d ws) (tipHeight : Nat)
    (node : String → Answer) (hx : d.reload.confirmBlocks true tipHeight node = x) :
    Prefixes c lost d ws x.written ∧ (∀ t, x.result = .ok t → (d.perform x.written).reload = t) ∧
      (cutShort x.written = false ↔ ∀ asked, askAbout tipHeight maxAsked d.reload.blocks.reverse = some asked →
        ∀ r ∈ asked, (∃ n, 0 < n ∧ node r.hash = .confirmations n) → SumsFit r) := by
  let P (done : List BlockRecord) (t : Treasury) (more : List Write) : Prop :=
    cutShort more = false ∧ Balanced c lost (d.perform more) (ws ++ more) ∧ (d.perform more).reload = t ∧
      Prefixes c lost d ws more ∧ ∀ r ∈ done, (∃ n, 0 < n ∧ node r.hash = .confirmations n) → SumsFit r
  have hempty : Balanced c lost (d.perform []) (ws ++ []) := (List.append_nil ws).symm ▸ h
  have hstart : P [] d.reload [] := by
    refine ⟨rfl, hempty, rfl, fun k => ⟨lost, ?_, ?_⟩, by simp⟩
    · rw [List.take_nil]
      exact hempty
    · simp [cutShort]
  have hstep : ∀ done t before r q more, Treasury.StandsBefore P t r done before →
      judge true tipHeight t.carry r (node r.hash) = ⟨more, .ok q⟩ → P (done ++ [r]) (t.after q) (before ++ more) := by
    rintro done _ before r q more ⟨-, hr, hs, hshut, hb, rfl, hparts, hfits⟩ hq
    have hpart := hb.ruling hr hs hq
    simp only [List.append_assoc, ← Disk.perform_append] at hpart
    have hend := cutShort_ruling hs hq
    refine ⟨?_, ?_, ?_, hparts.append hshut fun k => ⟨r.hash, hpart k⟩, fun b hb => ?_⟩
    · rw [cutShort_append]
      split <;> assumption
    · simpa [hend] using hpart more.length
    · rw [Disk.perform_append, Disk.reload_ruling hb.kept hr hq]
    · rcases List.mem_append.mp hb with hb | hb
      · exact hfits b hb
      · obtain rfl := List.mem_singleton.mp hb
        rintro ⟨n, hpos, hn⟩
        rcases judge_ok hq with ⟨-, -, hfit, -⟩ | ⟨-, hneg⟩
        · exact hfit rfl
        · exact absurd hpos (Int.not_lt.mpr (hneg n hn))
  obtain ⟨hok, herror⟩ := Treasury.confirmBlocks_rule hstep h.kept hstart
  obtain ⟨more, result⟩ := x
  cases result with
  | ok t =>
    obtain ⟨asked, hasked, -, hshut, -, ht, hparts, hfits⟩ := hok t more hx
    refine ⟨hparts, fun t' heq => Except.ok.inj heq ▸ ht, iff_of_true hshut fun asked' hasked' => ?_⟩
    exact Option.some.inj (hasked.symm.trans hasked') ▸ hfits
  | error e =>
    rcases herror e more hx with ⟨hasked, rfl⟩ | ⟨r, rest, ruled, _, before, last, hasked, hstand, hjudge, rfl⟩
    · refine ⟨hstart.2.2.2.1, by simp, iff_of_true rfl fun asked hsome => ?_⟩
      rw [hasked] at hsome
      cases hsome
    obtain ⟨-, hr, hs, hshut, hb, rfl, hparts, -⟩ := hstand
    have hmem : r ∈ ruled ++ r :: rest := by simp
    rcases judge_error hjudge with ⟨-, rfl, -, hover, hpos⟩ | ⟨-, -, hlarge⟩
    · have hopen : cutShort [Write.line (confirmRecord r)] = true := by
        simpa [cutShort, Write.opens, confirmRecord] using hb.uncarried hr hs
      refine ⟨hparts.append hshut fun k => ⟨r.hash, ?_⟩, by simp, iff_of_false ?_ ?_⟩
      · cases k with
        | zero => simpa [cutShort] using hb
        | succ k =>
          rw [List.take_of_length_le (by simp), if_pos hopen, Disk.perform_append, ← List.append_assoc]
          exact hb.marked hr hs
      · rw [cutShort_append, if_neg (by simp), hopen]
        decide
      · exact fun hall => hover (hall _ hasked r hmem hpos)
    · have hsmall := recheck_small ((askAbout_eq hasked).2 r hmem)
      omega

/-- One round, cut short or not, keeps the disk balanced; it loses a block exactly when it is not clean. -/
theorem Balanced.round {p : Process} (h : Balanced c lost p.disk p.written) (hm : p.disk.reload = p.memory)
    (q : Round) : ∃ lost', Balanced c lost' (p.round true q).disk (p.round true q).written ∧
      (p.round true q).disk.reload = (p.round true q).memory ∧ (lost' = [] ↔ lost = [] ∧ q.Clean p) := by
  obtain ⟨hparts, hreturns, hsums⟩ := h.pass q.tipHeight q.node rfl
  rw [hm] at hparts hreturns hsums
  obtain ⟨tipHeight, node, stop⟩ := q
  cases stop with
  | none =>
    obtain ⟨lost', hb, hlost⟩ := hparts (p.pass true ⟨tipHeight, node, none⟩).written.length
    rw [Process.pass, List.take_length, hsums] at hlost
    rw [Process.pass, List.take_length] at hb
    refine ⟨lost', hb, ?_, hlost.trans (and_congr_right fun _ => ?_)⟩
    · simp only [Process.round, Process.reached, Process.pass]
      cases hresult : (p.memory.confirmBlocks true tipHeight node).result with
      | ok t => exact hreturns t hresult
      | error e => rfl
    · exact ⟨fun hall => ⟨fun _ hk => (nomatch hk), fun _ => hall⟩, fun hclean => hclean.sums rfl⟩
  | some k =>
    obtain ⟨lost', hb, hlost⟩ := hparts k
    refine ⟨lost', hb, rfl, hlost.trans (and_congr_right fun _ => ?_)⟩
    constructor
    · intro hshut
      exact ⟨fun k' hk => Option.some.inj hk ▸ hshut, fun hk => (nomatch hk)⟩
    · exact fun hclean => hclean.stop k rfl

theorem Balanced.run {p : Process} (h : Balanced c lost p.disk p.written) (hm : p.disk.reload = p.memory)
    (rounds : List Round) : ∃ lost', Balanced c lost' (rounds.foldl (Process.round true) p).disk
      (rounds.foldl (Process.round true) p).written ∧
      (rounds.foldl (Process.round true) p).disk.reload = (rounds.foldl (Process.round true) p).memory ∧
      (lost' = [] ↔ lost = [] ∧ Undisturbed p rounds) := by
  induction rounds generalizing p lost with
  | nil => exact ⟨lost, h, hm, by simp [Undisturbed]⟩
  | cons q rest ih =>
    obtain ⟨lost₁, h₁, hm₁, hlost₁⟩ := h.round hm q
    obtain ⟨lost₂, h₂, hm₂, hlost₂⟩ := ih h₁ hm₁
    refine ⟨lost₂, h₂, hm₂, hlost₂.trans ?_⟩
    rw [hlost₁, Undisturbed, and_assoc]

theorem Balanced.settledOnce_iff {p : Process} (h : Balanced c lost p.disk p.written)
    (hm : p.disk.reload = p.memory) : SettledOnce c p ↔ lost = [] := by
  have hcarry : p.memory.carry = ledgerAfter c p.written := hm ▸ h.carry
  have happ := h.applied
  rw [hm] at happ
  constructor
  · rintro ⟨-, honce⟩
    refine List.eq_nil_iff_forall_not_mem.mpr fun hash hl => ?_
    obtain ⟨b, hb, rfl⟩ := List.mem_map.mp (h.present hash hl)
    have hs := h.settled b hb hl
    rw [hm] at hb
    have hsome := honce b hb
    rw [happ b hb, if_neg (by simp [hl]), if_pos hs] at hsome
    simp at hsome
  · rintro rfl
    exact ⟨hcarry, fun b hb => by simpa using happ b hb⟩

/-- Blocks as they are recorded: neither settled nor carried. -/
def Disk.Recorded (d : Disk) : Prop := ∀ r ∈ d.log, r.settled = false ∧ r.carried = false

theorem Balanced.start (h : d.Recorded) : Balanced d.carry [] d [] := by
  have hnew : ∀ b ∈ d.reload.blocks, b.settled = false ∧ b.carried = false :=
    fun b hb => h b (Journal.mem_of_mem_replay hb)
  constructor
  · exact ⟨Journal.replay_nodup d.log, fun b hb => by simp [(hnew b hb).2]⟩
  · rfl
  · intro b hb
    simp [(hnew b hb).1, appliedFor]
  · simp
  · simp

/-- With carry-forward on, every settled block is applied to the ledger exactly once, over any confirm
passes and restarts, if and only if no stop or overflow falls between a settled line and its carry file. -/
theorem settled_once_iff {rounds : List Round} (h : d.Recorded) :
    SettledOnce d.carry (rounds.foldl (Process.round true) (.start d)) ↔ Undisturbed (.start d) rounds := by
  have hstart : Balanced d.carry [] (Process.start d).disk (Process.start d).written := .start h
  obtain ⟨lost, hb, hm, hlost⟩ := hstart.run rfl rounds
  rw [hb.settledOnce_iff hm, hlost]
  exact and_iff_right rfl

end

/-- A recorded block that leaves one identity unpaid. -/
def sampleRecord : BlockRecord where
  ts := 0
  height := 100
  hash := "00ab"
  finder := some "1Ann"
  coinbaseValue := 1000
  kind := .split
  orphan := false
  owedSats := 0
  split := []
  poolSats := 500
  settled := false
  submit := "pending"
  gateway := ""
  unpaid := [("1Bob", 500)]
  carryPaid := []
  snapshot := ""
  carried := false

def sampleDisk : Disk := ⟨[sampleRecord], .empty⟩

theorem sampleDisk_recorded : sampleDisk.Recorded := by simp [Disk.Recorded, sampleDisk, sampleRecord]

/-- A pass at height 101 in which the node confirms whatever it is asked about. -/
def confirming (stop : Option Nat) : Round := ⟨101, fun _ => .confirmations 1, stop⟩

/-- A stop after the carry file costs nothing. -/
theorem settled_once_late_stop : SettledOnce sampleDisk.carry
    ([confirming (some 2), confirming none].foldl (Process.round true) (.start sampleDisk)) := by
  refine (settled_once_iff sampleDisk_recorded).mpr ⟨⟨?_, fun hstop => (nomatch hstop)⟩, ⟨?_, ?_⟩, trivial⟩
  · intro k hk
    obtain rfl := Option.some.inj hk
    decide +kernel
  · exact fun _ hk => (nomatch hk)
  · -- the block has settled, so the second pass asks about none
    intro _ asked hasked
    obtain rfl := Option.some.inj (((by decide +kernel : _ = some [])).symm.trans hasked)
    simp

/-- A stop right after the settled line: the block stays settled, and its amounts are never applied. -/
theorem early_stop_loses_carry : sampleDisk.Recorded ∧
    let p := [confirming (some 1), confirming none, confirming none].foldl (Process.round true)
      (.start sampleDisk)
    p.memory.blocks.map BlockRecord.settled = [true] ∧ p.memory.carry = .empty ∧
      ¬ SettledOnce sampleDisk.carry p := by
  refine ⟨sampleDisk_recorded, ?_⟩
  intro p
  have hblocks : p.memory.blocks = [confirmRecord sampleRecord] := by decide +kernel
  have happ : appliedFor "00ab" p.written = [] := by decide +kernel
  refine ⟨by rw [hblocks]; rfl, by decide +kernel, fun h => ?_⟩
  have honce := h.2 (confirmRecord sampleRecord) (by rw [hblocks]; exact List.mem_singleton_self _)
  rw [show (confirmRecord sampleRecord).hash = "00ab" from rfl, happ] at honce
  exact absurd honce (by decide)

end WaviclesPrime.Primed
