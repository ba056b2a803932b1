import WaviclesPrime.Primed.Coinbaser
import WaviclesPrime.Primed.Sections

/-! What an issued list adds up to, and when a gateway can read it back. -/
namespace WaviclesPrime.Primed
open Wire Machine Tides

section
variable {D : Decoders} {H : Digests} {canonical : Snapshot.Doc → Bytes} {sh : Shared}
  {w : WindowView} {carry : Carry} {c : IssuedCoinbaser}

theorem sum_outputOf (payees : List Payee) :
    ((payees.map outputOf).map Output.sats).sum = (payees.map Payee.sats).sum := by
  simp [Function.comp_def, outputOf]

/-- A list always adds up to the value: the floor of one sat is never what fills it up. -/
theorem sum_issueOutputs {poolScript : Bytes} {commit : List Bytes} {s : Split} {value : Nat}
    (h : s.paidSats + s.poolSats = value) (hv : 0 < value) :
    ((issueOutputs poolScript commit s).map Output.sats).sum = value := by
  have hcommit : ((commit.map fun script => (⟨0, script⟩ : Output)).map Output.sats).sum = 0 := by
    simp [Function.comp_def]
  have hpayees := sum_outputOf s.payees
  unfold Split.paidSats at h
  unfold issueOutputs
  dsimp only
  split
  next hor =>
    have hpool : 0 < s.poolSats := by
      refine hor.elim id fun hnil => ?_
      rw [List.append_eq_nil_iff, List.map_eq_nil_iff, List.map_eq_nil_iff] at hnil
      rw [hnil.2, List.map_nil, List.sum_nil] at h
      omega
    simp only [List.map_append, List.sum_append, hcommit, hpayees, List.map_cons, List.map_nil,
      List.sum_cons, List.sum_nil]
    omega
  next hor =>
    rw [not_or, Nat.not_lt] at hor
    simp only [List.map_append, List.sum_append, hcommit, hpayees]
    omega

namespace Issued

theorem phases (hs : Started D sh) (i : Issued D H canonical sh w carry c) (hv : c.value < sizeU64) :
    Nonempty (Phases w.miners w.totalWork c.value sh.splitParams (sh.carryMap carry)
      (sh.scriptFor D) i.split) :=
  computeWithCarry_phases (w.input hs.bounded hv) w.distinct i.ran

theorem payees_eq (i : Issued D H canonical sh w carry c) : c.payees = i.split.payees :=
  congrArg IssuedCoinbaser.payees i.made

theorem unpaid_eq (i : Issued D H canonical sh w carry c) : c.unpaid = carriable i.split :=
  congrArg IssuedCoinbaser.unpaid i.made

theorem carryPaid_eq (i : Issued D H canonical sh w carry c) : c.carryPaid = i.split.carryPaid :=
  congrArg IssuedCoinbaser.carryPaid i.made

theorem outputs_eq (i : Issued D H canonical sh w carry c) : c.outputs =
    issueOutputs sh.poolScript (i.hash.toList.map fun h => Snapshot.opReturn h sh.cfg.snapshotTag)
      i.split := congrArg IssuedCoinbaser.outputs i.made

theorem paid_add_pool (hs : Started D sh) (i : Issued D H canonical sh w carry c)
    (hv : c.value < sizeU64) : i.split.paidSats + i.split.poolSats = c.value :=
  (i.phases hs hv).elim fun f => f.paid_add_pool (w.input hs.bounded hv)

theorem sum_outputs (hs : Started D sh) (i : Issued D H canonical sh w carry c) (hpos : 0 < c.value)
    (hv : c.value < sizeU64) : (c.outputs.map Output.sats).sum = c.value := by
  rw [i.outputs_eq]
  exact sum_issueOutputs (i.paid_add_pool hs hv) hpos

theorem scripted (hs : Started D sh) (i : Issued D H canonical sh w carry c) (hv : c.value < sizeU64)
    {q : Payee} (hq : q ∈ c.payees) : toScript D q.identity sh.network = some q.script :=
  (i.phases hs hv).elim fun f => f.scripted q (i.payees_eq ▸ hq)

/-- The list has at most 511 payees. -/
theorem count_le (hs : Started D sh) (i : Issued D H canonical sh w carry c) (hv : c.value < sizeU64) :
    i.split.payees.length ≤ 511 :=
  (i.phases hs hv).elim fun f => hs.maxOutputs ▸ f.count_le

end Issued

theorem script_fits (hd : D.Documented) {addr : String} {net : Network} {script : Bytes}
    (h : toScript D addr net = some script) {sats : Nat} (hs : sats < sizeU64) :
    (⟨sats, script⟩ : Output).Fits := by
  have hl := toScript_length hd h
  unfold rdtsMaxOutputScript at hl
  refine ⟨hs, ?_, ?_⟩ <;> simp only [minScript, maxScript] <;> omega

/-- The entries of a list, but for the commitment, fit the format. -/
theorem Issued.fits (hd : D.Documented) (hs : Started D sh) (i : Issued D H canonical sh w carry c)
    (hpos : 0 < c.value) (hv : c.value < sizeU64) (htag : i.hash.isSome → sh.cfg.snapshotTag.utf8ByteSize ≤ 30) :
    ∀ o ∈ c.outputs, o.Fits := by
  intro o ho
  have hsats : o.sats < sizeU64 := by
    have hle := Apportion.le_sum_of_mem (f := Output.sats) ho
    rw [i.sum_outputs hs hpos hv] at hle
    omega
  have hcommit : ∀ o ∈ (i.hash.toList.map fun h => Snapshot.opReturn h sh.cfg.snapshotTag).map
      (fun script => (⟨0, script⟩ : Output)), o.Fits := by
    intro o ho
    rw [List.map_map] at ho
    obtain ⟨hash, hh, rfl⟩ := List.mem_map.mp ho
    have htag := htag (Option.isSome_iff_exists.mpr ⟨hash, Option.mem_toList.mp hh⟩)
    have hlen := Snapshot.length_opReturn hash sh.cfg.snapshotTag
    refine ⟨by simp, ?_, ?_⟩ <;> simp only [Function.comp_apply, minScript, maxScript] <;> omega
  have hpayee : ∀ q ∈ c.payees, (outputOf q).sats < sizeU64 → (outputOf q).Fits := fun q hq hlt =>
    script_fits hd (i.scripted hs hv hq) hlt
  obtain ⟨addr, hpool⟩ := hs.payout
  rw [i.outputs_eq] at ho
  unfold issueOutputs at ho
  dsimp only at ho
  have hbody : ∀ o ∈ (i.hash.toList.map fun h => Snapshot.opReturn h sh.cfg.snapshotTag).map
      (fun script => (⟨0, script⟩ : Output)) ++ i.split.payees.map outputOf, o.sats < sizeU64 → o.Fits := by
    intro o ho hlt
    rcases List.mem_append.mp ho with ho | ho
    · exact hcommit o ho
    · obtain ⟨q, hq, rfl⟩ := List.mem_map.mp ho
      exact hpayee q (i.payees_eq ▸ hq) hlt
  split at ho
  next =>
    rcases List.mem_append.mp ho with ho | ho
    · exact hbody o ho hsats
    · obtain rfl := List.mem_singleton.mp ho
      exact script_fits hd hpool hsats
  next => exact hbody o ho hsats

/-- The number of entries: commitment, payees, and the pool's when something is left for it. -/
theorem Issued.length_outputs (hs : Started D sh) (i : Issued D H canonical sh w carry c)
    (hpos : 0 < c.value) (hv : c.value < sizeU64) : c.outputs.length =
      i.hash.toList.length + i.split.payees.length + if 0 < i.split.poolSats then 1 else 0 := by
  have hsum := i.paid_add_pool hs hv
  rw [i.outputs_eq]
  unfold issueOutputs
  dsimp only
  by_cases hpool : 0 < i.split.poolSats
  · rw [if_pos (.inl hpool), if_pos hpool]
    simp [Nat.add_assoc]
  · have hne : i.split.payees ≠ [] := by
      intro hnil
      simp only [Split.paidSats, hnil, List.map_nil, List.sum_nil] at hsum
      omega
    rw [if_neg (by simp [hpool, hne]), if_neg hpool]
    simp

/-- A session finds the coinbaser it just issued. -/
theorem Session.issued_keep (ss : Session) (c : IssuedCoinbaser) : (ss.keep c).issued c.id = some c := by
  unfold Session.issued Session.keep coinbasersKept
  dsimp only
  have hdrop : (ss.coinbasers ++ [c]).drop ((ss.coinbasers ++ [c]).length - 16)
      = ss.coinbasers.drop ((ss.coinbasers ++ [c]).length - 16) ++ [c] := by
    rw [List.drop_append_of_le_length]
    simp only [List.length_append, List.length_cons, List.length_nil]
    omega
  rw [hdrop, List.reverse_append]
  simp

/-- What a commitment asks of the list: a short tag, and room for every entry. -/
def CommitFits (D : Decoders) (sh : Shared) (w : WindowView) (carry : Carry) (value : Nat) : Prop :=
  sh.cfg.snapshotTag.utf8ByteSize ≤ 30 ∧
    ∀ s, sh.splitFor D w carry value = some s → ¬ (s.payees.length = 511 ∧ 0 < s.poolSats)

/-- A committed list is read back exactly when its commitment fits. -/
theorem Issued.decodes_iff (hd : D.Documented) (hs : Started D sh) (i : Issued D H canonical sh w carry c)
    (hpos : 0 < c.value) (hv : c.value < sizeU64) :
    decodeV2 (encodeV2 c.id c.outputs) = .ok (c.id, c.outputs) ↔
      (i.hash.isSome → CommitFits D sh w carry c.value) := by
  have hlen := i.length_outputs hs hpos hv
  have hcount := i.count_le hs hv
  constructor
  · intro h hsome
    obtain ⟨hash, hhash⟩ := Option.isSome_iff_exists.mp hsome
    have htag : sh.cfg.snapshotTag.utf8ByteSize ≤ 30 := by
      by_contra hlong
      obtain ⟨rest, hrest⟩ : ∃ rest, c.outputs =
          ⟨0, Snapshot.opReturn hash sh.cfg.snapshotTag⟩ :: rest := by
        rw [i.outputs_eq, hhash]
        unfold issueOutputs
        dsimp only
        split <;> exact ⟨_, rfl⟩
      have hscript := Snapshot.length_opReturn hash sh.cfg.snapshotTag
      have hmax := hs.tag_le
      rw [hrest, decodeV2_bad_first c.id (by simp) (by dsimp only; omega)
        (.inr (by dsimp only [maxScript]; omega))] at h
      exact absurd h (by simp)
    refine ⟨htag, fun s hrun hfull => ?_⟩
    obtain rfl := Option.some.inj (i.ran.symm.trans hrun)
    rw [decodeV2_encodeV2 c.id (i.fits hd hs hpos hv fun _ => htag)] at h
    have hshort := congrArg List.length (Prod.mk.inj (Except.ok.inj h)).2
    rw [List.length_take, hlen, hhash, if_pos hfull.2, hfull.1] at hshort
    simp [maxOutputs] at hshort
  · intro h
    rw [decodeV2_encodeV2 c.id (i.fits hd hs hpos hv fun hsome => (h hsome).1), List.take_of_length_le]
    cases hhash : i.hash with
    | none =>
      rw [hlen, hhash, maxOutputs]
      simp only [Option.toList_none, List.length_nil]
      split <;> omega
    | some hash =>
      have hroom := (h (by simp [hhash])).2 i.split i.ran
      rw [hlen, hhash, maxOutputs]
      simp only [Option.toList_some, List.length_cons, List.length_nil]
      split <;> omega

/-- A gateway decodes the list Prime remembers exactly when no commitment is in it, or its tag
has at most 30 bytes and there is room for the pool's entry after 511 payees. -/
theorem coinbaser_decodes_iff (hd : D.Documented) (hs : Started D sh) {ss : Session} {value : Nat}
    {prevHash : Hash} {now : Nat} {stored : Bool} (hpos : 0 < value) (hv : value < sizeU64) :
    (∀ ss' message, onCoinbaserRequest D H canonical sh w carry ss value prevHash now stored
        = some (ss', message) →
      ∃ c list, message = coinbaserReply value list ∧ ss'.issued c.id = some c ∧
        (decodeV2 list = .ok (c.id, c.outputs) ∧ (c.outputs.map Output.sats).sum = value ↔
          (sh.cfg.commitSnapshot = true ∧ stored = true → CommitFits D sh w carry value))) ∧
    (ProductsFit w.miners value sh.splitParams → (∀ t ∈ sh.tip, t.height + 1 < sizeU32) →
      ∃ r, onCoinbaserRequest D H canonical sh w carry ss value prevHash now stored = some r) := by
  refine ⟨fun ss' message run => ?_, fun hfit ht => onCoinbaserRequest_total hs hv hfit ht⟩
  obtain ⟨c, i, hsome, rfl, -, rfl, rfl⟩ := onCoinbaserRequest_cases run
  refine ⟨c, _, rfl, ss.issued_keep c, ?_⟩
  rw [i.decodes_iff hd hs hpos hv, hsome]
  exact and_iff_left (i.sum_outputs hs hpos hv)

end

/-- A window nobody has work in. -/
def WindowView.empty : WindowView := ⟨1, 0, [], .nil, .nil, rfl, by decide⟩

/-- A started pool that pays its own output to the sample address. -/
def startedShared (cfg : Config) : Shared where
  cfg := cfg
  poolScript := segwitScript 0 sampleProgram
  network := .mainnet
  baseSplit := baseSplit cfg
  controls := .none
  tip := none
  seen := .empty

theorem sampleDecoders_documented : sampleDecoders.Documented := by
  constructor <;>
  · intro addr hrp ver prog h
    simp only [sampleDecoders, Option.ite_none_right_eq_some, Option.some.injEq, Prod.mk.injEq] at h
    obtain ⟨-, -, rfl, rfl⟩ := h
    decide

theorem startedShared_started {D : Decoders} {cfg : Config} (h : cfg.load = .ok cfg)
    (hpool : toScript D sampleAddress .mainnet = some (segwitScript 0 sampleProgram)) :
    Started D (startedShared cfg) where
  loaded := ⟨cfg, h⟩
  base := rfl
  payout := ⟨sampleAddress, hpool⟩
  controls := ⟨by simp [startedShared, Controls.none], by simp [startedShared, Controls.none],
    by simp [startedShared, Controls.none, OrdMap.empty]⟩

theorem coinbaser_decodes_sample : ∃ ss' message,
    onCoinbaserRequest sampleDecoders sumDigests (fun _ => []) (startedShared sampleConfig) .empty
      .empty .fresh 1000 (zeros 32) 0 true = some (ss', message) ∧
    ∃ c list, message = coinbaserReply 1000 list ∧ ss'.issued c.id = some c ∧
      (decodeV2 list = .ok (c.id, c.outputs) ∧ (c.outputs.map Output.sats).sum = 1000 ↔
        (sampleConfig.commitSnapshot = true ∧ true = true →
          CommitFits sampleDecoders (startedShared sampleConfig) .empty .empty 1000)) := by
  have hstarted : Started sampleDecoders (startedShared sampleConfig) :=
    startedShared_started (by decide +kernel) (by decide +kernel)
  have hrun : (onCoinbaserRequest sampleDecoders sumDigests (fun _ => []) (startedShared sampleConfig)
      .empty .empty .fresh 1000 (zeros 32) 0 true).isSome = true := by decide +kernel
  obtain ⟨⟨ss', message⟩, run⟩ := Option.isSome_iff_exists.mp hrun
  exact ⟨ss', message, run, (coinbaser_decodes_iff sampleDecoders_documented hstarted (by decide)
    (by decide)).1 ss' message run⟩

/-- A tag the configuration admits, one byte too long for the list. -/
def longTagConfig : Config := { sampleConfig with snapshotTag := "PYBLOCK-TON618-BLAKE2B-WAVICLES" }

/-- Under a 31-byte tag the gateway refuses the whole list. -/
theorem long_tag_refused : ∃ ss' list, Started sampleDecoders (startedShared longTagConfig) ∧
    onCoinbaserRequest sampleDecoders sumDigests (fun _ => []) (startedShared longTagConfig) .empty
      .empty .fresh 1000 (zeros 32) 0 true = some (ss', coinbaserReply 1000 list) ∧
    decodeV2 list = .error (.malformed "coinbaser script length") := by
  exact ⟨_, _, startedShared_started (by decide +kernel) (by decide +kernel), rfl, by decide +kernel⟩

end WaviclesPrime.Primed
