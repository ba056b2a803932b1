import WaviclesPrime.Lib.JsonPrint
import WaviclesPrime.Primed.Snapshot

/-! The bytes a snapshot is committed by, and what they determine. -/
namespace WaviclesPrime.Primed
open Json (Document)

/-- An insertion that keeps the order of insertion: a key that is there keeps its place. -/
def putLast (k : String) (v : Json) : List (String × Json) → List (String × Json)
  | [] => [(k, v)]
  | (a, w) :: rest => if a = k then (k, v) :: rest else (a, w) :: putLast k v rest

/-- `Map::insert`, by the order of the keys or with `preserve_order`. -/
def mapInsert (preserveOrder : Bool) (out : List (String × Json)) (e : String × Json) : List (String × Json) :=
  if preserveOrder then putLast e.1 e.2 out else OrdMap.put e.1 e.2 out

section
variable (preserveOrder : Bool)

mutual

/-- The entries are sorted by key, which their values have no part in, and inserted one by one. -/
def sorted : Json → Json
  | .obj m => .obj (((sortedFields m).insertionSort Json.byKey).foldl (mapInsert preserveOrder) [])
  | .arr xs => .arr (sortedAll xs)
  | .str s => .str s
  | .int n => .int n

def sortedAll : List Json → List Json
  | [] => []
  | x :: xs => sorted x :: sortedAll xs

def sortedFields : List (String × Json) → List (String × Json)
  | [] => []
  | (k, v) :: m => (k, sorted v) :: sortedFields m

end
end

section
variable {preserveOrder : Bool}

theorem putLast_of_notMem {k : String} {m : List (String × Json)} (h : ∀ e ∈ m, e.1 < k) (v : Json) :
    putLast k v m = m ++ [(k, v)] := by
  induction m with
  | nil => rfl
  | cons e m ih =>
    obtain ⟨he, hm⟩ := List.forall_mem_cons.mp h
    obtain ⟨a, w⟩ := e
    rw [putLast, if_neg he.ne, ih hm, List.cons_append]

theorem put_of_lt {k : String} {m : List (String × Json)} (h : ∀ e ∈ m, e.1 < k) (v : Json) :
    OrdMap.put k v m = m ++ [(k, v)] := by
  induction m with
  | nil => rfl
  | cons e m ih =>
    obtain ⟨he, hm⟩ := List.forall_mem_cons.mp h
    obtain ⟨a, w⟩ := e
    rw [OrdMap.put, if_neg (not_lt_of_gt he), if_neg he.ne', ih hm, List.cons_append]

/-- Entries that come in the order of their keys stay in it, whichever map takes them. -/
private theorem foldl_mapInsert_append {out m : List (String × Json)} (h : (out ++ m).Pairwise fun a b => a.1 < b.1) :
    m.foldl (mapInsert preserveOrder) out = out ++ m := by
  induction m generalizing out with
  | nil => rw [List.foldl_nil, List.append_nil]
  | cons e m ih =>
    have hlast : ∀ a ∈ out, a.1 < e.1 := fun a ha => (List.pairwise_append.mp h).2.2 a ha e List.mem_cons_self
    have hinsert : mapInsert preserveOrder out e = out ++ [e] := by
      unfold mapInsert
      split
      · exact putLast_of_notMem hlast e.2
      · exact put_of_lt hlast e.2
    rw [List.foldl_cons, hinsert, ih (by rwa [List.append_assoc]), List.append_assoc, List.singleton_append]

theorem foldl_mapInsert {m : List (String × Json)} (h : m.Pairwise fun a b => a.1 < b.1) :
    m.foldl (mapInsert preserveOrder) [] = m := by
  have hall := @foldl_mapInsert_append preserveOrder [] m h
  rwa [List.nil_append] at hall

@[simp] theorem sortedAll_eq (xs : List Json) : sortedAll preserveOrder xs = xs.map (sorted preserveOrder) := by
  induction xs with
  | nil => rfl
  | cons x xs ih => rw [sortedAll, ih, List.map_cons]

@[simp] theorem sortedFields_eq (m : List (String × Json)) :
    sortedFields preserveOrder m = m.map (Json.onValue (sorted preserveOrder)) := by
  induction m with
  | nil => rfl
  | cons e m ih => rw [sortedFields, ih, List.map_cons, Json.onValue]

/-- With distinct keys nothing is merged or dropped. -/
theorem sorted_eq (preserveOrder : Bool) {v : Json} (h : v.Distinct) : sorted preserveOrder v = v.sortKeys := by
  induction v using Json.nested with
  | str s => rfl
  | int n => rfl
  | arr xs ih =>
    have hxs := Json.distinct_arr.mp h
    rw [sorted, Json.sortKeys, sortedAll_eq, Json.sortKeysAll_eq, List.map_congr_left fun x hx => ih x hx (hxs x hx)]
  | obj m ih =>
    obtain ⟨hkeys, hvalues⟩ := Json.distinct_obj.mp h
    have hfields : m.map (Json.onValue (sorted preserveOrder)) = m.map (Json.onValue Json.sortKeys) :=
      List.map_congr_left fun e he => Prod.ext rfl (ih e he (hvalues e he))
    have hkeys' : ((m.map (Json.onValue Json.sortKeys)).map Prod.fst).Nodup := by rwa [Json.keys_onValue]
    rw [sorted, Json.sortKeys, sortedFields_eq, Json.sortKeysFields_eq, hfields,
      foldl_mapInsert (Json.insertionSort_strict hkeys')]

end

/-- A document sorted is one again, for it is only reordered. -/
def sortedDocument (preserveOrder : Bool) (d : Document) : Document where
  value := sorted preserveOrder d.value
  distinct := sorted_eq preserveOrder d.distinct ▸ d.distinct.sortKeys

theorem sortedDocument_eq_iff {preserveOrder : Bool} {v w : Document} :
    sortedDocument preserveOrder v = sortedDocument preserveOrder w ↔ v.value.Reordered w.value := by
  have hdocs : sortedDocument preserveOrder v = sortedDocument preserveOrder w ↔
      sorted preserveOrder v.value = sorted preserveOrder w.value := Document.mk.injEq .. ▸ Iff.rfl
  rw [hdocs, sorted_eq _ v.distinct, sorted_eq _ w.distinct, Json.reordered_iff v.distinct]

/-- The sorted document as `serde_json` prints it. -/
def canonicalBytes (print : Document → Bytes) (preserveOrder : Bool) (d : Document) : Bytes :=
  print (sortedDocument preserveOrder d)

/-- The bytes are the same for documents that are equal up to the order of their keys, and for no
others. -/
theorem canonicalBytes_eq_iff {print : Document → Bytes} (hprint : Function.Injective print)
    (preserveOrder : Bool) (v w : Document) :
    canonicalBytes print preserveOrder v = canonicalBytes print preserveOrder w ↔ v.value.Reordered w.value := by
  rw [canonicalBytes, canonicalBytes, hprint.eq_iff, sortedDocument_eq_iff]

def compactPrint (d : Document) : Bytes := d.value.compact

theorem compactPrint_injective : Function.Injective compactPrint := by
  rintro ⟨v, hv⟩ ⟨w, hw⟩ h
  obtain rfl := Json.compact_injective h
  rfl

def unsortedDoc : Document where
  value := .obj [("b", .int 1), ("a", .obj [("z", .arr [.int 3, .obj [("y", .int 2), ("x", .int 1)]]),
    ("m", .str "s")])]
  distinct := by simp

def otherDoc : Document where
  value := .obj [("a", .obj [("m", .str "s"), ("z", .arr [.int 3, .obj [("y", .int 2), ("x", .int 1)]])]),
    ("b", .int 1)]
  distinct := by simp

theorem canonicalBytes_sample :
    canonicalBytes compactPrint true unsortedDoc = canonicalBytes compactPrint true otherDoc ∧
    canonicalBytes compactPrint true unsortedDoc =
      asBytes "\x7b\"a\":\x7b\"m\":\"s\",\"z\":[3,\x7b\"x\":1,\"y\":2\x7d]\x7d,\"b\":1\x7d" :=
  ⟨(canonicalBytes_eq_iff compactPrint_injective true unsortedDoc otherDoc).mpr
    ((Json.reordered_iff unsortedDoc.distinct _).mpr rfl), by decide⟩

namespace Snapshot

def Entry.json (e : Entry) : Json :=
  .obj [("identity", .str e.identity), ("work", .int e.work), ("stratum_work", .int e.stratumWork)]

/-- An identity and what is said of it under a key. -/
def amountJson (key : String) (e : Identity × Nat) : Json := .obj [("identity", .str e.1), (key, .int e.2)]

def PaidOutput.json (q : PaidOutput) : Json :=
  .obj [("identity", .str q.identity), ("work", .int q.work), ("sats", .int q.sats), ("script", .str q.script)]

def UnpaidEntry.json (e : UnpaidEntry) : Json :=
  .obj [("identity", .str e.identity), ("sats", .int e.sats), ("reason", .str e.reason)]

def Params.json (p : Params) : Json :=
  .obj [("fee_bps", .int p.feeBps), ("stratum_fee_bps", .int p.stratumFeeBps), ("min_payout", .int p.minPayout),
    ("max_outputs", .int p.maxOutputs), ("output_budget_bytes", .int p.outputBudgetBytes),
    ("max_payees", .int p.maxPayees), ("fee_overrides", .arr (p.feeOverrides.map (amountJson "fee_bps"))),
    ("rule", .str p.rule)]

def WindowDoc.json (w : WindowDoc) : Json :=
  .obj [("target_work", .int w.targetWork), ("total_work", .int w.totalWork),
    ("identities", .arr (w.identities.map Entry.json))]

def SplitDoc.json (s : SplitDoc) : Json :=
  .obj [("fee_sats", .int s.feeSats), ("payees", .arr (s.payees.map PaidOutput.json)),
    ("carry_paid", .arr (s.carryPaid.map (amountJson "sats"))), ("unpaid", .arr (s.unpaid.map UnpaidEntry.json)),
    ("pool_sats", .int s.poolSats)]

def Doc.json (d : Doc) : Json :=
  .obj [("v", .int d.v), ("tag", .str d.tag), ("height", .int d.height), ("prevhash", .str d.prevhash),
    ("ts", .int d.ts), ("coinbase_value", .int d.coinbaseValue), ("params", d.params.json),
    ("window", d.window.json), ("carry", .arr (d.carry.map (amountJson "sats"))), ("split", d.split.json)]

theorem told_entry : Json.Told Entry.json := by
  rintro ⟨i, w, s⟩ ⟨i', w', s'⟩ h
  have hvalues := h.values (by simp) rfl
  simp only [List.map_cons, List.map_nil, List.forall₂_cons] at hvalues
  obtain ⟨hi, hw, hs, -⟩ := hvalues
  obtain rfl := Json.told_str _ _ hi
  obtain rfl := Json.told_nat _ _ hw
  obtain rfl := Json.told_nat _ _ hs
  rfl

theorem told_amount {key : String} (hkey : key ≠ "identity") : Json.Told (amountJson key) := by
  rintro ⟨i, n⟩ ⟨i', n'⟩ h
  have hvalues := h.values (by simpa using hkey.symm) rfl
  simp only [List.map_cons, List.map_nil, List.forall₂_cons] at hvalues
  obtain ⟨hi, hn, -⟩ := hvalues
  obtain rfl := Json.told_str _ _ hi
  obtain rfl := Json.told_nat _ _ hn
  rfl

theorem told_paidOutput : Json.Told PaidOutput.json := by
  rintro ⟨i, w, n, s⟩ ⟨i', w', n', s'⟩ h
  have hvalues := h.values (by simp) rfl
  simp only [List.map_cons, List.map_nil, List.forall₂_cons] at hvalues
  obtain ⟨hi, hw, hn, hs, -⟩ := hvalues
  obtain rfl := Json.told_str _ _ hi
  obtain rfl := Json.told_nat _ _ hw
  obtain rfl := Json.told_nat _ _ hn
  obtain rfl := Json.told_str _ _ hs
  rfl

theorem told_unpaidEntry : Json.Told UnpaidEntry.json := by
  rintro ⟨i, n, s⟩ ⟨i', n', s'⟩ h
  have hvalues := h.values (by simp) rfl
  simp only [List.map_cons, List.map_nil, List.forall₂_cons] at hvalues
  obtain ⟨hi, hn, hs, -⟩ := hvalues
  obtain rfl := Json.told_str _ _ hi
  obtain rfl := Json.told_nat _ _ hn
  obtain rfl := Json.told_str _ _ hs
  rfl

theorem told_params : Json.Told Params.json := by
  rintro ⟨f, sf, mp, mo, ob, mpy, ov, r⟩ ⟨f', sf', mp', mo', ob', mpy', ov', r'⟩ h
  have hvalues := h.values (by simp) rfl
  simp only [List.map_cons, List.map_nil, List.forall₂_cons] at hvalues
  obtain ⟨hf, hsf, hmp, hmo, hob, hmpy, hov, hr, -⟩ := hvalues
  obtain rfl := Json.told_nat _ _ hf
  obtain rfl := Json.told_nat _ _ hsf
  obtain rfl := Json.told_nat _ _ hmp
  obtain rfl := Json.told_nat _ _ hmo
  obtain rfl := Json.told_nat _ _ hob
  obtain rfl := Json.told_nat _ _ hmpy
  obtain rfl := (told_amount (by decide)).list _ _ hov
  obtain rfl := Json.told_str _ _ hr
  rfl

theorem told_window : Json.Told WindowDoc.json := by
  rintro ⟨tg, tt, es⟩ ⟨tg', tt', es'⟩ h
  have hvalues := h.values (by simp) rfl
  simp only [List.map_cons, List.map_nil, List.forall₂_cons] at hvalues
  obtain ⟨htg, htt, hes, -⟩ := hvalues
  obtain rfl := Json.told_nat _ _ htg
  obtain rfl := Json.told_nat _ _ htt
  obtain rfl := told_entry.list _ _ hes
  rfl

theorem told_split : Json.Told SplitDoc.json := by
  rintro ⟨f, ps, cs, us, n⟩ ⟨f', ps', cs', us', n'⟩ h
  have hvalues := h.values (by simp) rfl
  simp only [List.map_cons, List.map_nil, List.forall₂_cons] at hvalues
  obtain ⟨hf, hps, hcs, hus, hn, -⟩ := hvalues
  obtain rfl := Json.told_nat _ _ hf
  obtain rfl := told_paidOutput.list _ _ hps
  obtain rfl := (told_amount (by decide)).list _ _ hcs
  obtain rfl := told_unpaidEntry.list _ _ hus
  obtain rfl := Json.told_nat _ _ hn
  rfl

theorem told_doc : Json.Told Doc.json := by
  rintro ⟨v, tag, h, p, ts, cv, ps, w, c, s⟩ ⟨v', tag', h', p', ts', cv', ps', w', c', s'⟩ hsame
  have hvalues := hsame.values (by simp) rfl
  simp only [List.map_cons, List.map_nil, List.forall₂_cons] at hvalues
  obtain ⟨hv, htag, hh, hp, hts, hcv, hps, hw, hc, hs, -⟩ := hvalues
  obtain rfl := Json.told_nat _ _ hv
  obtain rfl := Json.told_str _ _ htag
  obtain rfl := Json.told_nat _ _ hh
  obtain rfl := Json.told_str _ _ hp
  obtain rfl := Json.told_nat _ _ hts
  obtain rfl := Json.told_nat _ _ hcv
  obtain rfl := told_params _ _ hps
  obtain rfl := told_window _ _ hw
  obtain rfl := (told_amount (by decide)).list _ _ hc
  obtain rfl := told_split _ _ hs
  rfl

theorem amountJson_distinct {key : String} (hkey : key ≠ "identity") (e : Identity × Nat) :
    (amountJson key e).Distinct := by
  simpa [amountJson] using hkey.symm

theorem Doc.json_distinct (d : Doc) : d.json.Distinct := by
  have hamounts (key : String) (hkey : key ≠ "identity") (es : List (Identity × Nat)) :
      (Json.arr (es.map (amountJson key))).Distinct :=
    .list (amountJson_distinct hkey) es
  have hentries (es : List Entry) : (Json.arr (es.map Entry.json)).Distinct :=
    .list (fun e => by simp [Entry.json]) es
  have hpaid (qs : List PaidOutput) : (Json.arr (qs.map PaidOutput.json)).Distinct :=
    .list (fun q => by simp [PaidOutput.json]) qs
  have hunpaid (es : List UnpaidEntry) : (Json.arr (es.map UnpaidEntry.json)).Distinct :=
    .list (fun e => by simp [UnpaidEntry.json]) es
  simp [Doc.json, Params.json, WindowDoc.json, SplitDoc.json, hamounts, hentries, hpaid, hunpaid]

/-- What is published, as the document it is. -/
def Doc.document (d : Doc) : Document := ⟨d.json, d.json_distinct⟩

/-- The bytes that are hashed tell all that a snapshot says. -/
theorem Doc.canonical_injective {print : Document → Bytes} (hprint : Function.Injective print)
    (preserveOrder : Bool) : Function.Injective fun d : Doc => canonicalBytes print preserveOrder d.document :=
  fun a b h => told_doc a b (sortedDocument_eq_iff.mp (hprint h))

end Snapshot
end WaviclesPrime.Primed
