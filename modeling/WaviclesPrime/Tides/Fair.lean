import WaviclesPrime.Tides.Reopen

/-! What holds of a window's totals and rows, also where sums are cut off at a word. -/
namespace WaviclesPrime.Tides
open Machine

/-- No identity's total has more work than its rows. -/
def Bounded (totals : KeyMap UInt32 Total) (rows : List Credit) : Prop :=
  ∀ i, ((totals.get i).getD ⟨0, 0, 0⟩).work ≤ Queue.total rowWork (rowsOf rows i)

/-- No name's rows have more work than it is due; the rows of a name are those with its place in the list. -/
def Capped (names : List Identity) (due : Identity → Nat) (rows : List Credit) : Prop :=
  ∀ k s, names[k]? = some s → Queue.total rowWork (rowsOf rows (UInt32.ofNat k)) ≤ due s

namespace Bounded
variable {totals : KeyMap UInt32 Total} {rows : List Credit} {c : Credit}

theorem empty (rows : List Credit) : Bounded .empty rows := fun _ => Nat.zero_le _

theorem drop (h : Bounded totals (c :: rows)) : Bounded (dropRow totals c) rows := by
  intro i
  have hi := h i
  rw [rowsOf_cons] at hi
  unfold dropRow
  by_cases heq : c.ident = i
  · subst heq
    rw [if_pos rfl, Queue.total_cons, rowWork] at hi
    cases ht : totals.get c.ident with
    | none => simp [ht]
    | some t =>
      rw [ht, Option.getD_some] at hi
      dsimp only
      split
      next => simp
      next =>
        rw [KeyMap.get_insert, if_pos rfl, Option.getD_some]
        dsimp only
        omega
  · rw [if_neg heq] at hi
    cases ht : totals.get c.ident with
    | none => exact hi
    | some t =>
      dsimp only
      split
      next => rwa [KeyMap.get_erase, if_neg (Ne.symm heq)]
      next => rwa [KeyMap.get_insert, if_neg (Ne.symm heq)]

theorem push (h : Bounded totals rows) (ts : UInt32) : Bounded (totals.insert c.ident
    ⟨satAdd sizeU64 ((totals.get c.ident).getD ⟨0, 0, 0⟩).work c.work.toNat,
      ((totals.get c.ident).getD ⟨0, 0, 0⟩).credits + 1, ts⟩) (rows ++ [c]) := by
  intro i
  have hi := h i
  rw [rowsOf_append, rowsOf_cons, KeyMap.get_insert, Queue.total_append]
  by_cases heq : c.ident = i
  · subst heq
    rw [if_pos rfl, if_pos rfl, Option.getD_some, rowsOf_nil, Queue.total_cons, Queue.total_nil]
    refine (satAdd_le _ _ _).trans ?_
    rw [rowWork]
    omega
  · rw [if_neg heq, if_neg (Ne.symm heq), rowsOf_nil, Queue.total_nil]
    exact hi

/-- What is trimmed is taken from the front, and from the totals. -/
theorem trimRows {target totalWork : Nat} (h : Bounded totals rows) :
    (trimRows target rows totalWork totals).1 <:+ rows ∧
      Bounded (Tides.trimRows target rows totalWork totals).2.2
        (Tides.trimRows target rows totalWork totals).1 := by
  induction rows generalizing totalWork totals with
  | nil => exact ⟨List.suffix_rfl, h⟩
  | cons front rest ih =>
    rw [Tides.trimRows]
    split
    next => exact ⟨List.suffix_rfl, h⟩
    next left _ =>
      split
      next => exact ⟨List.suffix_rfl, h⟩
      next =>
        obtain ⟨hsuffix, hbounded⟩ := @ih _ left h.drop
        exact ⟨hsuffix.trans (List.suffix_cons front rest), hbounded⟩

end Bounded

namespace Capped
variable {names : List Identity} {due : Identity → Nat} {rows : List Credit}

theorem nil (names : List Identity) (due : Identity → Nat) : Capped names due [] := fun _ _ _ => Nat.zero_le _

theorem sublist {rows' : List Credit} (h : Capped names due rows) (hs : List.Sublist rows' rows) :
    Capped names due rows' := by
  intro k s hk
  refine le_trans ?_ (h k s hk)
  exact ((hs.filter _).map _).sum_le_sum (by simp)

theorem take {names' : List Identity} (h : Capped names due rows) (hp : names' <+: names) :
    Capped names' due rows := by
  intro k s hk
  obtain ⟨more, rfl⟩ := hp
  have hlt := (List.getElem?_eq_some_iff.mp hk).1
  exact h k s (by rw [List.getElem?_append_left hlt, hk])

theorem mono {due' : Identity → Nat} (h : Capped names due rows) (hle : ∀ s, due s ≤ due' s) :
    Capped names due' rows := fun k s hk => (h k s hk).trans (hle s)

end Capped

namespace Window

/-- The parts of a window agree as far as they do when sums are cut off. -/
structure Fair (w : Window) : Prop extends Indexed w where
  bounded : Bounded w.totals w.credits
  known : ∀ c ∈ w.credits, c.ident.toNat < w.idents.length

namespace Fair
variable {w : Window} {c : Credit}

theorem intern (h : w.Fair) (s : Identity) : (w.intern s).1.Fair := by
  refine ⟨h.toIndexed.intern s, ?_, fun c hc => ?_⟩
  · rw [intern_totals, intern_credits]
    exact h.bounded
  · rw [intern_credits] at hc
    exact Nat.lt_of_lt_of_le (h.known c hc) (h.length_le_intern s)

theorem trim (h : w.Fair) : w.trim.Fair ∧ w.trim.credits <:+ w.credits := by
  unfold Window.trim
  split
  next => exact ⟨h, List.suffix_rfl⟩
  next =>
    obtain ⟨hsuffix, hbounded⟩ := @Bounded.trimRows _ _ w.targetWork w.totalWork h.bounded
    exact ⟨⟨⟨h.distinct, h.index⟩, hbounded, fun c hc => h.known c (hsuffix.subset hc)⟩, hsuffix⟩

theorem setTarget (h : w.Fair) (target : Nat) :
    (w.setTarget target).Fair ∧ (w.setTarget target).credits <:+ w.credits :=
  trim ⟨⟨h.distinct, h.index⟩, h.bounded, h.known⟩

theorem concat_known (h : w.Fair) (hc : c.ident.toNat < w.idents.length) :
    ∀ x ∈ w.credits ++ [c], x.ident.toNat < w.idents.length := by
  intro x hx
  rcases List.mem_append.mp hx with hx | hx
  · exact h.known x hx
  · exact List.mem_singleton.mp hx ▸ hc

theorem pushRaw (h : w.Fair) (hc : c.ident.toNat < w.idents.length) : (w.pushRaw c).Fair :=
  ⟨⟨h.distinct, h.index⟩, h.bounded.push _, h.concat_known hc⟩

theorem append (h : w.Fair) (hc : c.ident.toNat < w.idents.length) : ((w.count c.work).append c).Fair :=
  ⟨⟨h.distinct, h.index⟩, h.bounded.push c.ts, h.concat_known hc⟩

theorem creditRow (h : w.Fair) (a : Accepted) :
    (w.creditRow a.identity a.work a.height a.ts a.source).1.Fair ∧
      (w.creditRow a.identity a.work a.height a.ts a.source).1.credits <:+
        w.credits ++ [(w.creditRow a.identity a.work a.height a.ts a.source).2] := by
  obtain ⟨hfair, hsuffix⟩ := ((h.intern a.identity).append
    (c := ⟨a.ts, (w.intern a.identity).2, a.work, a.height, a.source⟩) (h.intern_known a.identity)).trim
  refine ⟨hfair, hsuffix.trans ?_⟩
  rw [Window.append, count, intern_credits]
  exact List.suffix_rfl

theorem foldl_replay (h : w.Fair) (rows : List Credit) : (rows.foldl replay w).Fair := by
  induction rows generalizing w with
  | nil => exact h
  | cons c rows ih =>
    rw [List.foldl_cons, replay]
    split
    next hc => exact ih (h.pushRaw hc)
    next => exact ih h

end Fair

theorem Blank.fair {w : Window} {names : List Identity} {state : Meta} (h : w.Blank names state) : w.Fair := by
  refine ⟨h.toIndexed, ?_, h.known⟩
  rw [h.totals]
  exact .empty _

/-- A name's work in the window is at most what its rows are capped at. -/
theorem Fair.workOf_le {w : Window} (h : w.Fair) {due : Identity → Nat} (hcap : Capped w.idents due w.credits)
    (s : Identity) : w.workOf s ≤ due s := by
  unfold workOf
  cases hi : w.identIndex.get s with
  | none => exact Nat.zero_le _
  | some i =>
    obtain ⟨k, hk, rfl⟩ := (h.index s i).mp hi
    have hrows := (h.bounded (UInt32.ofNat k)).trans (hcap k s hk)
    rw [Option.bind_some]
    cases ht : w.totals.get (UInt32.ofNat k) with
    | none => exact Nat.zero_le _
    | some t => rwa [ht] at hrows

/-- The row of a credit goes to the name it is for, while places are distinct. -/
theorem Indexed.capped_concat {w : Window} (h : w.Indexed) {a : Accepted}
    (hroom : a.identity ∈ w.idents ∨ w.idents.length < sizeU32) (hlen : w.idents.length ≤ sizeU32)
    {due : Identity → Nat} {rows : List Credit} (hknown : ∀ c ∈ rows, c.ident.toNat < w.idents.length)
    (hcap : Capped w.idents due rows) :
    Capped (w.intern a.identity).1.idents (fun s => due s + if a.identity = s then a.work.toNat else 0)
      (rows ++ [(w.creditRow a.identity a.work a.height a.ts a.source).2]) := by
  obtain ⟨k₀, hk₀, hi⟩ := ((h.intern a.identity).index a.identity _).mp (w.intern_get a.identity)
  have hids := h.intern_idents a.identity
  have hlen' : (w.intern a.identity).1.idents.length ≤ sizeU32 := by
    rw [hids]
    split
    next => exact hlen
    next hout =>
      rw [List.length_append, List.length_singleton]
      exact hroom.resolve_left hout
  intro k s hk
  have hlt := (List.getElem?_eq_some_iff.mp hk).1
  have hold : Queue.total rowWork (rowsOf rows (UInt32.ofNat k)) ≤ due s := by
    rcases Nat.lt_or_ge k w.idents.length with hin | hnew
    · refine hcap k s ?_
      rw [hids] at hk
      split at hk
      next => exact hk
      next => rwa [List.getElem?_append_left hin] at hk
    · -- no row that is there has a place at the end of the table
      have hnone : rowsOf rows (UInt32.ofNat k) = [] := by
        refine List.filter_eq_nil_iff.mpr fun c hc heq => ?_
        have hc' := hknown c hc
        rw [of_decide_eq_true heq, UInt32.toNat_ofNat_of_lt' (Nat.lt_of_lt_of_le hlt hlen')] at hc'
        omega
      rw [hnone]
      exact Nat.zero_le _
  rw [rowsOf_append, rowsOf_cons, rowsOf_nil, Queue.total_append, creditRow_row]
  refine Nat.add_le_add hold ?_
  split
  next heq =>
    have hk₀lt := (List.getElem?_eq_some_iff.mp hk₀).1
    have hplace : k₀ = k := by
      have hnat := congrArg UInt32.toNat (hi.trans heq)
      rwa [UInt32.toNat_ofNat_of_lt' (Nat.lt_of_lt_of_le hk₀lt hlen'),
        UInt32.toNat_ofNat_of_lt' (Nat.lt_of_lt_of_le hlt hlen')] at hnat
    subst hplace
    rw [if_pos (Option.some.inj (hk₀.symm.trans hk))]
    exact Nat.le_refl _
  next => exact Nat.zero_le _

end Window

namespace Ledger
variable {d : Files} {names : List Identity}

/-- Opening a directory puts its rows to the names, and no others. -/
theorem openDir_fair (h : d.Names names) : (openDir d).window.Fair ∧ (openDir d).window.idents = names ∧
    (openDir d).window.credits <:+ d.knownRows names := by
  have hcredits : ((readRows d.credits).foldl Window.replay d.table).credits = d.knownRows names := by
    rw [Window.foldl_replay_credits, h.blank.credits, h.usable, List.nil_append]
  obtain ⟨hfair, hsuffix⟩ :=
    (h.blank.fair.foldl_replay (readRows d.credits)).setTarget d.state.targetWork
  rw [openDir_window, replayed]
  refine ⟨hfair, ?_, by rwa [← hcredits]⟩
  rw [Window.setTarget_idents, Window.foldl_replay_idents, h.blank.idents]

end Ledger
end WaviclesPrime.Tides
