import WaviclesPrime.Tides.TornRow

/-! A row that is written after a fragment is not the row that is read. -/
namespace WaviclesPrime.Tides
open Machine

namespace Ledger

section
variable {target : Nat} {rows : List Credit}

/-- A trim never takes the last row, even where the total has been cut off at a word. -/
theorem trimRows_getLast {totalWork : Nat} {totals : KeyMap UInt32 Total} (htarget : target ≠ 0)
    (hle : totalWork ≤ Queue.total rowWork rows) :
    (trimRows target rows totalWork totals).1.getLast? = rows.getLast? := by
  induction rows generalizing totalWork totals with
  | nil => rfl
  | cons front rest ih =>
    rw [trimRows]
    split
    next => rfl
    next left hleft =>
      obtain ⟨-, heq⟩ := checkedSub_eq_some.mp hleft
      rw [Queue.total_cons, rowWork] at hle
      split
      next => rfl
      next hge =>
        have hrest : rest ≠ [] := by
          rintro rfl
          rw [Queue.total_nil] at hle
          omega
        rw [ih (by omega), List.getLast?_cons_of_ne_nil hrest]

theorem foldl_replay_totalWork_le (w : Window) (h : w.totalWork ≤ Queue.total rowWork w.credits) :
    (rows.foldl Window.replay w).totalWork ≤ Queue.total rowWork (rows.foldl Window.replay w).credits := by
  induction rows generalizing w with
  | nil => exact h
  | cons c rows ih =>
    rw [List.foldl_cons]
    refine ih _ ?_
    unfold Window.replay
    split
    next =>
      rw [Window.pushRaw, Queue.total_append]
      refine (satAdd_le _ _ _).trans ?_
      simpa [rowWork] using h
    next => exact h

/-- A row of no work trims nothing. -/
theorem keptRows_concat {c : Credit} (hc : rowWork c = 0) :
    keptRows target (rows ++ [c]) = keptRows target rows ++ [c] := by
  unfold keptRows
  split
  next => rfl
  next htarget =>
    induction rows with
    | nil => exact if_neg (by rw [Queue.total_nil]; omega)
    | cons x rows ih =>
      rw [List.cons_append, Queue.trim, Queue.trim, Queue.total_append, Queue.total_cons, hc,
        Queue.total_nil, Nat.add_zero]
      split
      next => exact ih
      next => rfl

end

section
variable {d : Files} {names : List Identity} {valid fragment : Bytes}

/-- The last row that is read is in the window, whatever the total. -/
theorem openDir_getLast (h : d.Names names) :
    (openDir d).window.credits.getLast? = (d.knownRows names).getLast? := by
  have hcredits : ((readRows d.credits).foldl Window.replay d.table).credits = d.knownRows names := by
    rw [Window.foldl_replay_credits, h.blank.credits, h.usable, List.nil_append]
  have htotal : ((readRows d.credits).foldl Window.replay d.table).totalWork ≤
      Queue.total rowWork (d.knownRows names) := by
    rw [← hcredits]
    exact foldl_replay_totalWork_le _ (by rw [h.blank.total])
  rw [openDir_window, replayed, Window.setTarget, Window.trim]
  split
  next => rw [← hcredits]
  next htarget =>
    rw [← hcredits] at htotal ⊢
    exact trimRows_getLast htarget htotal

/-- A row read over a fragment has the fragment's first byte in it. -/
theorem read_ts_mod (b : UInt8) (rest : Bytes) : (Credit.read (b :: rest)).ts.toNat % 256 = b.toNat := by
  have hb := b.toNat_lt
  have hlt : LittleEndian.read ((b :: rest).take 4) < 2 ^ 32 := by
    refine Nat.lt_of_lt_of_le (LittleEndian.read_lt _) ?_
    exact Nat.pow_le_pow_right (n := 256) (by decide) (List.length_take_le 4 _)
  rw [Credit.read, UInt32.toNat_ofNat_of_lt' hlt, List.take_succ_cons, LittleEndian.read]
  omega

/-- After a fragment the next row is read from the fragment on, and its own end is left out. -/
theorem readRows_shifted {b : UInt8} {rest : Bytes} (hf : (b :: rest).length < Credit.size) (c : Credit) :
    readRows (b :: rest ++ c.write) = [Credit.read ((b :: rest ++ c.write).take Credit.size)] := by
  have hlen : (b :: rest ++ c.write).length = (b :: rest).length + Credit.size := by
    rw [List.length_append, Credit.length_write]
  have htake : ((b :: rest ++ c.write).take Credit.size).length = Credit.size := by
    rw [List.length_take]
    omega
  have hdrop : ((b :: rest ++ c.write).drop Credit.size).length < Credit.size := by
    rw [List.length_drop]
    omega
  conv_lhs => rw [← List.take_append_drop Credit.size (b :: rest ++ c.write)]
  rw [readRows_append htake, readRows_of_short hdrop]

/-- A credit of no work whose row begins otherwise than a fragment. -/
def otherwise (b : UInt8) : Accepted := ⟨"1Ann", 0, 0, if b = 0 then 1 else 0, sourceUnknown⟩

theorem otherwise_ts (b : UInt8) : (otherwise b).ts.toNat % 256 ≠ b.toNat := by
  unfold otherwise
  dsimp only
  split
  next h =>
    subst h
    decide
  next h => exact fun heq => h (UInt8.toNat_inj.mp heq.symm)

theorem otherwise_allowed (b : UInt8) (hfit : Queue.total rowWork (readRows valid) < sizeU64) :
    Allowed valid [otherwise b] where
  plain := by
    intro a ha
    rw [List.mem_singleton.mp ha]
    exact ⟨by simp [otherwise], by simp [otherwise]⟩
  fits := by simpa [otherwise] using hfit

/-- What is in the files after one credit that no rewriting follows. -/
theorem Torn.flushed (h : Torn d names valid fragment) {a : Accepted} (ha : Plain a.identity)
    (hwork : a.work = 0) (hfit : Queue.total rowWork (readRows valid) < sizeU64)
    (hkeep : ¬ Overgrown d.state.targetWork (readRows valid)) {c : Credit}
    (hc : c = ((openDir d).window.creditRow a.identity a.work a.height a.ts a.source).2) :
    ∃ names', names.length ≤ names'.length ∧
      (((openDir d).creditAll [a]).finish .flush).disk.Names names' ∧
      (((openDir d).creditAll [a]).finish .flush).disk.credits = valid ++ (fragment ++ c.write) ∧
      (((openDir d).creditAll [a]).finish .flush).disk.state.targetWork = d.state.targetWork := by
  have hallowed : Allowed valid [a] := by
    refine ⟨fun x hx => List.mem_singleton.mp hx ▸ ha, ?_⟩
    simpa [hwork] using hfit
  have hcred := h.credited hallowed
  have hcount := h.rowsOnDisk hallowed hkeep
  have hrow : rowWork c = 0 := by
    rw [hc, Window.creditRow_row, rowWork, hwork]
    rfl
  have hall : allRows d valid [a] = readRows valid ++ [c] := by rw [hc]; rfl
  have hfinish : ((openDir d).creditAll [a]).finish .flush = ((openDir d).creditAll [a]).pushed := by
    rw [finish, flush_eq, if_pos (creditAll_dirty (List.cons_ne_nil _ _))]
    refine if_neg fun hmany => hkeep ?_
    change ((openDir d).creditAll [a]).window.credits.length + slackRows <
      ((openDir d).creditAll [a]).rowsOnDisk at hmany
    rw [hcount, hcred.kept, hall, keptRows_concat hrow, List.length_append, List.length_append] at hmany
    unfold Overgrown
    simp only [List.length_singleton] at hmany
    omega
  have hopen := h.opened hfit
  refine ⟨((openDir d).creditAll [a]).window.idents, ?_, ?_, ?_, ?_⟩
  · rw [creditAll_cons, ← hopen.idents]
    change _ ≤ (((openDir d).credit a none).1).window.idents.length
    rw [credit_window, Window.creditRow_idents]
    exact hopen.toIndexed.length_le_intern a.identity
  · rw [hfinish]
    exact ⟨hcred.sound.distinct, hcred.plain, hcred.identities⟩
  · rw [hfinish, creditAll_cons, h.openDir_eq_replayed hfit hkeep]
    change ((replayed d).credit a none).1.disk.credits ++ ((replayed d).credit a none).1.creditsOut = _
    rw [credit_none, hc, h.openDir_eq_replayed hfit hkeep, ← List.append_assoc valid, ← h.credits]
    rfl
  · rw [hfinish, ← hcred.targetWork]
    rfl

/-- Where the file is not rewritten before, the first credit after a fragment is not restored. -/
theorem Torn.not_restored (h : Torn d names valid fragment)
    (hfit : Queue.total rowWork (readRows valid) < sizeU64)
    (hkeep : ¬ Overgrown d.state.targetWork (readRows valid)) {b : UInt8} {rest : Bytes}
    (hf : fragment = b :: rest) : ¬ Restored d valid [otherwise b] .flush := by
  intro hres
  subst hf
  have hallowed := @otherwise_allowed valid b hfit
  obtain ⟨names', hlen, hnames, hbytes, htarget⟩ :=
    h.flushed (hallowed.plain _ List.mem_cons_self) rfl hfit hkeep rfl
  generalize hd : (((openDir d).creditAll [otherwise b]).finish .flush).disk = d' at *
  generalize hc : ((openDir d).window.creditRow (otherwise b).identity (otherwise b).work
    (otherwise b).height (otherwise b).ts (otherwise b).source).2 = c at *
  have hts : c.ts = (otherwise b).ts := by rw [← hc]; rfl
  have hrow : rowWork c = 0 := by rw [← hc]; rfl
  have hexpect : (openDir d').window.credits = keptRows d.state.targetWork (readRows valid) ++ [c] := by
    rw [← keptRows_concat hrow, ← hc, ← hd]
    exact hres
  have hread : readRows d'.credits =
      readRows valid ++ [Credit.read ((b :: rest ++ c.write).take Credit.size)] := by
    rw [hbytes, h.whole.readRows_append, readRows_shifted h.short]
  have hvalid : (readRows valid).filter (fun c => c.ident.toNat < names'.length) = readRows valid :=
    List.filter_eq_self.mpr fun x hx => decide_eq_true (Nat.lt_of_lt_of_le (h.known x hx) hlen)
  generalize hr : Credit.read ((b :: rest ++ c.write).take Credit.size) = r at hread
  by_cases hknown : r.ident.toNat < names'.length
  · -- the shifted row is taken for one of a miner's
    have hlast := openDir_getLast hnames
    rw [hexpect, Files.knownRows, hread, List.filter_append, hvalid, List.filter_cons_of_pos (by simpa using hknown),
      List.filter_nil, List.getLast?_concat, List.getLast?_concat] at hlast
    obtain rfl := Option.some.inj hlast
    have hmod : c.ts.toNat % 256 = b.toNat := by
      rw [← hr]
      exact read_ts_mod b _
    exact otherwise_ts b (hts ▸ hmod)
  · -- it names nobody, and nothing of the credit is left
    have hrows : d'.knownRows names' = readRows valid := by
      rw [Files.knownRows, hread, List.filter_append, hvalid, List.filter_cons_of_neg (by simpa using hknown),
        List.filter_nil, List.append_nil]
    have hopen := Ledger.opened hnames (by rw [hrows]; exact hfit)
    have hlength := congrArg List.length hopen.credits
    rw [hexpect, hrows, htarget, List.length_append, List.length_singleton] at hlength
    omega

/-- A directory is restored after whatever credits and ending exactly where its credits file ends with a
whole row, or is rewritten when it is opened; and any run is that rewrites the file before it is read. -/
theorem torn_row_restored_iff (h : Torn d names valid fragment)
    (hfit : Queue.total rowWork (readRows valid) < sizeU64) :
    ((∀ calls e, Allowed valid calls → Restored d valid calls e) ↔
      fragment = [] ∨ Overgrown d.state.targetWork (readRows valid)) ∧
    ∀ calls e, Allowed valid calls → fragment = [] ∨ calls = [] ∨ Rewritten d valid calls e →
      Restored d valid calls e := by
  refine ⟨⟨fun hall => ?_, fun hok calls e hc => h.restored_of_durable hc e hok⟩,
    fun calls e hc hok => h.restored hc hok⟩
  cases hf : fragment with
  | nil => exact .inl rfl
  | cons b rest =>
    by_contra hnot
    rw [not_or] at hnot
    exact h.not_restored hfit hnot.2 hf (hall _ _ (otherwise_allowed b hfit))

/-- One miner, one row, and one byte of another. -/
def tornFiles : Files where
  identities := lineOf "1Ann"
  credits := Credit.write ⟨0, 0, 7, 7, sourceDatum⟩ ++ [9]
  state := ⟨100, 1, 7⟩

theorem tornFiles_torn : Torn tornFiles ["1Ann"] (Credit.write ⟨0, 0, 7, 7, sourceDatum⟩) [9] where
  distinct := List.nodup_singleton _
  plain := by simp [Plain]
  text := rfl
  whole := by rw [Whole, Credit.length_write]
  known := by decide
  credits := rfl
  short := by decide

theorem torn_row_restored_one :
    (¬ ∀ calls e, Allowed (Credit.write ⟨0, 0, 7, 7, sourceDatum⟩) calls →
      Restored tornFiles (Credit.write ⟨0, 0, 7, 7, sourceDatum⟩) calls e) ∧
    Restored tornFiles (Credit.write ⟨0, 0, 7, 7, sourceDatum⟩) [] .flush := by
  obtain ⟨hiff, hruns⟩ := torn_row_restored_iff tornFiles_torn (by decide)
  refine ⟨fun hall => ?_, hruns [] .flush ⟨by simp, by decide⟩ (.inr (.inl rfl))⟩
  have hnot : ¬ Overgrown tornFiles.state.targetWork (readRows (Credit.write ⟨0, 0, 7, 7, sourceDatum⟩)) := by
    unfold Overgrown
    decide
  exact (hiff.mp hall).elim (by decide) hnot

/-- Four units of work after the fragment come back as 1024. -/
theorem torn_row_shifts : ¬ ∀ d names valid fragment, Torn d names valid fragment →
    ∀ calls e, Allowed valid calls → Restored d valid calls e := by
  intro hall
  have hallowed : Allowed (Credit.write ⟨0, 0, 7, 7, sourceDatum⟩) [⟨"1Ann", 4, 7, 0, sourceDatum⟩] :=
    ⟨by simp [Plain], by decide⟩
  have hres := hall _ _ _ _ tornFiles_torn _ .flush hallowed
  revert hres
  unfold Restored
  decide +kernel

end
end Ledger
end WaviclesPrime.Tides
