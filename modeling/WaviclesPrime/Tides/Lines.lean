import WaviclesPrime.Tides.Reopen

/-! Which names come back from a file of them, with each written on a line. -/
namespace WaviclesPrime.Tides
open Machine

/-- A name that is one line, and is read back as it is. -/
structure OneLine (s : Identity) : Prop where
  nonempty : s ≠ ""
  newline : '\n' ∉ s.toList
  carriage : s.toList.getLast? ≠ some '\r'

/-- What a line is read as: it loses a carriage return at its end. -/
def chomped (s : Identity) : Identity := String.ofList (chomp s.toList.reverse).reverse

theorem lines_lineOf_chomped {s : Identity} (h : '\n' ∉ s.toList) (rest : List Char) :
    lines (lineOf s ++ rest) = chomped s :: lines rest := by
  have hline : ∀ c ∈ s.toList, c ≠ '\n' := fun c hc heq => h (heq ▸ hc)
  rw [lines, lineOf, List.append_assoc, linesFrom_append hline, List.append_nil, List.singleton_append,
    linesFrom, if_pos rfl]
  rfl

theorem lines_flatMap_chomped {names : List Identity} (h : ∀ s ∈ names, '\n' ∉ s.toList) :
    lines (names.flatMap lineOf) = names.map chomped := by
  induction names with
  | nil => rfl
  | cons s names ih =>
    rw [List.flatMap_cons, lines_lineOf_chomped (h s List.mem_cons_self),
      ih fun x hx => h x (List.mem_cons_of_mem _ hx), List.map_cons]

theorem OneLine.chomped {s : Identity} (h : OneLine s) : chomped s = s := by
  have hlast : (s.toList.reverse).head? ≠ some '\r' := by
    rw [List.head?_reverse]
    exact h.carriage
  have hsame : chomp s.toList.reverse = s.toList.reverse := by
    unfold chomp
    split
    next heq => exact absurd (by rw [heq]; rfl) hlast
    next => rfl
  rw [Tides.chomped, hsame, List.reverse_reverse, String.ofList_toList]

theorem length_chomp (reversed : List Char) : (chomp reversed).length ≤ reversed.length ∧
    (reversed.head? = some '\r' → (chomp reversed).length < reversed.length) := by
  unfold chomp
  split
  next => simp
  next hother =>
    refine ⟨Nat.le_refl _, fun hhead => ?_⟩
    cases reversed with
    | nil => exact absurd hhead (by simp)
    | cons c reversed =>
      obtain rfl : c = '\r' := by simpa using hhead
      exact absurd rfl (hother reversed)

theorem length_chomped (s : Identity) : (chomped s).toList.length ≤ s.toList.length ∧
    (s.toList.getLast? = some '\r' → (chomped s).toList.length < s.toList.length) := by
  have hlen := length_chomp s.toList.reverse
  rw [List.head?_reverse, List.length_reverse] at hlen
  rwa [chomped, String.toList_ofList, List.length_reverse]

/-- A line that is read has no newline in it. -/
theorem newline_notMem_linesFrom {reversed text : List Char} (h : '\n' ∉ reversed) :
    ∀ s ∈ linesFrom reversed text, '\n' ∉ s.toList := by
  induction text generalizing reversed with
  | nil =>
    intro s hs
    rw [linesFrom] at hs
    split at hs
    next => exact absurd hs List.not_mem_nil
    next =>
      rw [List.mem_singleton.mp hs, String.toList_ofList, List.mem_reverse]
      exact h
  | cons c text ih =>
    intro s hs
    rw [linesFrom] at hs
    split at hs
    next =>
      rcases List.mem_cons.mp hs with rfl | hs
      · rw [String.toList_ofList, List.mem_reverse]
        intro hmem
        refine h ?_
        unfold chomp at hmem
        split at hmem
        next => exact List.mem_cons_of_mem _ hmem
        next => exact hmem
      · exact ih List.not_mem_nil s hs
    next hc =>
      have hnext : '\n' ∉ c :: reversed := by
        rw [List.mem_cons, not_or]
        exact ⟨Ne.symm hc, h⟩
      exact ih hnext s hs

theorem mem_listed {text : List Char} {s : Identity} (h : s ∈ listed text) : s ≠ "" ∧ '\n' ∉ s.toList := by
  obtain ⟨hline, hne⟩ := List.mem_filter.mp (List.mem_eraseDups.mp h)
  exact ⟨of_decide_eq_true hne, newline_notMem_linesFrom List.not_mem_nil s hline⟩

/-- Names that are one line each are listed as they are. -/
theorem listed_of_oneLine {names : List Identity} (hn : names.Nodup) (h : ∀ s ∈ names, OneLine s) :
    listed (names.flatMap lineOf) = names := by
  have hsame : names.map chomped = names := by
    conv_rhs => rw [← List.map_id names]
    exact List.map_congr_left fun s hs => (h s hs).chomped
  have hkeep : names.filter (· ≠ "") = names :=
    List.filter_eq_self.mpr fun s hs => decide_eq_true (h s hs).nonempty
  rw [listed, lines_flatMap_chomped fun s hs => (h s hs).newline, hsame, hkeep, Places.eraseDups_of_nodup hn]

/-- Names that are all listed are one line each: otherwise the lines would be shorter than the names. -/
theorem oneLine_of_listed {names : List Identity} (hn : names.Nodup)
    (h : ∀ s ∈ names, s ∈ listed (names.flatMap lineOf)) : ∀ s ∈ names, OneLine s := by
  have hnewline : ∀ s ∈ names, '\n' ∉ s.toList := fun s hs => (mem_listed (h s hs)).2
  have hsub : names ⊆ names.map chomped := by
    intro s hs
    have hmem := (List.mem_filter.mp (List.mem_eraseDups.mp (h s hs))).1
    rwa [lines_flatMap_chomped hnewline] at hmem
  have hperm : names.Perm (names.map chomped) :=
    (hn.subperm hsub).perm_of_length_le (by rw [List.length_map])
  have hsum : (names.map fun s => s.toList.length).sum =
      (names.map fun s => (chomped s).toList.length).sum := by
    simpa only [List.map_map, Function.comp_def] using (hperm.map fun s => s.toList.length).sum_eq
  intro s hs
  obtain ⟨hne, hline⟩ := mem_listed (h s hs)
  refine ⟨hne, hline, fun hlast => ?_⟩
  have hless : (names.map fun s => (chomped s).toList.length).sum <
      (names.map fun s => s.toList.length).sum := by
    refine List.sum_lt_sum _ _ (fun t _ => ?_) ⟨s, hs, ?_⟩
    · exact (length_chomped t).1
    · exact (length_chomped s).2 hlast
  exact absurd hsum (Nat.ne_of_gt hless)

end WaviclesPrime.Tides
