import WaviclesPrime.Tides.Ledger

/-! What is read back from a ledger's files. -/
namespace WaviclesPrime.Tides
open Machine

namespace Credit

@[simp] theorem length_write (c : Credit) : c.write.length = size := by
  simp [write, size]

/-- A row is read back as it was written. -/
theorem read_write (c : Credit) : read c.write = c := by
  have hts : LittleEndian.read (LittleEndian.write 4 c.ts.toNat) = c.ts.toNat :=
    LittleEndian.read_write c.ts.toNat_lt
  have hident : LittleEndian.read (LittleEndian.write 4 c.ident.toNat) = c.ident.toNat :=
    LittleEndian.read_write c.ident.toNat_lt
  have hwork : LittleEndian.read (LittleEndian.write 8 c.work.toNat) = c.work.toNat :=
    LittleEndian.read_write c.work.toNat_lt
  have hheight : LittleEndian.read (LittleEndian.write 4 c.height.toNat) = c.height.toNat :=
    LittleEndian.read_write c.height.toNat_lt
  simp [read, write, List.drop_append, LittleEndian.drop_write, hts,
    hident, hwork, hheight]

end Credit

theorem readRows_of_short {bytes : Bytes} (h : bytes.length < Credit.size) : readRows bytes = [] := by
  rw [readRows, Nat.div_eq_of_lt h]
  rfl

theorem readRows_append {row rest : Bytes} (h : row.length = Credit.size) :
    readRows (row ++ rest) = Credit.read row :: readRows rest := by
  have hcount : (row ++ rest).length / Credit.size = rest.length / Credit.size + 1 := by
    rw [List.length_append, h, Nat.add_div_left _ (by decide)]
  rw [readRows, hcount, List.range_succ_eq_map, List.map_cons, List.map_map]
  congr 1
  · rw [Nat.mul_zero, List.drop_zero, List.take_left' h]
  · refine List.map_congr_left fun i _ => ?_
    have hdrop : (row ++ rest).drop (Credit.size * (i + 1)) = rest.drop (Credit.size * i) := by
      rw [Nat.mul_add, Nat.mul_one, Nat.add_comm, ← List.drop_drop, List.drop_left' h]
    simp only [Function.comp_apply, Nat.succ_eq_add_one, hdrop]

/-- Bytes that end where a row does. -/
def Whole (bytes : Bytes) : Prop := Credit.size ∣ bytes.length

theorem Whole.append {bytes more : Bytes} (h : Whole bytes) (hmore : Whole more) : Whole (bytes ++ more) := by
  rw [Whole, List.length_append]
  exact Nat.dvd_add h hmore

/-- Whole rows, and then whatever follows them. -/
theorem Whole.readRows_append {bytes : Bytes} (h : Whole bytes) (rest : Bytes) :
    readRows (bytes ++ rest) = readRows bytes ++ readRows rest := by
  obtain ⟨count, hcount⟩ := h
  induction count generalizing bytes with
  | zero =>
    obtain rfl := List.eq_nil_of_length_eq_zero hcount
    rfl
  | succ count ih =>
    rw [Nat.mul_add, Nat.mul_one] at hcount
    have hrow : (bytes.take Credit.size).length = Credit.size := by rw [List.length_take]; omega
    have hdrop : (bytes.drop Credit.size).length = Credit.size * count := by rw [List.length_drop]; omega
    rw [← List.take_append_drop Credit.size bytes, List.append_assoc, Tides.readRows_append hrow,
      ih hdrop, Tides.readRows_append hrow, List.cons_append]

theorem whole_write (rows : List Credit) : Whole (rows.flatMap Credit.write) := by
  induction rows with
  | nil => exact Nat.dvd_zero _
  | cons c rows ih => exact Whole.append (by rw [Whole, Credit.length_write]) ih

@[simp] theorem readRows_write (rows : List Credit) : readRows (rows.flatMap Credit.write) = rows := by
  induction rows with
  | nil => rfl
  | cons c rows ih =>
    rw [List.flatMap_cons, readRows_append c.length_write, Credit.read_write, ih]

/-- A fragment after whole rows is left out. -/
theorem readRows_fragment {bytes fragment : Bytes} (h : Whole bytes) (hf : fragment.length < Credit.size) :
    readRows (bytes ++ fragment) = readRows bytes := by
  rw [h.readRows_append, readRows_of_short hf, List.append_nil]

/-- A name that stands on a line of its own: not empty, and without the ends of lines. -/
def Plain (s : Identity) : Prop := s ≠ "" ∧ ∀ c ∈ s.toList, c ≠ '\n' ∧ c ≠ '\r'

def lineOf (s : Identity) : List Char := s.toList ++ ['\n']

theorem linesFrom_append {reversed text : List Char} (h : ∀ c ∈ text, c ≠ '\n') (rest : List Char) :
    linesFrom reversed (text ++ rest) = linesFrom (text.reverse ++ reversed) rest := by
  induction text generalizing reversed with
  | nil => rfl
  | cons c text ih =>
    rw [List.cons_append, linesFrom, if_neg (h c List.mem_cons_self),
      ih fun x hx => h x (List.mem_cons_of_mem _ hx), List.reverse_cons, List.append_assoc]
    rfl

theorem chomp_of_notMem {reversed : List Char} (h : ∀ c ∈ reversed, c ≠ '\r') : chomp reversed = reversed := by
  cases reversed with
  | nil => rfl
  | cons c reversed =>
    unfold chomp
    split
    next heq => exact absurd (List.cons.inj heq).1 (h c List.mem_cons_self)
    next => rfl

theorem lines_lineOf {s : Identity} (h : Plain s) (rest : List Char) :
    lines (lineOf s ++ rest) = s :: lines rest := by
  rw [lines, lineOf, List.append_assoc, linesFrom_append fun c hc => (h.2 c hc).1, List.append_nil,
    List.singleton_append, linesFrom, if_pos rfl,
    chomp_of_notMem fun c hc => (h.2 c (List.mem_reverse.mp hc)).2, List.reverse_reverse,
    String.ofList_toList]
  rfl

/-- Names that stand on lines of their own are read back as they are. -/
theorem lines_flatMap {names : List Identity} (h : ∀ s ∈ names, Plain s) :
    lines (names.flatMap lineOf) = names := by
  induction names with
  | nil => rfl
  | cons s names ih =>
    rw [List.flatMap_cons, lines_lineOf (h s List.mem_cons_self),
      ih fun x hx => h x (List.mem_cons_of_mem _ hx)]

end WaviclesPrime.Tides
