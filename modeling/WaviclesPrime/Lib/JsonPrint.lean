import Mathlib.Tactic.Common
import WaviclesPrime.Lib.Json
import WaviclesPrime.Lib.Utf8

/-! The compact text of a document, which tells the document. -/
namespace WaviclesPrime.Json

/-- What may follow a value: nothing that could go on a number. -/
def Ends (rest : List Char) : Prop := ∀ c ∈ rest.head?, ¬ c.isDigit

theorem ends_nil : Ends [] := nofun

theorem ends_cons {c : Char} (h : ¬ c.isDigit) (rest : List Char) : Ends (c :: rest) :=
  fun _ hc => Option.some.inj hc ▸ h

/-- A text tells what was printed, and where it ends. -/
def Tells {α : Type} (print : α → List Char) (a : α) : Prop :=
  ∀ b rest rest', Ends rest → Ends rest' → print a ++ rest = print b ++ rest' → a = b ∧ rest = rest'

/-- The letter after the backslash, for the characters that have one. -/
def letter (c : Char) : Option Char :=
  match c.toNat with
  | 8 => some 'b'
  | 9 => some 't'
  | 10 => some 'n'
  | 12 => some 'f'
  | 13 => some 'r'
  | 34 => some '"'
  | 92 => some '\\'
  | _ => none

def escape (c : Char) : List Char :=
  match letter c with
  | some l => ['\\', l]
  | none =>
    if c.toNat < 32 then ['\\', 'u', '0', '0', (c.toNat / 16).digitChar, (c.toNat % 16).digitChar]
    else [c]

def quote (s : String) : List Char := '"' :: s.toList.flatMap escape ++ ['"']

def printInt : Int → List Char
  | .ofNat n => Nat.toDigits 10 n
  | .negSucc n => '-' :: Nat.toDigits 10 (n + 1)

/-- Texts after a first one, each behind a comma. -/
def more : List (List Char) → List Char
  | [] => []
  | x :: xs => ',' :: x ++ more xs

def commas : List (List Char) → List Char
  | [] => []
  | x :: xs => x ++ more xs

mutual

def print : Json → List Char
  | .str s => quote s
  | .int n => printInt n
  | .arr xs => '[' :: commas (printAll xs) ++ [']']
  | .obj m => '{' :: commas (printFields m) ++ ['}']

def printAll : List Json → List (List Char)
  | [] => []
  | x :: xs => x.print :: printAll xs

def printFields : List (String × Json) → List (List Char)
  | [] => []
  | (k, v) :: m => (quote k ++ ':' :: v.print) :: printFields m

end

/-- The compact text in bytes. -/
def compact (v : Json) : Bytes := asBytes (.ofList v.print)

def printField (e : String × Json) : List Char := quote e.1 ++ ':' :: e.2.print

@[simp] theorem printAll_eq (xs : List Json) : printAll xs = xs.map print := by
  induction xs with
  | nil => rfl
  | cons x xs ih => rw [printAll, ih, List.map_cons]

@[simp] theorem printFields_eq (m : List (String × Json)) : printFields m = m.map printField := by
  induction m with
  | nil => rfl
  | cons e m ih => rw [printFields, ih, List.map_cons, printField]

/-- The character a letter stands for. -/
def ofLetter (l : Char) : Char :=
  match l with
  | 'b' => .ofNat 8
  | 't' => .ofNat 9
  | 'n' => .ofNat 10
  | 'f' => .ofNat 12
  | 'r' => .ofNat 13
  | l => l

theorem ofLetter_of_letter {c l : Char} (h : letter c = some l) : ofLetter l = c ∧ l ≠ 'u' := by
  have hc := c.ofNat_toNat
  unfold letter at h
  split at h
  all_goals cases h
  all_goals
    next hn =>
      rw [hn] at hc
      rw [← hc]
      decide

theorem digitChar_inj {m n : Nat} (hm : m < 16) (hn : n < 16) (h : m.digitChar = n.digitChar) : m = n := by
  have hall : ∀ m < 16, ∀ n < 16, m.digitChar = n.digitChar → m = n := by decide
  exact hall m hm n hn h

theorem letter_inj {a b l : Char} (ha : letter a = some l) (hb : letter b = some l) : a = b :=
  (ofLetter_of_letter ha).1.symm.trans (ofLetter_of_letter hb).1

/-- An escape is a backslash and a letter, or a backslash and a code, or the character itself. -/
theorem escape_cases (c : Char) :
    (∃ l, letter c = some l ∧ escape c = ['\\', l]) ∨
    (c.toNat < 32 ∧ escape c = ['\\', 'u', '0', '0', (c.toNat / 16).digitChar, (c.toNat % 16).digitChar]) ∨
    (escape c = [c] ∧ c ≠ '\\' ∧ c ≠ '"') := by
  unfold escape
  cases hc : letter c with
  | some l => exact .inl ⟨l, rfl, rfl⟩
  | none =>
    dsimp only
    split
    next hlow => exact .inr (.inl ⟨hlow, rfl⟩)
    next =>
      refine .inr (.inr ⟨rfl, ?_, ?_⟩)
      · rintro rfl
        cases hc
      · rintro rfl
        cases hc

theorem escape_inj {a b : Char} {rest rest' : List Char} (h : escape a ++ rest = escape b ++ rest') :
    a = b ∧ rest = rest' := by
  obtain ⟨l, hl, ha⟩ | ⟨hlow, ha⟩ | ⟨ha, hne, -⟩ := escape_cases a
  · obtain ⟨l', hl', hb⟩ | ⟨-, hb⟩ | ⟨hb, hne', -⟩ := escape_cases b
    · rw [ha, hb] at h
      obtain ⟨rfl, rfl⟩ : l = l' ∧ rest = rest' := by simpa using h
      exact ⟨letter_inj hl hl', rfl⟩
    · rw [ha, hb] at h
      obtain ⟨hu, -⟩ : l = 'u' ∧ _ := by simpa using h
      exact absurd hu (ofLetter_of_letter hl).2
    · rw [ha, hb] at h
      exact absurd (List.cons.inj h).1.symm hne'
  · obtain ⟨l', hl', hb⟩ | ⟨hlow', hb⟩ | ⟨hb, hne', -⟩ := escape_cases b
    · rw [ha, hb] at h
      obtain ⟨hu, -⟩ : 'u' = l' ∧ _ := by simpa using h
      exact absurd hu.symm (ofLetter_of_letter hl').2
    · rw [ha, hb] at h
      obtain ⟨hhigh, hdigit, hrest⟩ : (a.toNat / 16).digitChar = (b.toNat / 16).digitChar ∧
          (a.toNat % 16).digitChar = (b.toNat % 16).digitChar ∧ rest = rest' := by simpa using h
      have hdiv := digitChar_inj (by omega) (by omega) hhigh
      have hmod := digitChar_inj (Nat.mod_lt _ (by decide)) (Nat.mod_lt _ (by decide)) hdigit
      have hcode : a.toNat = b.toNat := by omega
      exact ⟨by rw [← a.ofNat_toNat, hcode, b.ofNat_toNat], hrest⟩
    · rw [ha, hb] at h
      exact absurd (List.cons.inj h).1.symm hne'
  · obtain ⟨l', hl', hb⟩ | ⟨-, hb⟩ | ⟨hb, -, -⟩ := escape_cases b
    · rw [ha, hb] at h
      exact absurd (List.cons.inj h).1 hne
    · rw [ha, hb] at h
      exact absurd (List.cons.inj h).1 hne
    · rw [ha, hb] at h
      exact List.cons.inj h

theorem escape_ne_mark {c : Char} {rest rest' : List Char} : escape c ++ rest ≠ '"' :: rest' := by
  intro h
  obtain ⟨l, -, hc⟩ | ⟨-, hc⟩ | ⟨hc, -, hne⟩ := escape_cases c
  · rw [hc] at h
    exact absurd (List.cons.inj h).1 (by decide)
  · rw [hc] at h
    exact absurd (List.cons.inj h).1 (by decide)
  · rw [hc] at h
    exact absurd (List.cons.inj h).1 hne

/-- A quoted text ends at its closing mark. -/
theorem quote_inj {s t : String} {rest rest' : List Char} (h : quote s ++ rest = quote t ++ rest') :
    s = t ∧ rest = rest' := by
  have hbody (cs ds : List Char)
      (h : cs.flatMap escape ++ '"' :: rest = ds.flatMap escape ++ '"' :: rest') : cs = ds ∧ rest = rest' := by
    induction cs generalizing ds with
    | nil =>
      cases ds with
      | nil => exact ⟨rfl, (List.cons.inj h).2⟩
      | cons d ds =>
        rw [List.flatMap_cons, List.append_assoc] at h
        exact absurd h.symm escape_ne_mark
    | cons c cs ih =>
      cases ds with
      | nil =>
        rw [List.flatMap_cons, List.append_assoc] at h
        exact absurd h escape_ne_mark
      | cons d ds =>
        rw [List.flatMap_cons, List.flatMap_cons, List.append_assoc, List.append_assoc] at h
        obtain ⟨rfl, htail⟩ := escape_inj h
        obtain ⟨rfl, hrest⟩ := ih ds htail
        exact ⟨rfl, hrest⟩
  unfold quote at h
  rw [List.cons_append, List.cons_append, List.append_assoc, List.append_assoc] at h
  obtain ⟨hchars, hrest⟩ := hbody _ _ (List.cons.inj h).2
  exact ⟨String.toList_inj.mp hchars, hrest⟩

theorem takeWhile_digits {n : Nat} {rest : List Char} (h : Ends rest) :
    (Nat.toDigits 10 n ++ rest).takeWhile Char.isDigit = Nat.toDigits 10 n := by
  rw [List.takeWhile_append_of_pos fun c hc => Nat.isDigit_of_mem_toDigits (by decide) (by decide) hc]
  cases rest with
  | nil => simp
  | cons c rest => rw [List.takeWhile_cons_of_neg (h c rfl), List.append_nil]

theorem digits_inj {m n : Nat} {rest rest' : List Char} (hr : Ends rest) (hr' : Ends rest')
    (h : Nat.toDigits 10 m ++ rest = Nat.toDigits 10 n ++ rest') : m = n ∧ rest = rest' := by
  have hdigits := congrArg (List.takeWhile Char.isDigit) h
  rw [takeWhile_digits hr, takeWhile_digits hr'] at hdigits
  have hvalue := congrArg (Nat.ofDigitChars 10 · 0) hdigits
  simp only [Nat.ofDigitChars_ten_toDigits] at hvalue
  exact ⟨hvalue, List.append_cancel_left (hdigits ▸ h)⟩

theorem digits_head (n : Nat) : ∃ c rest, Nat.toDigits 10 n = c :: rest ∧ c.isDigit := by
  obtain ⟨c, rest, h⟩ := List.exists_cons_of_ne_nil (Nat.toDigits_ne_nil (n := n) (b := 10))
  exact ⟨c, rest, h, Nat.isDigit_of_mem_toDigits (by decide) (by decide) (h ▸ List.mem_cons_self)⟩

theorem minus_ne_digits {n : Nat} {rest rest' : List Char} : '-' :: rest ≠ Nat.toDigits 10 n ++ rest' := by
  intro h
  obtain ⟨c, tail, hc, hdigit⟩ := digits_head n
  rw [hc] at h
  obtain rfl : '-' = c := (List.cons.inj h).1
  exact absurd hdigit (by decide)

theorem printInt_tells (n : Int) : Tells printInt n := by
  intro m rest rest' hr hr' h
  cases n with
  | ofNat n =>
    cases m with
    | ofNat m =>
      obtain ⟨rfl, hrest⟩ := digits_inj hr hr' h
      exact ⟨rfl, hrest⟩
    | negSucc m => exact absurd h.symm minus_ne_digits
  | negSucc n =>
    cases m with
    | ofNat m => exact absurd h minus_ne_digits
    | negSucc m =>
      obtain ⟨heq, hrest⟩ := digits_inj hr hr' (List.cons.inj h).2
      obtain rfl := Nat.succ.inj heq
      exact ⟨rfl, hrest⟩

/-- A separated list ends at the mark that closes it. -/
theorem more_inj {α : Type} {print : α → List Char} {close : Char} (hclose : close ≠ ',' ∧ ¬ close.isDigit)
    {xs ys : List α} (h : ∀ x ∈ xs, Tells print x) {rest rest' : List Char}
    (htext : more (xs.map print) ++ close :: rest = more (ys.map print) ++ close :: rest') :
    xs = ys ∧ rest = rest' := by
  have hends (zs : List α) (rest : List Char) : Ends (more (zs.map print) ++ close :: rest) := by
    cases zs with
    | nil => exact ends_cons hclose.2 rest
    | cons z zs => exact ends_cons (by decide) _
  induction xs generalizing ys with
  | nil =>
    cases ys with
    | nil => exact ⟨rfl, (List.cons.inj htext).2⟩
    | cons y ys => exact absurd (List.cons.inj htext).1 hclose.1
  | cons x xs ih =>
    obtain ⟨hx, hxs⟩ := List.forall_mem_cons.mp h
    cases ys with
    | nil => exact absurd (List.cons.inj htext).1.symm hclose.1
    | cons y ys =>
      rw [List.map_cons, List.map_cons, more, more, List.cons_append, List.cons_append, List.cons_append,
        List.cons_append, List.append_assoc, List.append_assoc] at htext
      obtain ⟨rfl, htail⟩ := hx y _ _ (hends xs rest) (hends ys rest') (List.cons.inj htext).2
      obtain ⟨rfl, hrest⟩ := ih hxs htail
      exact ⟨rfl, hrest⟩

theorem commas_inj {α : Type} {print : α → List Char} {close : Char} (hclose : close ≠ ',' ∧ ¬ close.isDigit)
    (hopen : ∀ a rest rest', print a ++ rest ≠ close :: rest') {xs ys : List α} (h : ∀ x ∈ xs, Tells print x)
    {rest rest' : List Char}
    (htext : commas (xs.map print) ++ close :: rest = commas (ys.map print) ++ close :: rest') :
    xs = ys ∧ rest = rest' := by
  cases xs with
  | nil =>
    cases ys with
    | nil => exact ⟨rfl, (List.cons.inj htext).2⟩
    | cons y ys =>
      rw [List.map_cons, commas, List.append_assoc] at htext
      exact absurd htext.symm (hopen y _ _)
  | cons x xs =>
    cases ys with
    | nil =>
      rw [List.map_cons, commas, List.append_assoc] at htext
      exact absurd htext (hopen x _ _)
    | cons y ys =>
      have hmore : more ((x :: xs).map print) ++ close :: rest = more ((y :: ys).map print) ++ close :: rest' :=
        congrArg (',' :: ·) htext
      exact more_inj hclose h hmore

/-- The kinds of documents, and the kind a character starts; the last is none of them. -/
def kind : Json → Nat
  | .str _ => 0
  | .int _ => 1
  | .arr _ => 2
  | .obj _ => 3

def startKind (c : Char) : Nat :=
  if c = '"' then 0
  else if c = '-' ∨ c.isDigit then 1
  else if c = '[' then 2
  else if c = '{' then 3
  else 4

theorem print_head (v : Json) : ∃ c rest, v.print = c :: rest ∧ startKind c = v.kind := by
  cases v with
  | str s => exact ⟨_, _, rfl, rfl⟩
  | int n =>
    cases n with
    | ofNat n =>
      obtain ⟨c, rest, hc, hdigit⟩ := digits_head n
      refine ⟨c, rest, hc, ?_⟩
      rw [startKind, if_neg (by rintro rfl; exact absurd hdigit (by decide)), if_pos (.inr hdigit)]
      rfl
    | negSucc n => exact ⟨_, _, rfl, rfl⟩
  | arr xs => exact ⟨_, _, rfl, rfl⟩
  | obj m => exact ⟨_, _, rfl, rfl⟩

theorem kind_eq {v w : Json} {rest rest' : List Char} (h : v.print ++ rest = w.print ++ rest') : v.kind = w.kind := by
  obtain ⟨c, tail, hv, hkind⟩ := v.print_head
  obtain ⟨d, tail', hw, hkind'⟩ := w.print_head
  rw [hv, hw] at h
  rw [← hkind, ← hkind', (List.cons.inj h).1]

theorem print_ne_close (v : Json) (rest rest' : List Char) : v.print ++ rest ≠ ']' :: rest' := by
  intro h
  obtain ⟨c, tail, hv, hkind⟩ := v.print_head
  rw [hv] at h
  obtain rfl : c = ']' := (List.cons.inj h).1
  cases v with
  | _ => cases hkind

theorem printField_tells {e : String × Json} (h : Tells print e.2) : Tells printField e := by
  intro e' rest rest' hr hr' htext
  unfold printField at htext
  rw [List.append_assoc, List.append_assoc] at htext
  obtain ⟨hkey, htail⟩ := quote_inj htext
  obtain ⟨hvalue, hrest⟩ := h e'.2 rest rest' hr hr' (List.cons.inj htail).2
  exact ⟨Prod.ext hkey hvalue, hrest⟩

/-- The text of a document tells the document. -/
theorem print_tells (v : Json) : Tells print v := by
  induction v using nested with
  | str s =>
    intro w rest rest' hr hr' h
    cases w with
    | str t =>
      obtain ⟨rfl, hrest⟩ := quote_inj h
      exact ⟨rfl, hrest⟩
    | _ => cases kind_eq h
  | int n =>
    intro w rest rest' hr hr' h
    cases w with
    | int m =>
      obtain ⟨rfl, hrest⟩ := printInt_tells n m rest rest' hr hr' h
      exact ⟨rfl, hrest⟩
    | _ => cases kind_eq h
  | arr xs ih =>
    intro w rest rest' hr hr' h
    cases w with
    | arr ys =>
      rw [print, print, printAll_eq, printAll_eq, List.cons_append, List.cons_append, List.cons_append,
        List.cons_append, List.append_assoc, List.append_assoc] at h
      obtain ⟨rfl, hrest⟩ := commas_inj (by decide) print_ne_close ih (List.cons.inj h).2
      exact ⟨rfl, hrest⟩
    | _ => cases kind_eq h
  | obj m ih =>
    intro w rest rest' hr hr' h
    cases w with
    | obj m' =>
      rw [print, print, printFields_eq, printFields_eq, List.cons_append, List.cons_append, List.cons_append,
        List.cons_append, List.append_assoc, List.append_assoc] at h
      obtain ⟨rfl, hrest⟩ := commas_inj (by decide) (fun e rest rest' h => absurd (List.cons.inj h).1 (by decide))
        (fun e he => printField_tells (ih e he)) (List.cons.inj h).2
      exact ⟨rfl, hrest⟩
    | _ => cases kind_eq h

theorem compact_injective : Function.Injective compact := by
  intro v w h
  have htext : String.ofList v.print = String.ofList w.print := by
    rw [← Utf8.fromUtf8Lossy_asBytes (.ofList v.print), ← Utf8.fromUtf8Lossy_asBytes (.ofList w.print)]
    exact congrArg Utf8.fromUtf8Lossy h
  have hprint : v.print ++ [] = w.print ++ [] := congrArg (· ++ []) (String.ofList_injective htext)
  exact (print_tells v w [] [] ends_nil ends_nil hprint).1

end WaviclesPrime.Json
