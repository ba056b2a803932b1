import Mathlib.Data.List.Infix
import Mathlib.Logic.Function.Iterate
import Mathlib.Tactic.Common

/-! Messages sealed one after another, each under the next value of its way's counter. -/
namespace WaviclesPrime.Sealed
variable {ι N P : Type} {next : N → N} {start : ι → N} {limit : Nat}

/-- Whether a way has sealed this message under this value. -/
def Under (next : N → N) (start : N) (sent : List P) (n : N) (p : P) : Prop :=
  ∃ i, sent[i]? = some p ∧ next^[i] start = n

/-- For so many messages, a value tells the way and the number of what is sealed under it. -/
def Apart (next : N → N) (start : ι → N) (limit : Nat) : Prop :=
  ∀ w w' i j, i < limit → j < limit → next^[i] (start w) = next^[j] (start w') → w = w' ∧ i = j

theorem Under.append {start n : N} {sent : List P} {p : P} (h : Under next start sent n p) (more : List P) :
    Under next start (sent ++ more) n p := by
  obtain ⟨i, hi, hn⟩ := h
  exact ⟨i, by rw [List.getElem?_append_left (List.getElem?_eq_some_iff.mp hi).1, hi], hn⟩

theorem Under.last (start : N) (sent : List P) (p : P) :
    Under next start (sent ++ [p]) (next^[sent.length] start) p :=
  ⟨sent.length, List.getElem?_concat_length, rfl⟩

theorem prefix_concat {opened sent : List P} {p : P} (hpre : opened <+: sent)
    (h : sent[opened.length]? = some p) : opened ++ [p] <+: sent := by
  obtain ⟨rest, rfl⟩ := hpre
  rw [List.getElem?_append_right (Nat.le_refl _), Nat.sub_self] at h
  obtain ⟨q, rest, rfl⟩ : ∃ q rest', rest = q :: rest' := by
    cases rest with
    | nil => cases h
    | cons q rest => exact ⟨q, rest, rfl⟩
  obtain rfl := Option.some.inj h
  exact ⟨rest, List.append_assoc ..⟩

/-- What opens under the value a receiver has come to, if any way has sealed it under that, is the
next message of the receiver's own. -/
theorem opened_next (hapart : Apart next start limit) {sent : ι → List P} (hlen : ∀ w, (sent w).length < limit)
    {w w' : ι} {opened : List P} (hpre : opened <+: sent w) {p : P}
    (h : Under next (start w') (sent w') (next^[opened.length] (start w)) p) : opened ++ [p] <+: sent w := by
  obtain ⟨i, hi, hvalue⟩ := h
  have hlt : i < limit := Nat.lt_trans (List.getElem?_eq_some_iff.mp hi).1 (hlen w')
  have hopened : opened.length < limit := Nat.lt_of_le_of_lt hpre.length_le (hlen w)
  obtain ⟨rfl, rfl⟩ := hapart _ _ _ _ hlt hopened hvalue
  exact prefix_concat hpre hi

end WaviclesPrime.Sealed
