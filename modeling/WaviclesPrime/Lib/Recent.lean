import Mathlib.Data.List.Basic
import Mathlib.Data.List.TakeWhile
import Mathlib.Tactic.Common

/-! Queues ordered in time, cut from the front to what is recent. -/
namespace WaviclesPrime.Recent
variable {α : Type} {p : α → Bool} {time : α → Nat} {horizon now : Nat} {xs : List α}

/-- In order of time. -/
def Ordered (time : α → Nat) (xs : List α) : Prop := xs.Pairwise fun x y => time x ≤ time y

/-- Drop the front while it is older than the horizon. -/
def trim (time : α → Nat) (horizon now : Nat) (xs : List α) : List α :=
  xs.dropWhile fun x => horizon < now - time x

def isRecent (time : α → Nat) (horizon now : Nat) (x : α) : Bool := now - time x ≤ horizon

/-- Where what fails comes first, dropping it is filtering it out. -/
theorem dropWhile_eq_filter (h : xs.Pairwise fun x y => p x = false → p y = false) :
    xs.dropWhile p = xs.filter fun x => !p x := by
  induction xs with
  | nil => rfl
  | cons x xs ih =>
    obtain ⟨hx, hxs⟩ := List.pairwise_cons.mp h
    cases hp : p x with
    | true => rw [List.dropWhile_cons_of_pos hp, List.filter_cons_of_neg (by simp [hp]), ih hxs]
    | false =>
      have hall : xs.filter (fun x => !p x) = xs :=
        List.filter_eq_self.mpr fun y hy => by rw [hx y hy hp]; rfl
      rw [List.dropWhile_cons_of_neg (by simp [hp]), List.filter_cons_of_pos (by simp [hp]), hall]

theorem trim_eq_filter (h : Ordered time xs) (horizon now : Nat) :
    trim time horizon now xs = xs.filter (isRecent time horizon now) := by
  have hpair : xs.Pairwise fun x y => decide (horizon < now - time x) = false → decide (horizon < now - time y) = false := by
    refine h.imp fun hle hx => ?_
    simp only [decide_eq_false_iff_not] at hx ⊢
    omega
  rw [trim, dropWhile_eq_filter hpair]
  refine List.filter_congr fun x _ => ?_
  rw [isRecent, ← decide_not, decide_eq_decide, Nat.not_lt]

/-- Cutting earlier does not change what is left later. -/
theorem filter_isRecent_filter {earlier : Nat} (hle : earlier ≤ now) (xs : List α) :
    (xs.filter (isRecent time horizon earlier)).filter (isRecent time horizon now) =
      xs.filter (isRecent time horizon now) := by
  rw [List.filter_filter]
  refine List.filter_congr fun x _ => ?_
  unfold isRecent
  by_cases h : now - time x ≤ horizon
  · simp [h, show earlier - time x ≤ horizon by omega]
  · simp [h]

/-- Where what passes comes last, more than so many pass when the one that many from the end does. -/
theorem lt_length_filter (h : xs.Pairwise fun x y => p x = true → p y = true) {k : Nat} :
    k < (xs.filter p).length ↔ ∃ hk : k < xs.length, p (xs[xs.length - 1 - k]) = true := by
  induction xs with
  | nil => simp
  | cons x xs ih =>
    obtain ⟨hx, hxs⟩ := List.pairwise_cons.mp h
    cases hp : p x with
    | true =>
      have hall : (x :: xs).filter p = x :: xs := by
        refine List.filter_eq_self.mpr fun y hy => ?_
        rcases List.mem_cons.mp hy with rfl | hy
        · exact hp
        · exact hx y hy hp
      rw [hall]
      refine ⟨fun hk => ⟨hk, ?_⟩, fun ⟨hk, _⟩ => hk⟩
      exact (List.filter_eq_self.mp hall) _ (List.getElem_mem _)
    | false =>
      rw [List.filter_cons_of_neg (by simp [hp]), ih hxs]
      constructor
      · rintro ⟨hk, hlast⟩
        refine ⟨Nat.lt_succ_of_lt hk, ?_⟩
        have hindex : (x :: xs).length - 1 - k = (xs.length - 1 - k) + 1 := by
          rw [List.length_cons]
          omega
        simpa only [hindex, List.getElem_cons_succ] using hlast
      · rintro ⟨hk, hlast⟩
        rw [List.length_cons] at hk
        rcases Nat.lt_succ_iff_lt_or_eq.mp hk with hlt | rfl
        · refine ⟨hlt, ?_⟩
          have hindex : (x :: xs).length - 1 - k = (xs.length - 1 - k) + 1 := by
            rw [List.length_cons]
            omega
          simpa only [hindex, List.getElem_cons_succ] using hlast
        · simp [hp] at hlast

end WaviclesPrime.Recent
