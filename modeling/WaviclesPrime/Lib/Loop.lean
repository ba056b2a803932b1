import Mathlib.Data.List.Infix
import Mathlib.Tactic.Common

/-! Loops that may stop early, as monadic folds over the elements already consumed. -/
namespace WaviclesPrime.Loop
variable {σ α : Type}

private theorem foldlM_prefix {f : σ → α → Option σ} {P : List α → σ → Prop} (done xs : List α)
    (step : ∀ before x s s', before ++ [x] <+: done ++ xs → P before s → f s x = some s' →
      P (before ++ [x]) s')
    {s s' : σ} (h : P done s) (run : xs.foldlM f s = some s') : P (done ++ xs) s' := by
  induction xs generalizing done s with
  | nil => simpa using (Option.some.inj run) ▸ h
  | cons x xs ih =>
    simp only [List.foldlM_cons, Option.bind_eq_bind, Option.bind_eq_some_iff] at run
    obtain ⟨mid, hx, hrest⟩ := run
    have hp : done ++ [x] <+: done ++ x :: xs := ⟨xs, by simp⟩
    have hm := step done x s mid hp h hx
    simpa using ih (done ++ [x]) (by simpa using step) hm hrest

/-- A property of the consumed prefix that one iteration preserves holds after the loop. -/
theorem run_invariant {f : σ → α → Option σ} {P : List α → σ → Prop} {xs : List α}
    (step : ∀ before x s s', before ++ [x] <+: xs → P before s → f s x = some s' →
      P (before ++ [x]) s')
    {s s' : σ} (h : P [] s) (run : xs.foldlM f s = some s') : P xs s' := by
  simpa using foldlM_prefix [] xs (by simpa using step) h run

private theorem total_prefix {f : σ → α → Option σ} {P : List α → σ → Prop} (done xs : List α)
    (step : ∀ before x s, before ++ [x] <+: done ++ xs → P before s →
      ∃ s', f s x = some s' ∧ P (before ++ [x]) s')
    {s : σ} (h : P done s) : ∃ s', xs.foldlM f s = some s' ∧ P (done ++ xs) s' := by
  induction xs generalizing done s with
  | nil => exact ⟨s, rfl, by simpa using h⟩
  | cons x xs ih =>
    obtain ⟨mid, hx, hm⟩ := step done x s ⟨xs, by simp⟩ h
    obtain ⟨s', hr, hp⟩ := ih (done ++ [x]) (by simpa using step) hm
    exact ⟨s', by simp [List.foldlM_cons, hx, hr], by simpa using hp⟩

/-- If every iteration from a good state succeeds and keeps the property, the loop succeeds. -/
theorem run_total {f : σ → α → Option σ} {P : List α → σ → Prop} {xs : List α}
    (step : ∀ before x s, before ++ [x] <+: xs → P before s →
      ∃ s', f s x = some s' ∧ P (before ++ [x]) s')
    {s : σ} (h : P [] s) : ∃ s', xs.foldlM f s = some s' ∧ P xs s' := by
  simpa using total_prefix [] xs (by simpa using step) h

/-- A walk over a list in which every element has an answer. -/
theorem mapM_eq {β : Type} {f : α → Option β} {g : α → β} {xs : List α} (h : ∀ x ∈ xs, f x = some (g x)) :
    xs.mapM f = some (xs.map g) := by
  induction xs with
  | nil => rfl
  | cons x xs ih =>
    have ih := ih fun y hy => h y (List.mem_cons_of_mem _ hy)
    simp [List.mapM_cons, h x List.mem_cons_self, ih]

/-- What every answer keeps of its element, the answers keep of the list. -/
theorem mapM_map {β γ : Type} {f : α → Option β} {g : α → γ} {k : β → γ}
    (hf : ∀ x y, f x = some y → k y = g x) {xs : List α} {ys : List β} (h : xs.mapM f = some ys) :
    ys.map k = xs.map g := by
  induction xs generalizing ys with
  | nil => simpa [eq_comm] using h
  | cons x xs ih =>
    simp only [List.mapM_cons, Option.bind_eq_bind, Option.bind_eq_some_iff, Option.pure_def,
      Option.some.injEq] at h
    obtain ⟨y, hy, tail, ht, rfl⟩ := h
    rw [List.map_cons, List.map_cons, hf x y hy, ih ht]

end WaviclesPrime.Loop
