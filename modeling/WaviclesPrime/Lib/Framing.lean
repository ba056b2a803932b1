import Mathlib.Tactic.Common

/-! Reading a stream in pieces: what is complete is cut off, and the rest waits for more. -/
namespace WaviclesPrime.Framing
variable {σ α β : Type}

/-- One cut, if enough is there: what it yields, the state after it, and what is left. -/
abbrev Cutter (σ α β : Type) := σ → List β → Option (List α × σ × List β)

variable (next : Cutter σ α β)

/-- What comes later does not change a cut. -/
def Local : Prop := ∀ s u o s' rest, next s u = some (o, s', rest) →
  ∀ v, next s (u ++ v) = some (o, s', rest ++ v)

/-- Cutting for as long as enough is there. -/
inductive Cuts : σ → List β → List α → σ → List β → Prop
  | stop {s u} (h : next s u = none) : Cuts s u [] s u
  | more {s u o s' rest out t left} (h : next s u = some (o, s', rest)) (tail : Cuts s' rest out t left) :
      Cuts s u (o ++ out) t left

/-- Cutting after each piece, from what the last one left. -/
inductive Reads : σ → List β → List (List β) → List α → σ → List β → Prop
  | done (s left) : Reads s left [] [] s left
  | piece {s left c o t left' pieces out u rest} (h : Cuts next s (left ++ c) o t left')
      (tail : Reads t left' pieces out u rest) : Reads s left (c :: pieces) (o ++ out) u rest

variable {next} {s t : σ} {u left : List β} {out : List α}

theorem Cuts.stuck (h : Cuts next s u out t left) : next t left = none := by
  induction h with
  | stop h => exact h
  | more _ _ ih => exact ih

/-- There is one way to cut a stream. -/
theorem Cuts.unique {out' : List α} {t' : σ} {left' : List β} (h : Cuts next s u out t left)
    (h' : Cuts next s u out' t' left') : out = out' ∧ t = t' ∧ left = left' := by
  induction h generalizing out' with
  | stop hstop =>
    cases h' with
    | stop => exact ⟨rfl, rfl, rfl⟩
    | more hmore => exact absurd hstop (by simp [hmore])
  | more hmore _ ih =>
    cases h' with
    | stop hstop => exact absurd hstop (by simp [hmore])
    | more hmore' tail =>
      rw [hmore, Option.some.injEq, Prod.mk.injEq, Prod.mk.injEq] at hmore'
      obtain ⟨rfl, rfl, rfl⟩ := hmore'
      obtain ⟨rfl, rfl, rfl⟩ := ih tail
      exact ⟨rfl, rfl, rfl⟩

/-- A stream can be cut at any point on the way. -/
theorem Cuts.split (hl : Local next) {v : List β} (h : Cuts next s (u ++ v) out t left) :
    ∃ o s' rest out', Cuts next s u o s' rest ∧ Cuts next s' (rest ++ v) out' t left ∧ out = o ++ out' := by
  generalize hw : u ++ v = w at h
  induction h generalizing u with
  | @stop s w hstop =>
    subst hw
    have hnone : next s u = none := by
      cases hu : next s u with
      | none => rfl
      | some cut =>
        rw [hl s u _ _ _ hu v] at hstop
        exact absurd hstop (by simp)
    exact ⟨[], s, u, [], .stop hnone, .stop hstop, rfl⟩
  | @more s w o s' rest out t left hmore tail ih =>
    subst hw
    cases hu : next s u with
    | none => exact ⟨[], s, u, o ++ out, .stop hu, .more hmore tail, rfl⟩
    | some cut =>
      obtain ⟨o₀, s₀, rest₀⟩ := cut
      have hsame := hl s u _ _ _ hu v
      rw [hmore, Option.some.injEq, Prod.mk.injEq, Prod.mk.injEq] at hsame
      obtain ⟨rfl, rfl, hrest⟩ := hsame
      obtain ⟨o₁, s₁, rest₁, out₁, hfront, hback, rfl⟩ := ih hrest.symm
      exact ⟨o ++ o₁, s₁, rest₁, out₁, .more hu hfront, hback, (List.append_assoc ..).symm⟩

/-- However a stream is cut into pieces, reading them yields what cutting it as a whole does. -/
theorem Cuts.reads (hl : Local next) {pieces : List (List β)} {waiting : List β} (hs : next s waiting = none)
    (h : Cuts next s (waiting ++ pieces.flatten) out t left) : Reads next s waiting pieces out t left := by
  induction pieces generalizing s waiting out with
  | nil =>
    rw [List.flatten_nil, List.append_nil] at h
    cases h with
    | stop => exact .done _ _
    | more hmore => exact absurd hs (by simp [hmore])
  | cons c pieces ih =>
    rw [List.flatten_cons, ← List.append_assoc] at h
    obtain ⟨o, s', rest, out', hfront, hback, rfl⟩ := h.split hl
    exact .piece hfront (ih hfront.stuck hback)

end WaviclesPrime.Framing
