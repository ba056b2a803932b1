import Mathlib.Data.Option.Basic
import Mathlib.Tactic.Common

/-! Computations that write as they go, and may stop on the way: what is written stays written. -/
namespace WaviclesPrime

/-- What a computation writes, and what it returns or why it stops. -/
structure Traced (ω ε α : Type) where
  written : List ω
  result : Except ε α

namespace Traced
variable {ω ε α β : Type}

def bind (x : Traced ω ε α) (f : α → Traced ω ε β) : Traced ω ε β :=
  match x.result with
  | .ok a => ⟨x.written ++ (f a).written, (f a).result⟩
  | .error e => ⟨x.written, .error e⟩

instance : Monad (Traced ω ε) where
  pure a := ⟨[], .ok a⟩
  bind := bind

def tell (ws : List ω) : Traced ω ε Unit := ⟨ws, .ok ()⟩

/-- Stop for a reason where there is no value. -/
def require (e : ε) : Option α → Traced ω ε α
  | some a => ⟨[], .ok a⟩
  | none => ⟨[], .error e⟩

/-- A step that always returns, with what it writes. -/
def ofPair (r : α × List ω) : Traced ω ε α := ⟨r.2, .ok r.1⟩

/-- Why it stops, if it does. -/
def stop (x : Traced ω ε α) : Option ε :=
  match x.result with
  | .ok _ => none
  | .error e => some e

@[simp] theorem pure_eq (a : α) : (pure a : Traced ω ε α) = ⟨[], .ok a⟩ := rfl

@[simp] theorem ok_bind (ws : List ω) (a : α) (f : α → Traced ω ε β) :
    ((⟨ws, .ok a⟩ : Traced ω ε α) >>= f) = ⟨ws ++ (f a).written, (f a).result⟩ := rfl

@[simp] theorem error_bind (ws : List ω) (e : ε) (f : α → Traced ω ε β) :
    ((⟨ws, .error e⟩ : Traced ω ε α) >>= f) = ⟨ws, .error e⟩ := rfl

@[simp] theorem stop_ok (ws : List ω) (a : α) : (⟨ws, .ok a⟩ : Traced ω ε α).stop = none := rfl

@[simp] theorem stop_error (ws : List ω) (e : ε) : (⟨ws, .error e⟩ : Traced ω ε α).stop = some e := rfl

variable {x : Traced ω ε α} {f : α → Traced ω ε β} {ws : List ω} {b : β} {e : ε}

theorem stop_eq_none : x.stop = none ↔ ∃ ws a, x = ⟨ws, .ok a⟩ := by
  obtain ⟨ws, r⟩ := x
  cases r with
  | ok a => exact iff_of_true rfl ⟨ws, a, rfl⟩
  | error e => simp

/-- A sequence returns when both parts do. -/
theorem bind_eq_ok : x >>= f = ⟨ws, .ok b⟩ ↔
    ∃ a first more, x = ⟨first, .ok a⟩ ∧ f a = ⟨more, .ok b⟩ ∧ ws = first ++ more := by
  obtain ⟨first, r⟩ := x
  cases r with
  | error e => simp
  | ok a =>
    rw [ok_bind, mk.injEq]
    constructor
    · rintro ⟨rfl, hr⟩
      exact ⟨a, first, (f a).written, rfl, by rw [← hr], rfl⟩
    · rintro ⟨a', first', more, hx, hf, rfl⟩
      obtain ⟨rfl, hr⟩ := (mk.injEq ..).mp hx
      obtain rfl := Except.ok.inj hr
      rw [hf]
      exact ⟨rfl, rfl⟩

theorem require_eq_ok {o : Option α} {a : α} : (require e o : Traced ω ε α) = ⟨ws, .ok a⟩ ↔ o = some a ∧ ws = [] := by
  cases o with
  | none => simp [require]
  | some b => simp [require, eq_comm, and_comm]

/-- A sequence stops where its first part does, or the rest after it. -/
theorem bind_eq_error : x >>= f = ⟨ws, .error e⟩ ↔ x = ⟨ws, .error e⟩ ∨
    ∃ a first more, x = ⟨first, .ok a⟩ ∧ f a = ⟨more, .error e⟩ ∧ ws = first ++ more := by
  obtain ⟨first, r⟩ := x
  cases r with
  | error e' => simp
  | ok a =>
    rw [ok_bind, mk.injEq]
    constructor
    · rintro ⟨rfl, hr⟩
      exact .inr ⟨a, first, (f a).written, rfl, by rw [← hr], rfl⟩
    · rintro (hx | ⟨a', first', more, hx, hf, rfl⟩)
      · cases ((mk.injEq ..).mp hx).2
      · obtain ⟨rfl, hr⟩ := (mk.injEq ..).mp hx
        obtain rfl := Except.ok.inj hr
        rw [hf]
        exact ⟨rfl, rfl⟩

theorem require_eq_error {o : Option α} {e' : ε} :
    (require e o : Traced ω ε α) = ⟨ws, .error e'⟩ ↔ o = none ∧ ws = [] ∧ e = e' := by
  cases o with
  | none => simp [require, eq_comm]
  | some b => simp [require]

theorem stop_eq_some : x.stop = some e ↔ ∃ ws, x = ⟨ws, .error e⟩ := by
  obtain ⟨ws, r⟩ := x
  cases r with
  | ok a => simp
  | error e' => simp [eq_comm]

end Traced
end WaviclesPrime
