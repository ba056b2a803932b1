import Mathlib.Data.Vector.Defs
import WaviclesPrime.Lib.LittleEndian

/-! Little-endian reads over a buffer. -/
namespace WaviclesPrime.Wire

abbrev ByteArr (n : Nat) := List.Vector UInt8 n

inductive Error where
  | short
  | malformed (what : String)
  | tooLong
  deriving DecidableEq, Repr

/-- The unread part of a buffer, and how much was read. -/
structure Cursor where
  rest : Bytes
  pos : Nat
  deriving DecidableEq, Repr

abbrev Read := StateT Cursor (Except Error)

namespace Cursor

def new (buf : Bytes) : Cursor := ⟨buf, 0⟩

def remaining (c : Cursor) : Nat := c.rest.length

def take (n : Nat) : Read Bytes := fun c =>
  if c.remaining < n then .error .short
  else .ok (c.rest.take n, ⟨c.rest.drop n, c.pos + n⟩)

def uint (width : Nat) : Read Nat := do return LittleEndian.read (← take width)

def array (n : Nat) : Read (ByteArr n) := fun c =>
  if h : c.remaining < n then .error .short
  else .ok (⟨c.rest.take n, by rw [List.length_take]; unfold remaining at h; omega⟩, ⟨c.rest.drop n, c.pos + n⟩)

/-- NUL-terminated string; the terminator is consumed. -/
def cstr (max : Nat) : Read Bytes := fun c =>
  match (c.rest.take (max + 1)).findIdx? (· == 0) with
  | none => .error (.malformed "unterminated string")
  | some stop => .ok (c.rest.take stop, ⟨c.rest.drop (stop + 1), c.pos + stop + 1⟩)

def u8 : Read Nat := uint 1
def u16 : Read Nat := uint 2
def u32 : Read Nat := uint 4
def u64 : Read Nat := uint 8

theorem take_append (xs rest : Bytes) (pos : Nat) :
    take xs.length ⟨xs ++ rest, pos⟩ = .ok (xs, ⟨rest, pos + xs.length⟩) := by
  simp [take, remaining]

/-- A written integer is read back, and the cursor stands right after it. -/
theorem uint_write (width : Nat) {n : Nat} (h : n < 256 ^ width) (rest : Bytes) (pos : Nat) :
    uint width ⟨LittleEndian.write width n ++ rest, pos⟩ = .ok (n, ⟨rest, pos + width⟩) := by
  have ht := take_append (LittleEndian.write width n) rest pos
  rw [LittleEndian.length_write] at ht
  simp only [uint, bind, StateT.bind, ht, Except.bind, LittleEndian.read_write h]
  rfl

end Cursor

/-- Reads one after another succeed when each does. -/
theorem Read.bind_ok {α β : Type} {x : Read α} {f : α → Read β} {c c' : Cursor} {a : α}
    (h : x c = .ok (a, c')) : (x >>= f) c = f a c' := by
  simp only [bind, StateT.bind, h, Except.bind]

/-- The same read so many times over. -/
def Read.times {α : Type} : Nat → Read α → Read (List α)
  | 0, _ => return []
  | n + 1, x => do
    let a ← x
    return a :: (← times n x)

theorem Read.bind_eq_ok {α β : Type} {x : Read α} {f : α → Read β} {c c' : Cursor} {b : β}
    (h : (x >>= f) c = .ok (b, c')) : ∃ a c₁, x c = .ok (a, c₁) ∧ f a c₁ = .ok (b, c') := by
  cases hx : x c with
  | error e =>
    simp only [Bind.bind, StateT.bind, hx, Except.bind] at h
    cases h
  | ok r => exact ⟨r.1, r.2, rfl, by rwa [Read.bind_ok hx] at h⟩

/-- A check that passes lets the reading go on. -/
theorem Read.guard {β : Type} {p : Prop} [Decidable p] {e : Error} {f : Unit → Read β} {c : Cursor} (h : ¬ p) :
    (if p then (throw e : Read Unit) >>= f else f ()) c = f () c := by rw [if_neg h]

theorem Read.guard_eq_ok {β : Type} {p : Prop} [Decidable p] {e : Error} {f : Unit → Read β} {c c' : Cursor} {b : β}
    (h : (if p then (throw e : Read Unit) >>= f else f ()) c = .ok (b, c')) : ¬ p ∧ f () c = .ok (b, c') := by
  split at h
  next => cases h
  next hp => exact ⟨hp, h⟩

/-- Reading goes on in the buffer, never back. -/
def Onward {α : Type} (x : Read α) : Prop :=
  ∀ c a c', x c = .ok (a, c') → c'.rest.length ≤ c.rest.length

namespace Onward
variable {α β : Type} {x : Read α} {f : α → Read β}

theorem ret (a : α) : Onward (pure a) := by
  intro c b c' h
  cases h
  exact Nat.le_refl _

theorem fail (e : Error) : Onward (throw e : Read α) := by
  intro c a c' h
  cases h

theorem bind (hx : Onward x) (hf : ∀ a, Onward (f a)) : Onward (x >>= f) := by
  intro c b c' h
  obtain ⟨a, c₁, hfirst, hsecond⟩ := Read.bind_eq_ok h
  exact Nat.le_trans (hf a _ _ _ hsecond) (hx _ _ _ hfirst)

theorem ite {p : Prop} [Decidable p] {y : Read α} (hx : Onward x) (hy : Onward y) :
    Onward (if p then x else y) := by
  split
  · exact hx
  · exact hy

theorem take (n : Nat) : Onward (Cursor.take n) := by
  intro c a c' h
  unfold Cursor.take at h
  split at h
  · cases h
  · cases h
    rw [List.length_drop]
    exact Nat.sub_le ..

theorem array (n : Nat) : Onward (Cursor.array n) := by
  intro c a c' h
  unfold Cursor.array at h
  split at h
  · cases h
  · cases h
    rw [List.length_drop]
    exact Nat.sub_le ..

theorem uint (width : Nat) : Onward (Cursor.uint width) := (take width).bind fun _ => ret _

theorem times (n : Nat) (hx : Onward x) : Onward (Read.times n x) := by
  induction n with
  | zero => exact ret []
  | succ n ih => exact hx.bind fun a => ih.bind fun _ => ret _

end Onward

/-- A byte that was read is gone. -/
theorem Cursor.u8_lt {c c' : Cursor} {n : Nat} (h : Cursor.u8 c = .ok (n, c')) :
    c'.rest.length < c.rest.length := by
  obtain ⟨bytes, c₁, htake, hret⟩ := Read.bind_eq_ok h
  cases hret
  unfold Cursor.take at htake
  split at htake
  · cases htake
  · rename_i hlen
    cases htake
    unfold remaining at hlen
    rw [List.length_drop]
    omega

/-- A read takes exactly these bytes, whatever comes after them. -/
def Takes {α : Type} (x : Read α) (bytes : Bytes) (a : α) : Prop :=
  ∀ rest pos, x ⟨bytes ++ rest, pos⟩ = .ok (a, ⟨rest, pos + bytes.length⟩)

namespace Takes
variable {α β : Type} {x : Read α} {f : α → Read β} {u v : Bytes} {a : α} {b : β}

theorem ret (a : α) : Takes (pure a) [] a := fun _ _ => rfl

theorem bind (hx : Takes x u a) (hf : Takes (f a) v b) : Takes (x >>= f) (u ++ v) b := by
  intro rest pos
  rw [List.append_assoc, Read.bind_ok (hx (v ++ rest) pos), hf rest, List.length_append, Nat.add_assoc]

theorem map (hx : Takes x u a) (g : α → β) : Takes (do return g (← x)) u (g a) := by
  have hret : Takes (do return g (← x)) (u ++ []) (g a) := hx.bind (ret (g a))
  rwa [List.append_nil] at hret

theorem take (bytes : Bytes) : Takes (Cursor.take bytes.length) bytes bytes := Cursor.take_append bytes

theorem uint (width : Nat) {n : Nat} (h : n < 256 ^ width) :
    Takes (Cursor.uint width) (LittleEndian.write width n) n := by
  intro rest pos
  rw [Cursor.uint_write width h, LittleEndian.length_write]

theorem u8 (b : UInt8) : Takes Cursor.u8 [b] b.toNat := by
  have hwrite : [b] = LittleEndian.write 1 b.toNat := by
    rw [LittleEndian.write, Nat.mod_eq_of_lt b.toNat_lt, UInt8.ofNat_toNat, LittleEndian.write]
  rw [hwrite]
  exact uint 1 b.toNat_lt

theorem array {n : Nat} (bytes : ByteArr n) : Takes (Cursor.array n) bytes.toList bytes := by
  intro rest pos
  obtain ⟨bytes, rfl⟩ := bytes
  have hlen : ¬ (⟨bytes ++ rest, pos⟩ : Cursor).remaining < bytes.length := by
    unfold Cursor.remaining
    rw [List.length_append]
    omega
  change Cursor.array bytes.length ⟨bytes ++ rest, pos⟩ = .ok (_, ⟨rest, pos + bytes.length⟩)
  rw [Cursor.array, dif_neg hlen]
  simp only [List.take_left, List.drop_left]

theorem cstr {max : Nat} {bytes : Bytes} (hmax : bytes.length ≤ max) (hnul : 0 ∉ bytes) :
    Takes (Cursor.cstr max) (bytes ++ [0]) bytes := by
  intro rest pos
  have hnone : bytes.findIdx? (· == 0) = none := by
    rw [List.findIdx?_eq_none_iff]
    intro b hb
    exact beq_eq_false_iff_ne.mpr fun hzero => hnul (hzero ▸ hb)
  have hstop : ((bytes ++ [0] ++ rest).take (max + 1)).findIdx? (· == 0) = some bytes.length := by
    rw [List.append_assoc, List.take_append, List.take_of_length_le (by omega), List.findIdx?_append, hnone]
    obtain ⟨room, hroom⟩ : ∃ room, max + 1 - bytes.length = room + 1 := ⟨max - bytes.length, by omega⟩
    rw [hroom]
    simp [List.findIdx?_cons]
  simp only [Cursor.cstr, hstop]
  rw [List.append_assoc, List.take_left, List.drop_append, List.drop_eq_nil_of_le (by omega),
    List.length_append, List.length_singleton, Nat.add_sub_cancel_left]
  rfl

/-- Reading so many in a row. -/
theorem times {γ : Type} {g : γ → Bytes} {y : Read γ} {items : List γ} (h : ∀ i ∈ items, Takes y (g i) i) :
    Takes (Read.times items.length y) (items.flatMap g) items := by
  induction items with
  | nil => exact ret []
  | cons i items ih =>
    rw [List.flatMap_cons]
    refine (h i (List.mem_cons_self ..)).bind ?_
    exact (ih fun j hj => h j (List.mem_cons_of_mem _ hj)).map (i :: ·)

end Takes

/-- A read that succeeds took bytes that answer for its value. -/
def Reads {α : Type} (x : Read α) (R : Bytes → α → Prop) : Prop :=
  ∀ c a c', x c = .ok (a, c') → ∃ bytes, c.rest = bytes ++ c'.rest ∧ c'.pos = c.pos + bytes.length ∧ R bytes a

namespace Reads
variable {α β : Type} {x : Read α} {f : α → Read β} {R R' : Bytes → α → Prop} {S : Bytes → β → Prop}

theorem ret (a : α) : Reads (pure a) fun bytes b => bytes = [] ∧ b = a := by
  intro c b c' h
  cases h
  exact ⟨[], rfl, rfl, rfl, rfl⟩

theorem fail (e : Error) : Reads (throw e : Read α) R := by
  intro c a c' h
  cases h

theorem mono (hx : Reads x R) (h : ∀ bytes a, R bytes a → R' bytes a) : Reads x R' := by
  intro c a c' hrun
  obtain ⟨bytes, hrest, hpos, hR⟩ := hx c a c' hrun
  exact ⟨bytes, hrest, hpos, h bytes a hR⟩

theorem bind (hx : Reads x R) (hf : ∀ a, Reads (f a) fun v b => ∀ u, R u a → S (u ++ v) b) : Reads (x >>= f) S := by
  intro c b c' h
  obtain ⟨a, c₁, hfirst, hsecond⟩ := Read.bind_eq_ok h
  obtain ⟨u, hu, hupos, hR⟩ := hx _ _ _ hfirst
  obtain ⟨v, hv, hvpos, hS⟩ := hf a _ _ _ hsecond
  refine ⟨u ++ v, ?_, ?_, hS u hR⟩
  · rw [hu, hv, List.append_assoc]
  · rw [hvpos, hupos, List.length_append, Nat.add_assoc]

theorem ite {p : Prop} [Decidable p] {y : Read α} (hx : p → Reads x R) (hy : ¬ p → Reads y R) :
    Reads (if p then x else y) R := by
  split
  next h => exact hx h
  next h => exact hy h

theorem take (n : Nat) : Reads (Cursor.take n) fun bytes a => bytes = a ∧ a.length = n := by
  intro c a c' h
  unfold Cursor.take Cursor.remaining at h
  split at h
  next => cases h
  next hlen =>
    cases h
    have htake : (c.rest.take n).length = n := List.length_take_of_le (Nat.le_of_not_lt hlen)
    exact ⟨c.rest.take n, (List.take_append_drop n c.rest).symm, by rw [htake], rfl, htake⟩

theorem uint (width : Nat) : Reads (Cursor.uint width) fun bytes n =>
    bytes = LittleEndian.write width n ∧ n < 256 ^ width := by
  refine (take width).bind fun a => (ret _).mono ?_
  rintro _ n ⟨rfl, rfl⟩ u ⟨rfl, rfl⟩
  rw [List.append_nil]
  exact ⟨(LittleEndian.write_read u).symm, LittleEndian.read_lt u⟩

end Reads
end WaviclesPrime.Wire
