import WaviclesPrime.Tides.Durable

/-! Ledgers that are run and opened again. -/
namespace WaviclesPrime.Tides
open Machine

/-- What is done with a ledger; a new target is persisted at once. -/
inductive LedgerOp where
  | credit (a : Accepted)
  | flush
  | sync
  | persistWindow
  | setTarget (target : Nat)

namespace LedgerOp

def work : LedgerOp → Nat
  | .credit a => a.work.toNat
  | _ => 0

/-- Whether everything is in the files afterwards. -/
def pushes : LedgerOp → Bool
  | .credit _ => false
  | _ => true

/-- The names that are credited stand on lines of their own. -/
def Named : LedgerOp → Prop
  | .credit a => Plain a.identity
  | _ => True

end LedgerOp

/-- Windows that no caller can tell apart, but for the times of the last shares. -/
structure Window.Same (v w : Window) : Prop where
  idents : v.idents = w.idents
  index : ∀ s, v.indexOf s = w.indexOf s
  credits : v.credits = w.credits
  totalWork : v.totalWork = w.totalWork
  totals : ∀ i, (v.totals.get i).map (fun t => (t.work, t.credits)) =
    (w.totals.get i).map fun t => (t.work, t.credits)
  targetWork : v.targetWork = w.targetWork
  lifetimeShares : v.lifetimeShares = w.lifetimeShares
  lifetimeWork : v.lifetimeWork = w.lifetimeWork

/-- The table determines the index over it. -/
theorem Window.Indexed.index_congr {v w : Window} (hv : v.Indexed) (hw : w.Indexed)
    (hids : v.idents = w.idents) (s : Identity) : v.indexOf s = w.indexOf s := by
  refine Option.ext fun i => ?_
  rw [indexOf, indexOf, hv.index s i, hw.index s i, hids]

/-- Sound windows with one table and the same rows agree on everything that follows from them. -/
theorem Window.Sound.same {v w : Window} (hv : v.Sound) (hw : w.Sound) (hids : v.idents = w.idents)
    (hcredits : v.credits = w.credits) (htarget : v.targetWork = w.targetWork)
    (hshares : v.lifetimeShares = w.lifetimeShares) (hwork : v.lifetimeWork = w.lifetimeWork) :
    v.Same w where
  idents := hids
  index := hv.index_congr hw.toIndexed hids
  credits := hcredits
  totalWork := by rw [hv.total, hw.total, hcredits]
  totals := fun i => by rw [hv.tallied i, hw.tallied i, hcredits]
  targetWork := htarget
  lifetimeShares := hshares
  lifetimeWork := hwork

namespace Ledger

def apply (l : Ledger) : LedgerOp → Ledger
  | .credit a => (l.credit a none).1
  | .flush => l.flush
  | .sync => l.sync
  | .persistWindow => l.persistWindow
  | .setTarget target => (l.setTarget target).persistWindow

def run (l : Ledger) (ops : List LedgerOp) : Ledger := ops.foldl apply l

/-- The work that some operations credit. -/
def workOf (ops : List LedgerOp) : Nat := (ops.map LedgerOp.work).sum

variable {l : Ledger}

/-- Opening the files of a durable ledger that has been pushed out gives its window back. -/
theorem Durable.restores (h : Durable l) (hd : l.dirty = false)
    (hfit : Queue.total rowWork l.rows < sizeU64) : (openDir l.disk).window.Same l.window := by
  obtain ⟨hopen, hrows⟩ := h.reopened hd hfit
  obtain ⟨-, -, hstate⟩ := h.clean hd
  refine hopen.toSound.same h.sound hopen.idents ?_ ?_ ?_ ?_
  · rw [hopen.credits, hrows, hstate]
    exact h.kept.symm
  · rw [hopen.targetWork, hstate]
    rfl
  · rw [hopen.lifetimeShares, hstate]
    rfl
  · rw [hopen.lifetimeWork, hstate]
    rfl

theorem Durable.apply (h : Durable l) {op : LedgerOp} (hn : op.Named)
    (hfit : Queue.total rowWork l.rows + op.work < sizeU64) : Durable (l.apply op) ∧
      Queue.total rowWork (l.apply op).rows ≤ Queue.total rowWork l.rows + op.work ∧
      (op.pushes = true → (l.apply op).dirty = false) := by
  have hle := h.total_le
  have hflush : Durable l.flush ∧ Queue.total rowWork l.flush.rows ≤ Queue.total rowWork l.rows ∧
      l.flush.dirty = false := by
    obtain ⟨-, hdirty, hrows⟩ := h.toHeld.flush
    refine ⟨h.flush, ?_, hdirty⟩
    rcases hrows with hrows | hrows <;> rw [hrows]
    exact hle
  cases op with
  | credit a =>
    refine ⟨h.credit hn hfit, ?_, fun hp => absurd hp Bool.false_ne_true⟩
    rw [Ledger.apply, h.rows_credit, Queue.total_append]
    simp [rowWork, LedgerOp.work]
  | flush => exact ⟨hflush.1, hflush.2.1, fun _ => hflush.2.2⟩
  | sync => exact ⟨hflush.1, hflush.2.1, fun _ => hflush.2.2⟩
  | persistWindow =>
    obtain ⟨hdur, hdirty, hrows⟩ := h.toHeld.persistWindow
    exact ⟨hdur, by rw [Ledger.apply, hrows]; exact hle, fun _ => hdirty⟩
  | setTarget target =>
    obtain ⟨hheld, hset⟩ := h.toHeld.setTarget target
    obtain ⟨hdur, hdirty, hrows⟩ := hheld.persistWindow
    refine ⟨hdur, ?_, fun _ => hdirty⟩
    rw [Ledger.apply, hrows, ← hset]
    exact hheld.total_le

theorem Durable.run (h : Durable l) {ops : List LedgerOp} (hn : ∀ op ∈ ops, op.Named)
    (hfit : Queue.total rowWork l.rows + workOf ops < sizeU64) : Durable (l.run ops) ∧
      Queue.total rowWork (l.run ops).rows ≤ Queue.total rowWork l.rows + workOf ops := by
  induction ops generalizing l with
  | nil => exact ⟨h, Nat.le_refl _⟩
  | cons op ops ih =>
    have hsum : workOf (op :: ops) = op.work + workOf ops := rfl
    obtain ⟨hstep, hle, -⟩ := h.apply (hn op List.mem_cons_self) (by omega)
    obtain ⟨hrun, hle'⟩ := ih hstep (fun x hx => hn x (List.mem_cons_of_mem _ hx)) (by omega)
    exact ⟨hrun, by rw [hsum]; exact hle'.trans (by omega)⟩

theorem openDir_empty : Durable (openDir Files.empty) ∧ (openDir Files.empty).rows = [] := by
  have hnames : Files.empty.Names [] := ⟨.nil, by simp, rfl⟩
  exact ⟨(openDir_durable hnames (Nat.two_pow_pos 64) (.inl ⟨Nat.dvd_zero _, rfl⟩)).1, rfl⟩

end Ledger
end WaviclesPrime.Tides
