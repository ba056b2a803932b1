import WaviclesPrime.Primed.Sections
import WaviclesPrime.Tides.Reload

/-! Restarts of a ledger that shares are credited to. -/
namespace WaviclesPrime.Primed
open Machine Tides

/-- An identity that some share is credited to, in some state of the process. -/
def Admitted (D : Decoders) (s : Identity) : Prop :=
  ∃ sh username, admitIdentity D sh username = some s

section
variable {D : Decoders} {s : Identity}

theorem isAsciiGraphic_ne {c : Char} (h : isAsciiGraphic c = true) : c ≠ '\n' ∧ c ≠ '\r' := by
  constructor <;>
  · rintro rfl
    exact absurd h (by decide)

/-- What shares are credited to stands on a line of its own. -/
theorem Admitted.plain (h : Admitted D s) : Plain s := by
  obtain ⟨sh, username, h⟩ := h
  unfold admitIdentity at h
  dsimp only at h
  split at h
  next => simp at h
  next hform =>
    rw [not_or, not_or, not_not, List.all_eq_true] at hform
    split at h
    next => simp at h
    next =>
      split at h
      next => simp at h
      next =>
        obtain rfl := Option.some.inj h
        exact ⟨hform.1, fun c hc => isAsciiGraphic_ne (hform.2.2 c hc)⟩

end

/-- Only identities that shares are credited to are credited. -/
def Credits (D : Decoders) (ops : List LedgerOp) : Prop := ∀ a, .credit a ∈ ops → Admitted D a.identity

theorem Credits.named {D : Decoders} {ops : List LedgerOp} (h : Credits D ops) : ∀ op ∈ ops, op.Named := by
  intro op hop
  cases op with
  | credit a => exact (h a hop).plain
  | flush | sync | persistWindow | setTarget => trivial

/-- From an empty directory on, what is in memory after the files were last pushed out is what opening
them again gives. -/
theorem restart_restores (D : Decoders) (ops : List LedgerOp) (last : LedgerOp) (hlast : last.pushes = true)
    (hcredits : Credits D ops) (hwork : Ledger.workOf ops < sizeU64) :
    (Ledger.openDir ((Ledger.openDir Files.empty).run (ops ++ [last])).disk).window.Same
      ((Ledger.openDir Files.empty).run (ops ++ [last])).window := by
  obtain ⟨hopen, hrows⟩ := Ledger.openDir_empty
  have hzero : Queue.total rowWork (Ledger.openDir Files.empty).rows = 0 := by
    rw [hrows, Queue.total_nil]
  obtain ⟨hrun, hle⟩ := hopen.run hcredits.named (by omega)
  have hidle : last.Named ∧ last.work = 0 := by
    cases last with
    | credit a => exact absurd hlast Bool.false_ne_true
    | flush | sync | persistWindow | setTarget => exact ⟨trivial, rfl⟩
  obtain ⟨hend, hle', hclean⟩ := hrun.apply hidle.1 (by omega)
  rw [Ledger.run, List.foldl_append]
  exact hend.restores (hclean hlast) (Nat.lt_of_le_of_lt hle' (by omega))

/-- A miner's payout address on the main network. -/
theorem sampleAddress_admitted : Admitted sampleDecoders sampleAddress :=
  ⟨sampleShared, sampleAddress, by decide +kernel⟩

/-- A row is trimmed away under one target, and the next is larger. -/
def raisedOps : List LedgerOp :=
  [.setTarget 5, .credit (Window.sampleAccepted sampleAddress 4),
    .credit (Window.sampleAccepted sampleAddress 6), .setTarget 9]

/-- The larger target does not bring the row back. -/
theorem restart_restores_raised :
    (Ledger.openDir ((Ledger.openDir Files.empty).run (raisedOps ++ [.flush])).disk).window.credits =
        [⟨0, 0, 6, 7, sourceDatum⟩] ∧
      (Ledger.openDir ((Ledger.openDir Files.empty).run (raisedOps ++ [.flush])).disk).window.targetWork = 9 := by
  have hcredits : Credits sampleDecoders raisedOps := by
    intro a ha
    have hname : a.identity = sampleAddress := by
      simp only [raisedOps, List.mem_cons, LedgerOp.credit.injEq, reduceCtorEq, List.not_mem_nil,
        or_false, false_or] at ha
      rcases ha with rfl | rfl <;> rfl
    rw [hname]
    exact sampleAddress_admitted
  have hsame := restart_restores sampleDecoders raisedOps .flush rfl hcredits (by decide)
  rw [hsame.credits, hsame.targetWork]
  decide +kernel

end WaviclesPrime.Primed
