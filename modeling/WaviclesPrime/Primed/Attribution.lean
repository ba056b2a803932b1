import WaviclesPrime.Primed.Reload
import WaviclesPrime.Tides.Attribution

/-! Work stays with the identity it was credited to, in runs that lose no line under a row. -/
namespace WaviclesPrime.Primed
open Machine Tides

/-- Only identities that shares are credited to are credited, whichever writes fail. -/
def CreditsAdmitted (D : Decoders) (run : List LedgerStep) : Prop :=
  ∀ a fault, .credit a fault ∈ run → Admitted D a.identity

/-- From an empty directory on, no identity is shown more work than it was credited with. -/
theorem work_stays (D : Decoders) (run : List LedgerStep) (hrun : CreditsAdmitted D run)
    (hkeeps : (Ledger.openDir Files.empty).KeepsAll run) (s : Identity) :
    ((Ledger.openDir Files.empty).steps run).window.workOf s ≤ creditedTo run s := by
  have hnamed : ∀ st ∈ run, st.Named := by
    intro st hst
    cases st with
    | credit a fault => exact (hrun a fault hst).plain
    | flush | persistWindow | setTarget | stop => trivial
  have hend := (Ledger.Attributed.start.steps hnamed hkeeps).workOf_le s
  rwa [Nat.zero_add] at hend

/-- The address of the first block's reward, with its hash. -/
def genesisAddress : String := "1A1zP1eP5QGefi2DMPTfTL5SLmv7DivfNa"

def genesisHash : Bytes :=
  [0x62, 0xe9, 0x07, 0xb1, 0x5c, 0xbf, 0x27, 0xd5, 0x42, 0x53, 0x99, 0xeb, 0xf6, 0xf0, 0xfb, 0x50,
    0xeb, 0xb8, 0x8f, 0x18]

def genesisDecoders : Decoders where
  segwit := sampleDecoders.segwit
  base58 a := if a = genesisAddress then some (0x00 :: genesisHash) else none

theorem admitted_pair {a : Accepted} (h : a.identity = sampleAddress ∨ a.identity = genesisAddress) :
    Admitted genesisDecoders a.identity := by
  rcases h with h | h <;> rw [h]
  · exact ⟨sampleShared, sampleAddress, by decide +kernel⟩
  · exact ⟨sampleShared, genesisAddress, by decide +kernel⟩

/-- Two miners, and a stop that loses the second one's row. -/
def keptRun : List LedgerStep :=
  [.credit (Window.sampleAccepted sampleAddress 100) none, .flush,
    .credit (Window.sampleAccepted genesisAddress 5) (some .row), .stop 200 24,
    .credit (Window.sampleAccepted genesisAddress 7) none, .persistWindow]

theorem work_stays_kept :
    ((Ledger.openDir Files.empty).steps keptRun).window.workOf genesisAddress ≤ 12 := by
  have hrun : CreditsAdmitted genesisDecoders keptRun := by
    intro a fault hmem
    refine admitted_pair ?_
    simp only [keptRun, List.mem_cons, LedgerStep.credit.injEq, reduceCtorEq, List.not_mem_nil,
      or_false, false_or] at hmem
    rcases hmem with ⟨rfl, -⟩ | ⟨rfl, -⟩ | ⟨rfl, -⟩
    · exact .inl rfl
    · exact .inr rfl
    · exact .inr rfl
  have hkeeps : (Ledger.openDir Files.empty).KeepsAll keptRun := by decide +kernel
  exact (work_stays genesisDecoders keptRun hrun hkeeps genesisAddress).trans (by decide +kernel)

/-- The calls of a process that credits, with the writes that fail. -/
def callsOf (calls : List (Accepted × Option Fault)) : List LedgerStep := calls.map fun p => .credit p.1 p.2

/-- A row that outlives its name's line is another's work after two restarts. -/
theorem work_moves : ¬ ∀ (D : Decoders) (before after : List (Accepted × Option Fault)) (chars bytes : Nat)
    (s : Identity), (∀ p ∈ before ++ after, Admitted D p.1.identity) →
    (Ledger.openDir ((Ledger.openDir Files.empty).steps
      (callsOf before ++ .stop chars bytes :: callsOf after ++ [.persistWindow])).disk).window.workOf s ≤
        creditedTo (callsOf before ++ callsOf after) s := by
  intro hall
  have hle := hall genesisDecoders [(Window.sampleAccepted sampleAddress 100, none)]
    [(Window.sampleAccepted genesisAddress 5, none)] 0 24 genesisAddress (by
      intro p hp
      refine admitted_pair ?_
      rcases List.mem_pair.mp hp with rfl | rfl
      · exact .inl rfl
      · exact .inr rfl)
  revert hle
  decide +kernel

end WaviclesPrime.Primed
