import WaviclesPrime.Primed.Solvency

/-! Block candidates waiting for the gateway's transactions, over a session's two channels. -/
namespace WaviclesPrime.Primed
open Wire Machine

/-- How long a candidate waits, in nanoseconds. -/
def pendingBlockTtl : Nat := 120 * 1000000000

structure PendingBlock where
  share : VerifiedShare
  submit : PowSubmit
  hashHex : String
  since : Nat
  deriving DecidableEq

inductive JobValidationReply where
  | shortIds (job : UInt8)
  | transactions (job : UInt8) (ok : Bool) (txns : List Bytes)
  | fullBlock (job : UInt8) (ok : Bool) (txns : List Bytes)

/-- The candidates waiting, by job slot. -/
abbrev PendingBlocks (α : Type) := UInt8 → List α

namespace PendingBlocks
variable {α : Type} (pending : PendingBlocks α)

def push (job : UInt8) (p : α) : PendingBlocks α :=
  fun i => if i = job then pending i ++ [p] else pending i

def remove (job : UInt8) : PendingBlocks α := fun i => if i = job then [] else pending i

/-- Give up on candidates that waited too long. -/
def retain (since : α → Nat) (clock : Nat) : PendingBlocks α :=
  fun i => (pending i).filter fun p => clock - since p < pendingBlockTtl

/-- What becomes of the candidates on a reply's slot: each is handed the transactions to assemble its
block from, or `none` if the gateway has none. -/
def settleWith (job : UInt8) (ok : Bool) (txns : List Bytes) :
    PendingBlocks α × List (α × Option (List Bytes)) :=
  (pending.remove job, (pending job).map (·, if ok then some txns else none))

def onValidation : JobValidationReply → PendingBlocks α × List (α × Option (List Bytes))
  | .shortIds _ => (pending, [])
  | .transactions job ok txns => pending.settleWith job ok txns
  | .fullBlock job ok txns => pending.settleWith job ok txns

@[simp] theorem mem_push {i job : UInt8} {x p : α} :
    x ∈ pending.push job p i ↔ x ∈ pending i ∨ i = job ∧ x = p := by
  unfold push
  by_cases hi : i = job <;> simp [hi]

@[simp] theorem mem_remove {i job : UInt8} {x : α} :
    x ∈ pending.remove job i ↔ i ≠ job ∧ x ∈ pending i := by
  unfold remove
  by_cases hi : i = job <;> simp [hi]

end PendingBlocks

/-- A candidate and the job it was solved on, which the session does not keep. -/
structure Candidate where
  block : PendingBlock
  job : Nat
  deriving DecidableEq

def Candidate.slot (c : Candidate) : UInt8 := c.block.submit.jobId

/-- What a gateway sends: a new job on a slot, a share that solves a block on one, or a reply with the
transactions of a job. -/
inductive Message where
  | job (slot : UInt8) (job : Nat)
  | candidate (submit : PowSubmit) (share : VerifiedShare)
  | reply (slot : UInt8) (job : Nat)
  deriving DecidableEq

/-- A session and its gateway: the job on each slot, the requests on their way to the gateway, each with
the job its candidate was solved on, and the messages on their way back. -/
structure Exchange where
  clock : Nat
  jobs : UInt8 → Nat
  pending : PendingBlocks Candidate
  requests : List (UInt8 × Nat)
  messages : List Message
  found : List Candidate
  handed : List (Candidate × List Bytes)

inductive Move where
  | newJob (slot : UInt8) (job : Nat)
  | solve (submit : PowSubmit) (share : VerifiedShare)
  /-- The gateway answers its oldest request. -/
  | answer
  /-- The session takes its oldest message. -/
  | receive
  | tick
  | wait (time : Nat)

namespace Exchange

def start : Exchange := ⟨0, fun _ => 0, fun _ => [], [], [], [], []⟩

/-- What the session does with a message, given the transactions of each job. -/
def take (txnsOf : Nat → List Bytes) (e : Exchange) : Message → Exchange
  | .job slot job => { e with jobs := fun i => if i = slot then job else e.jobs i }
  | .candidate submit share =>
    let job := e.jobs submit.jobId
    let c : Candidate := ⟨⟨share, submit, Snapshot.hexEncode share.hash.reverse, e.clock⟩, job⟩
    { e with
      pending := e.pending.push submit.jobId c
      requests := e.requests ++ [(submit.jobId, job)]
      found := e.found ++ [c] }
  | .reply slot job =>
    let (pending, out) := e.pending.onValidation (.fullBlock slot true (txnsOf job))
    { e with
      pending := pending
      handed := e.handed ++ out.filterMap fun x => x.2.map (x.1, ·) }

def step (txnsOf : Nat → List Bytes) (e : Exchange) : Move → Option Exchange
  | .newJob slot job => some { e with messages := e.messages ++ [.job slot job] }
  | .solve submit share => some { e with messages := e.messages ++ [.candidate submit share] }
  | .answer =>
    match e.requests with
    | [] => none
    | (slot, job) :: rest => some { e with
        requests := rest
        messages := e.messages ++ [.reply slot job] }
  | .receive =>
    match e.messages with
    | [] => none
    | m :: rest => some (take txnsOf { e with messages := rest } m)
  | .tick => some { e with pending := e.pending.retain (fun c => c.block.since) e.clock }
  | .wait time => some { e with clock := e.clock + time }

/-- A request for a slot, on its way to the gateway or answered and on its way back. -/
def Underway (e : Exchange) (slot : UInt8) (job : Nat) : Prop :=
  (slot, job) ∈ e.requests ∨ .reply slot job ∈ e.messages

/-- A candidate is taken only while no request of another job is under way on its slot. -/
def OneJob (e : Exchange) : Move → Prop
  | .receive => ∀ submit share rest, e.messages = .candidate submit share :: rest →
      ∀ job, e.Underway submit.jobId job → job = e.jobs submit.jobId
  | _ => True

inductive Run (txnsOf : Nat → List Bytes) : Exchange → Prop where
  | start : Run txnsOf .start
  | step {e e'} {m : Move} (h : Run txnsOf e) (one : e.OneJob m) (moved : e.step txnsOf m = some e') :
      Run txnsOf e'

/-- The candidate was handed its own job's transactions, or its time is up, or a reply with them is still
to come on its slot. -/
def Served (txnsOf : Nat → List Bytes) (e : Exchange) (c : Candidate) : Prop :=
  (c, txnsOf c.job) ∈ e.handed ∨ c.block.since + pendingBlockTtl ≤ e.clock ∨ e.Underway c.slot c.job

/-- What holds throughout: candidates wait only for replies with their own job's transactions. -/
structure Sound (txnsOf : Nat → List Bytes) (e : Exchange) : Prop where
  slot : ∀ i, ∀ c ∈ e.pending i, c.slot = i
  agree : ∀ i, ∀ c ∈ e.pending i, ∀ job, e.Underway i job → c.job = job
  awaited : ∀ i, ∀ c ∈ e.pending i, ∃ job, e.Underway i job
  kept : ∀ c ∈ e.found, (c, txnsOf c.job) ∈ e.handed ∨
    c.block.since + pendingBlockTtl ≤ e.clock ∨ c ∈ e.pending c.slot

variable {txnsOf : Nat → List Bytes} {e e' : Exchange}

theorem Sound.served (h : e.Sound txnsOf) : ∀ c ∈ e.found, e.Served txnsOf c := by
  intro c hc
  rcases h.kept c hc with hhanded | hpassed | hwaits
  · exact .inl hhanded
  · exact .inr (.inl hpassed)
  · obtain ⟨job, hu⟩ := h.awaited _ c hwaits
    exact .inr (.inr ((h.agree _ c hwaits job hu).symm ▸ hu))

/-- A change that leaves the requests under way and the candidates alone, and lets time pass. -/
theorem Sound.same (h : e.Sound txnsOf) (hpending : e'.pending = e.pending) (hfound : e'.found = e.found)
    (hhanded : e'.handed = e.handed) (hclock : e.clock ≤ e'.clock)
    (hunder : ∀ i job, e'.Underway i job ↔ e.Underway i job) : e'.Sound txnsOf := by
  constructor
  · rw [hpending]
    exact h.slot
  · rw [hpending]
    exact fun i c hc job hu => h.agree i c hc job ((hunder i job).mp hu)
  · rw [hpending]
    exact fun i c hc => (h.awaited i c hc).imp fun job => (hunder i job).mpr
  · rw [hpending, hfound, hhanded]
    exact fun c hc => (h.kept c hc).imp_right (Or.imp_left fun hp => hp.trans hclock)

theorem Sound.tick (h : e.Sound txnsOf) :
    Sound txnsOf { e with pending := e.pending.retain (fun c => c.block.since) e.clock } := by
  have hsub : ∀ i, ∀ c ∈ e.pending.retain (fun c => c.block.since) e.clock i, c ∈ e.pending i :=
    fun i c hc => (List.mem_filter.mp hc).1
  refine ⟨fun i c hc => h.slot i c (hsub i c hc), fun i c hc => h.agree i c (hsub i c hc),
    fun i c hc => h.awaited i c (hsub i c hc), fun c hc => ?_⟩
  rcases h.kept c hc with hhanded | hpassed | hwaits
  · exact .inl hhanded
  · exact .inr (.inl hpassed)
  · by_cases hold : e.clock - c.block.since < pendingBlockTtl
    · exact .inr (.inr (List.mem_filter.mpr ⟨hwaits, decide_eq_true hold⟩))
    · refine .inr (.inl ?_)
      have hpos : 0 < pendingBlockTtl := by decide
      dsimp only
      omega

/-- A candidate joins those on its slot and sends a request of its own. -/
theorem Sound.candidate {submit : PowSubmit} {share : VerifiedShare} {rest : List Message}
    (h : e.Sound txnsOf) (hm : e.messages = .candidate submit share :: rest)
    (one : ∀ job, e.Underway submit.jobId job → job = e.jobs submit.jobId) :
    (take txnsOf { e with messages := rest } (.candidate submit share)).Sound txnsOf := by
  let c : Candidate :=
    ⟨⟨share, submit, Snapshot.hexEncode share.hash.reverse, e.clock⟩, e.jobs submit.jobId⟩
  have hunder : ∀ i job, (take txnsOf { e with messages := rest } (.candidate submit share)).Underway i job
      ↔ e.Underway i job ∨ (i, job) = (submit.jobId, e.jobs submit.jobId) := by
    intro i job
    simp only [take, Underway, List.mem_append, hm, List.mem_cons, List.not_mem_nil, reduceCtorEq,
      false_or, or_false]
    tauto
  constructor
  · intro i x hx
    rcases e.pending.mem_push.mp hx with hx | ⟨rfl, rfl⟩
    · exact h.slot i x hx
    · rfl
  · intro i x hx job hu
    rcases (hunder i job).mp hu with hu | heq <;>
      rcases e.pending.mem_push.mp hx with hx | ⟨rfl, rfl⟩
    · exact h.agree i x hx job hu
    · exact (one job hu).symm
    · obtain ⟨rfl, rfl⟩ := Prod.mk.inj heq
      obtain ⟨job, hold⟩ := h.awaited _ x hx
      exact (h.agree _ x hx job hold).trans (one job hold)
    · exact (Prod.mk.inj heq).2.symm
  · intro i x hx
    rcases e.pending.mem_push.mp hx with hx | ⟨rfl, rfl⟩
    · exact (h.awaited i x hx).imp fun job hu => (hunder i job).mpr (.inl hu)
    · exact ⟨_, (hunder _ _).mpr (.inr rfl)⟩
  · intro x hx
    rcases List.mem_append.mp hx with hx | hx
    · exact (h.kept x hx).imp_right (Or.imp_right fun hw => e.pending.mem_push.mpr (.inl hw))
    · obtain rfl := List.mem_singleton.mp hx
      exact .inr (.inr (e.pending.mem_push.mpr (.inr ⟨rfl, rfl⟩)))

/-- A reply serves every candidate on its slot, all of its own job. -/
theorem Sound.reply {slot : UInt8} {job : Nat} {rest : List Message} (h : e.Sound txnsOf)
    (hm : e.messages = .reply slot job :: rest) :
    (take txnsOf { e with messages := rest } (.reply slot job)).Sound txnsOf := by
  have hnow : e.Underway slot job := .inr (hm ▸ List.mem_cons_self)
  have hunder : ∀ i j, i ≠ slot →
      ((take txnsOf { e with messages := rest } (.reply slot job)).Underway i j ↔ e.Underway i j) := by
    intro i j hi
    simp [take, Underway, hm, hi]
  constructor
  · exact fun i x hx => h.slot i x (e.pending.mem_remove.mp hx).2
  · intro i x hx j hu
    obtain ⟨hi, hx⟩ := e.pending.mem_remove.mp hx
    exact h.agree i x hx j ((hunder i j hi).mp hu)
  · intro i x hx
    obtain ⟨hi, hx⟩ := e.pending.mem_remove.mp hx
    exact (h.awaited i x hx).imp fun j => (hunder i j hi).mpr
  · intro x hx
    have hhanded : (take txnsOf { e with messages := rest } (.reply slot job)).handed =
        e.handed ++ (e.pending slot).map (·, txnsOf job) := by
      simp only [take, PendingBlocks.onValidation, PendingBlocks.settleWith, if_true,
        List.filterMap_map, Function.comp_def, Option.map_some, List.filterMap_eq_map']
    rw [hhanded]
    rcases h.kept x hx with hold | hpassed | hwaits
    · exact .inl (List.mem_append_left _ hold)
    · exact .inr (.inl hpassed)
    · by_cases hi : x.slot = slot
      · rw [hi] at hwaits
        refine .inl (List.mem_append_right _ (List.mem_map.mpr ⟨x, hwaits, ?_⟩))
        rw [h.agree slot x hwaits job hnow]
      · exact .inr (.inr (e.pending.mem_remove.mpr ⟨hi, hwaits⟩))

theorem Sound.step {m : Move} (h : e.Sound txnsOf) (one : e.OneJob m)
    (moved : e.step txnsOf m = some e') : e'.Sound txnsOf := by
  cases m with
  | newJob slot job =>
    obtain rfl := Option.some.inj moved
    exact h.same rfl rfl rfl (Nat.le_refl _) fun i j => by simp [Underway]
  | solve submit share =>
    obtain rfl := Option.some.inj moved
    exact h.same rfl rfl rfl (Nat.le_refl _) fun i j => by simp [Underway]
  | wait time =>
    obtain rfl := Option.some.inj moved
    exact h.same rfl rfl rfl (Nat.le_add_right _ _) fun _ _ => Iff.rfl
  | tick =>
    obtain rfl := Option.some.inj moved
    exact h.tick
  | answer =>
    simp only [Exchange.step] at moved
    cases hreq : e.requests with
    | nil => simp [hreq] at moved
    | cons r rest =>
      rw [hreq] at moved
      obtain rfl := Option.some.inj moved
      refine h.same rfl rfl rfl (Nat.le_refl _) fun i j => ?_
      simp only [Underway, hreq, List.mem_append, List.mem_cons, List.not_mem_nil, or_false,
        Message.reply.injEq, Prod.ext_iff]
      tauto
  | receive =>
    simp only [Exchange.step] at moved
    cases hm : e.messages with
    | nil => simp [hm] at moved
    | cons m rest =>
      rw [hm] at moved
      obtain rfl := Option.some.inj moved
      cases m with
      | job slot job => exact h.same rfl rfl rfl (Nat.le_refl _) fun i j => by simp [take, Underway, hm]
      | candidate submit share => exact h.candidate hm (one submit share rest hm)
      | reply slot job => exact h.reply hm

/-- In every run in which a candidate is taken only while no request of another job is under way on its
slot, every candidate is handed its own job's transactions once the reply with them is in, unless its time
is up. -/
theorem candidates_served (run : Run txnsOf e) : ∀ c ∈ e.found, e.Served txnsOf c := by
  suffices h : e.Sound txnsOf from h.served
  induction run with
  | start => exact ⟨by simp [start], by simp [start], by simp [start], by simp [start]⟩
  | step _ one moved ih => exact ih.step one moved

/-- A block found on a slot. -/
def foundOn (slot : UInt8) : Move :=
  .solve { sampleShare 5 4 with jobId := slot } fairCandidate

/-- One candidate, answered. -/
theorem candidates_served_one : ∃ e c, Run (fun _ => []) e ∧ e.found = [c] ∧
    e.Served (fun _ => []) c := by
  let e₁ : Exchange := { start with
    messages := [.candidate { sampleShare 5 4 with jobId := 5 } fairCandidate] }
  have hsent : Run (fun _ => []) e₁ := .step (m := foundOn 5) .start trivial rfl
  have hone : e₁.OneJob .receive := by
    rintro _ _ _ - job (hu | hu)
    · simp [e₁, start] at hu
    · simp [e₁] at hu
  have hheld := Run.step hsent hone (by rfl)
  exact ⟨_, _, hheld, rfl, candidates_served hheld _ (List.mem_singleton_self _)⟩

/-- Two candidates on successive jobs of a slot, both requests answered: the reply with the first job's
transactions takes both, and the second is never handed its own. -/
theorem second_job_lost : ∃ e c, [foundOn 5, .receive, .newJob 5 1, .receive, foundOn 5, .receive, .answer,
    .answer, .receive, .receive].foldlM (step fun job => [[UInt8.ofNat job]]) .start = some e ∧
    c ∈ e.found ∧ ¬ e.Served (fun job => [[UInt8.ofNat job]]) c := by
  refine ⟨_, ⟨⟨fairCandidate, { sampleShare 5 4 with jobId := 5 },
    Snapshot.hexEncode fairCandidate.hash.reverse, 0⟩, 1⟩, rfl, ?_, ?_⟩
  · exact List.mem_append_right _ (List.mem_singleton_self _)
  · rintro (hhanded | hpassed | hu | hu)
    · exact absurd hhanded (by decide +kernel)
    · exact absurd hpassed (by decide)
    · exact absurd hu List.not_mem_nil
    · exact absurd hu List.not_mem_nil

end Exchange
end WaviclesPrime.Primed
