import Mathlib.Algebra.Order.Ring.Nat
import Mathlib.Data.List.Induction
import WaviclesPrime.Lib.Machine
import WaviclesPrime.Lib.Recent

/-! How much a session may ask of the pool in a given time: coinbasers, and shares that are refused. -/
namespace WaviclesPrime.Primed
open Machine Recent

/-- A second, in the nanoseconds of the clock. -/
def second : Nat := 1000000000
def rejectFlood : Nat := 2000
def rejectWindow : Nat := 10 * second
def coinbaserBurst : Nat := 32
def coinbaserRefill : Nat := second

/-- Count a reject or malformed message; none where there were too many of late. -/
def noteReject (now : Nat) (recent : List Nat) : Option (List Nat) :=
  let recent := trim id rejectWindow now (recent ++ [now])
  if rejectFlood < recent.length then none else some recent

structure Bucket where
  tokens : Nat
  refillAt : Nat
  deriving DecidableEq, Repr

namespace Bucket

/-- A token for each whole second since the last refill; parts of one are forgotten. -/
def refill (b : Bucket) (now : Nat) : Bucket :=
  if coinbaserRefill ≤ now - b.refillAt then
    ⟨min (satAdd sizeU32 b.tokens ((now - b.refillAt) / coinbaserRefill)) coinbaserBurst, now⟩
  else b

/-- Whether a request is answered. -/
def request (b : Bucket) (now : Nat) : Bool × Bucket :=
  let b := b.refill now
  if b.tokens = 0 then (false, b) else (true, { b with tokens := b.tokens - 1 })

end Bucket

/-- What a session is held to. -/
structure Limits where
  coinbasers : Bucket
  recentRejects : List Nat

inductive Strain where
  | reject
  | request

namespace Limits

def new (now : Nat) : Limits := ⟨⟨coinbaserBurst, now⟩, []⟩

/-- Whether it was served; none where the session is dropped. A request over the limit counts as a reject. -/
def strain (l : Limits) (now : Nat) : Strain → Option (Bool × Limits)
  | .reject => (noteReject now l.recentRejects).map fun recent => (false, { l with recentRejects := recent })
  | .request =>
    match l.coinbasers.request now with
    | (true, b) => some (true, { l with coinbasers := b })
    | (false, b) => (noteReject now l.recentRejects).map fun recent => (false, ⟨b, recent⟩)

def run (l : Limits) : List (Nat × Strain) → Option (List Bool × Limits)
  | [] => some ([], l)
  | (now, s) :: rest => do
    let (served, l) ← l.strain now s
    let (more, l) ← l.run rest
    some (served :: more, l)

end Limits

/-- The requests that are answered, and the bucket after them. -/
def Bucket.answers (b : Bucket) : List Nat → List Bool × Bucket
  | [] => ([], b)
  | now :: rest =>
    let (served, b) := b.request now
    let (more, b) := b.answers rest
    (served :: more, b)

/-- When a session was refused something. -/
def Bucket.refusals (b : Bucket) : List (Nat × Strain) → List Nat
  | [] => []
  | (now, .reject) :: rest => now :: b.refusals rest
  | (now, .request) :: rest =>
    if (b.request now).1 then (b.request now).2.refusals rest else now :: (b.request now).2.refusals rest

def noteRejects (recent : List Nat) : List Nat → Option (List Nat)
  | [] => some recent
  | now :: rest => (noteReject now recent).bind fun recent => noteRejects recent rest

/-- More than the limit of them, all within the window. -/
def Floods (ts : List Nat) : Prop :=
  ∃ i, ∃ h : i + rejectFlood < ts.length, ts[i + rejectFlood] - ts[i] ≤ rejectWindow

theorem noteRejects_concat (recent ts : List Nat) (t : Nat) :
    noteRejects recent (ts ++ [t]) = (noteRejects recent ts).bind (noteReject t) := by
  induction ts generalizing recent with
  | nil =>
    rw [List.nil_append, noteRejects, noteRejects, Option.bind_some]
    cases noteReject t recent <;> rfl
  | cons u ts ih =>
    rw [List.cons_append, noteRejects, noteRejects]
    cases noteReject u recent with
    | none => rfl
    | some recent => exact ih recent

/-- The newest is what decides. -/
theorem floods_concat {ts : List Nat} {t : Nat} (hordered : Ordered id (ts ++ [t])) :
    Floods (ts ++ [t]) ↔ Floods ts ∨ rejectFlood < ((ts ++ [t]).filter (isRecent id rejectWindow t)).length := by
  have hlen : (ts ++ [t]).length = ts.length + 1 := by rw [List.length_append, List.length_singleton]
  have hpair : (ts ++ [t]).Pairwise fun x y =>
      isRecent id rejectWindow t x = true → isRecent id rejectWindow t y = true := by
    refine hordered.imp fun hle hx => ?_
    simp only [isRecent, id, decide_eq_true_eq] at hle hx ⊢
    omega
  rw [lt_length_filter hpair]
  constructor
  · rintro ⟨i, hi, hclose⟩
    obtain hlt | heq := Nat.lt_or_eq_of_le (Nat.lt_succ_iff.mp (hlen ▸ hi))
    · refine .inl ⟨i, hlt, ?_⟩
      rwa [List.getElem_append_left (by omega), List.getElem_append_left (by omega)] at hclose
    · refine .inr ⟨by omega, ?_⟩
      have hlast : (ts ++ [t])[i + rejectFlood] = t := by
        rw [List.getElem_append_right (by omega)]
        simp [heq]
      have hindex : (ts ++ [t]).length - 1 - rejectFlood = i := by omega
      rw [hlast] at hclose
      simpa only [hindex, isRecent, id, decide_eq_true_eq] using hclose
  · rintro (⟨i, hi, hclose⟩ | ⟨hk, hclose⟩)
    · refine ⟨i, by omega, ?_⟩
      rwa [List.getElem_append_left (by omega), List.getElem_append_left (by omega)]
    · refine ⟨ts.length - rejectFlood, by omega, ?_⟩
      have hbound : ts.length - rejectFlood + rejectFlood < (ts ++ [t]).length := by omega
      have hlast : (ts ++ [t])[ts.length - rejectFlood + rejectFlood] = t := by
        rw [List.getElem_append_right (by omega)]
        simp [show ts.length - rejectFlood + rejectFlood - ts.length = 0 by omega]
      have hindex : (ts ++ [t]).length - 1 - rejectFlood = ts.length - rejectFlood := by omega
      rw [hlast]
      simpa only [hindex, isRecent, id, decide_eq_true_eq] using hclose

/-- What is remembered is what is recent, and nothing is as long as the rejects do not flood. -/
theorem noteRejects_eq {ts : List Nat} (hordered : Ordered id ts) :
    (¬ Floods ts → noteRejects [] ts = some (ts.filter (isRecent id rejectWindow (ts.getLastD 0)))) ∧
      (Floods ts → noteRejects [] ts = none) := by
  induction ts using List.reverseRecOn with
  | nil => exact ⟨fun _ => rfl, fun ⟨_, h, _⟩ => absurd h (Nat.not_lt_zero _)⟩
  | append_singleton ts t ih =>
    have hfront : Ordered id ts := hordered.sublist (List.sublist_append_left ..)
    obtain ⟨hquiet, hflood⟩ := ih hfront
    have hsplit := floods_concat hordered
    rw [noteRejects_concat, List.getLastD_concat]
    by_cases hts : Floods ts
    · rw [hflood hts, Option.bind_none]
      exact ⟨fun hnot => absurd (hsplit.mpr (.inl hts)) hnot, fun _ => rfl⟩
    · have hlast : ts.getLastD 0 ≤ t := by
        cases ts using List.reverseRecOn with
        | nil => exact Nat.zero_le _
        | append_singleton us u =>
          rw [List.getLastD_concat]
          exact (List.pairwise_append.mp hordered).2.2 u (by simp) t List.mem_cons_self
      have hkept : trim id rejectWindow t (ts.filter (isRecent id rejectWindow (ts.getLastD 0)) ++ [t]) =
          (ts ++ [t]).filter (isRecent id rejectWindow t) := by
        rw [trim_eq_filter (hordered.sublist (List.filter_sublist.append_right _)), List.filter_append,
          filter_isRecent_filter hlast, ← List.filter_append]
      rw [hquiet hts, Option.bind_some, noteReject, hkept]
      by_cases hlen : rejectFlood < ((ts ++ [t]).filter (isRecent id rejectWindow t)).length
      · rw [if_pos hlen]
        exact ⟨fun hnot => absurd (hsplit.mpr (.inr hlen)) hnot, fun _ => rfl⟩
      · rw [if_neg hlen]
        exact ⟨fun _ => rfl, fun h => absurd (hsplit.mp h) (not_or.mpr ⟨hts, hlen⟩)⟩

namespace Limits

/-- A session is served to the end just when its refusals can all be noted. -/
theorem run_isSome (l : Limits) (es : List (Nat × Strain)) :
    (l.run es).isSome = (noteRejects l.recentRejects (l.coinbasers.refusals es)).isSome := by
  induction es generalizing l with
  | nil => rfl
  | cons e es ih =>
    obtain ⟨now, s⟩ := e
    have hrest : ∀ x : Option (Bool × Limits), (x.bind fun r => (r.2.run es).bind fun q =>
        some (r.1 :: q.1, q.2)).isSome = (x.bind fun r => r.2.run es).isSome := by
      intro x
      cases x with
      | none => rfl
      | some r =>
        rw [Option.bind_some, Option.bind_some]
        cases r.2.run es <;> rfl
    change ((l.strain now s).bind fun r => (r.2.run es).bind fun q => some (r.1 :: q.1, q.2)).isSome = _
    rw [hrest]
    have hnote : ∀ (b : Bucket) (served : Bool),
        (((noteReject now l.recentRejects).map fun recent => (served, (⟨b, recent⟩ : Limits))).bind
          fun r => r.2.run es).isSome = (noteRejects l.recentRejects (now :: b.refusals es)).isSome := by
      intro b served
      rw [noteRejects]
      cases noteReject now l.recentRejects with
      | none => rfl
      | some recent => exact ih ⟨b, recent⟩
    cases s with
    | reject => exact hnote l.coinbasers false
    | request =>
      rw [strain, Bucket.refusals]
      generalize l.coinbasers.request now = r
      obtain ⟨_ | _, b⟩ := r
      · exact hnote b false
      · exact ih ⟨b, l.recentRejects⟩

end Limits

theorem Bucket.refusals_sublist (b : Bucket) (es : List (Nat × Strain)) :
    (b.refusals es).Sublist (es.map Prod.fst) := by
  induction es generalizing b with
  | nil => exact .slnil
  | cons e es ih =>
    obtain ⟨now, _ | _⟩ := e
    · exact (ih b).cons_cons now
    · rw [refusals]
      split
      · exact (ih _).cons now
      · exact (ih _).cons_cons now

/-- A session is dropped as soon as, and only if, more than two thousand of what it was refused, coinbasers over
the limit among it, came within ten seconds. -/
theorem dropped_iff_flood {start : Nat} {es : List (Nat × Strain)} (hordered : Ordered id (es.map Prod.fst)) :
    (Limits.new start).run es = none ↔ Floods ((⟨coinbaserBurst, start⟩ : Bucket).refusals es) := by
  have hrefusals : Ordered id ((⟨coinbaserBurst, start⟩ : Bucket).refusals es) :=
    hordered.sublist (Bucket.refusals_sublist _ es)
  obtain ⟨hquiet, hflood⟩ := noteRejects_eq hrefusals
  have hrun := (Limits.new start).run_isSome es
  constructor
  · intro hnone
    by_contra hnot
    rw [hnone] at hrun
    have hsome := hquiet hnot
    change _ = (noteRejects [] ((⟨coinbaserBurst, start⟩ : Bucket).refusals es)).isSome at hrun
    rw [hsome] at hrun
    cases hrun
  · intro h
    change _ = (noteRejects [] ((⟨coinbaserBurst, start⟩ : Bucket).refusals es)).isSome at hrun
    rw [hflood h] at hrun
    exact Option.isNone_iff_eq_none.mp (Option.isSome_eq_false_iff.mp hrun)

theorem Bucket.refusals_rejects (b : Bucket) (t n : Nat) :
    b.refusals (List.replicate n (t, .reject)) = List.replicate n t := by
  induction n with
  | zero => rfl
  | succ n ih => rw [List.replicate_succ, List.replicate_succ, refusals, ih]

theorem floods_replicate {n : Nat} (t : Nat) (h : rejectFlood < n) : Floods (List.replicate n t) := by
  refine ⟨0, by rwa [Nat.zero_add, List.length_replicate], ?_⟩
  rw [List.getElem_replicate, List.getElem_replicate, Nat.sub_self]
  exact Nat.zero_le _

/-- A burst of coinbasers and so many more, all at once, then two thousand rejects. -/
def strained (more : Nat) : List (Nat × Strain) :=
  List.replicate coinbaserBurst (1, .request) ++
    (List.replicate more (1, .request) ++ List.replicate rejectFlood (1, .reject))

theorem strained_ordered (more : Nat) : Ordered id ((strained more).map Prod.fst) := by
  rw [strained, List.map_append, List.map_append, List.map_replicate, List.map_replicate, List.map_replicate,
    List.replicate_append_replicate, List.replicate_append_replicate]
  exact List.pairwise_replicate.mpr (.inr (Nat.le_refl _))

/-- A coinbaser over the limit is the one refusal more than a session is let. -/
theorem dropped_iff_flood_filled :
    (Limits.new 0).run (strained 1) = none ∧ (Limits.new 0).run (strained 0) ≠ none := by
  have hburst : ∀ rest, (⟨coinbaserBurst, 0⟩ : Bucket).refusals (List.replicate coinbaserBurst (1, .request) ++ rest) =
      (⟨0, 0⟩ : Bucket).refusals rest := fun rest => rfl
  have hmore : ∀ rest, (⟨0, 0⟩ : Bucket).refusals (List.replicate 1 (1, .request) ++ rest) =
      1 :: (⟨0, 0⟩ : Bucket).refusals rest := fun rest => rfl
  refine ⟨(dropped_iff_flood (strained_ordered 1)).mpr ?_, fun hnone => ?_⟩
  · rw [strained, hburst, hmore, Bucket.refusals_rejects, ← List.replicate_succ]
    exact floods_replicate 1 (Nat.lt_add_one rejectFlood)
  · obtain ⟨i, hi, -⟩ := (dropped_iff_flood (strained_ordered 0)).mp hnone
    rw [strained, hburst, List.replicate_zero, List.nil_append, Bucket.refusals_rejects, List.length_replicate] at hi
    exact absurd (Nat.le_add_left rejectFlood i) (Nat.not_le_of_lt hi)

namespace Bucket

theorem refill_cases (b : Bucket) (now : Nat) :
    (now - b.refillAt < coinbaserRefill ∧ b.refill now = b) ∨
    (coinbaserRefill ≤ now - b.refillAt ∧ b.refill now =
      ⟨min (b.tokens + (now - b.refillAt) / coinbaserRefill) coinbaserBurst, now⟩) := by
  unfold refill
  split
  next h =>
    refine .inr ⟨h, ?_⟩
    rw [satAdd, min_assoc]
    rfl
  next h => exact .inl ⟨Nat.lt_of_not_le h, rfl⟩

/-- A request is paid for by a token; whatever the refills are, they bring no more than the time that has passed. -/
theorem request_pays {b : Bucket} {now last : Nat} (hnow : b.refillAt ≤ now) (hlast : now ≤ last) :
    (b.request now).1.toNat + (b.request now).2.tokens + (last - (b.request now).2.refillAt) / coinbaserRefill ≤
      b.tokens + (last - b.refillAt) / coinbaserRefill := by
  have hrefill : (b.refill now).tokens + (last - (b.refill now).refillAt) / coinbaserRefill ≤
      b.tokens + (last - b.refillAt) / coinbaserRefill := by
    rcases b.refill_cases now with ⟨-, heq⟩ | ⟨-, heq⟩
    · rw [heq]
    · have hsum : (now - b.refillAt) / coinbaserRefill + (last - now) / coinbaserRefill ≤
          (last - b.refillAt) / coinbaserRefill := by
        rw [show last - b.refillAt = (now - b.refillAt) + (last - now) by omega]
        exact Nat.div_add_div_le_add_div
      have hmin := Nat.min_le_left (b.tokens + (now - b.refillAt) / coinbaserRefill) coinbaserBurst
      rw [heq]
      dsimp only
      omega
  refine Nat.le_trans ?_ hrefill
  unfold request
  dsimp only
  split
  next h =>
    simp only [Bool.toNat_false]
    omega
  next h =>
    simp only [Bool.toNat_true]
    omega

theorem request_refillAt (b : Bucket) (now : Nat) :
    (b.request now).2.refillAt = b.refillAt ∨ (b.request now).2.refillAt = now := by
  have hsame : (b.request now).2.refillAt = (b.refill now).refillAt := by
    unfold request
    dsimp only
    split <;> rfl
  rw [hsame]
  rcases b.refill_cases now with ⟨-, heq⟩ | ⟨-, heq⟩
  · exact .inl (by rw [heq])
  · exact .inr (by rw [heq])

theorem refill_tokens {b : Bucket} (h : b.tokens ≤ coinbaserBurst) (now : Nat) :
    (b.refill now).tokens ≤ coinbaserBurst := by
  rcases b.refill_cases now with ⟨-, heq⟩ | ⟨-, heq⟩
  · rwa [heq]
  · rw [heq]
    exact Nat.min_le_right ..

theorem refill_refillAt_le {b : Bucket} {now : Nat} (h : b.refillAt ≤ now) : (b.refill now).refillAt ≤ now := by
  rcases b.refill_cases now with ⟨-, heq⟩ | ⟨-, heq⟩
  · rwa [heq]
  · rw [heq]

/-- A bucket just refilled is less than a refill old. -/
theorem refill_late (b : Bucket) (now : Nat) : now - (b.refill now).refillAt < coinbaserRefill := by
  rcases b.refill_cases now with ⟨hlt, heq⟩ | ⟨-, heq⟩
  · rwa [heq]
  · rw [heq, Nat.sub_self]
    decide

theorem refill_refill (b : Bucket) (now : Nat) : (b.refill now).refill now = b.refill now := by
  rcases (b.refill now).refill_cases now with ⟨-, heq⟩ | ⟨hle, -⟩
  · exact heq
  · exact absurd hle (Nat.not_le_of_lt (b.refill_late now))

/-- A request refills the bucket itself. -/
theorem answers_refill (b : Bucket) (a : Nat) (rest : List Nat) :
    (b.refill a).answers (a :: rest) = b.answers (a :: rest) := by
  rw [answers, answers, request, request, refill_refill]

theorem request_after {b : Bucket} {now : Nat} (h : coinbaserRefill ≤ now - b.refillAt) : (b.request now).1 = true := by
  have hone : 1 ≤ (now - b.refillAt) / coinbaserRefill := (Nat.one_le_div_iff (by decide)).mpr h
  have hburst : coinbaserBurst = 32 := rfl
  have hsome : (b.refill now).tokens ≠ 0 := by
    rcases b.refill_cases now with ⟨hlt, -⟩ | ⟨-, heq⟩
    · omega
    · rw [heq]
      dsimp only
      omega
  unfold request
  dsimp only
  rw [if_neg hsome]

theorem request_tokens {b : Bucket} (h : b.tokens ≤ coinbaserBurst) (now : Nat) :
    (b.request now).2.tokens ≤ coinbaserBurst := by
  unfold request
  dsimp only
  split
  · exact refill_tokens h now
  · exact (Nat.sub_le ..).trans (refill_tokens h now)

theorem answers_le {b : Bucket} {ts : List Nat} {last : Nat} (hordered : Ordered id (b.refillAt :: ts))
    (hlast : ∀ t ∈ ts, t ≤ last) :
    (b.answers ts).1.count true ≤ b.tokens + (last - b.refillAt) / coinbaserRefill := by
  induction ts generalizing b with
  | nil => exact Nat.zero_le _
  | cons t ts ih =>
    obtain ⟨hfirst, htail⟩ := List.pairwise_cons.mp hordered
    obtain ⟨hrest, htail'⟩ := List.pairwise_cons.mp htail
    have ht : b.refillAt ≤ t := hfirst t List.mem_cons_self
    have hpays := request_pays ht (hlast t List.mem_cons_self)
    have hordered' : Ordered id ((b.request t).2.refillAt :: ts) := by
      refine List.pairwise_cons.mpr ⟨fun u hu => ?_, htail'⟩
      rcases b.request_refillAt t with h | h
      · rw [h]
        exact hfirst u (List.mem_cons_of_mem _ hu)
      · rw [h]
        exact hrest u hu
    have hmore := ih hordered' fun u hu => hlast u (List.mem_cons_of_mem _ hu)
    have hcount : (b.answers (t :: ts)).1.count true =
        ((b.request t).2.answers ts).1.count true + (b.request t).1.toNat := by
      change ((b.request t).1 :: ((b.request t).2.answers ts).1).count true = _
      cases (b.request t).1 <;> simp
    omega

theorem answers_refillAt (b : Bucket) (ts : List Nat) : (b.answers ts).2.refillAt ∈ b.refillAt :: ts := by
  induction ts generalizing b with
  | nil => exact List.mem_cons_self
  | cons t ts ih =>
    have hrest := ih (b.request t).2
    change ((b.request t).2.answers ts).2.refillAt ∈ _
    rcases b.request_refillAt t with h | h <;> rw [h] at hrest
    · rcases List.mem_cons.mp hrest with heq | hmem
      · exact heq ▸ List.mem_cons_self
      · exact List.mem_cons_of_mem _ (List.mem_cons_of_mem _ hmem)
    · exact List.mem_cons_of_mem _ hrest

theorem answers_tokens {b : Bucket} (h : b.tokens ≤ coinbaserBurst) (ts : List Nat) :
    (b.answers ts).2.tokens ≤ coinbaserBurst := by
  induction ts generalizing b with
  | nil => exact h
  | cons t ts ih => exact ih (request_tokens h t)

end Bucket

/-- However a session asks, in no stretch of its requests are more answered than the burst and one for each
second begun; and one that comes a second after the last is always answered. -/
theorem coinbasers_limited {start a last : Nat} {front rest : List Nat}
    (hordered : Ordered id (start :: (front ++ a :: rest))) (hlast : ∀ t ∈ a :: rest, t ≤ last) :
    let b := ((⟨coinbaserBurst, start⟩ : Bucket).answers front).2
    (b.answers (a :: rest)).1.count true ≤ coinbaserBurst + (last - a + (coinbaserRefill - 1)) / coinbaserRefill ∧
      ((∀ t ∈ start :: front, t + coinbaserRefill ≤ a) → (b.request a).1 = true) := by
  intro b
  have hmem := (⟨coinbaserBurst, start⟩ : Bucket).answers_refillAt front
  have htokens : b.tokens ≤ coinbaserBurst := Bucket.answers_tokens (Nat.le_refl _) front
  obtain ⟨-, hback, hcross⟩ := List.pairwise_append.mp (List.cons_append .. ▸ hordered :
    Ordered id ((start :: front) ++ a :: rest))
  have hbefore : b.refillAt ≤ a := hcross _ hmem a List.mem_cons_self
  have hlasts : a ≤ last := hlast a List.mem_cons_self
  constructor
  · have hfull : (b.refill a).tokens ≤ coinbaserBurst := Bucket.refill_tokens htokens a
    have hrefilled : (b.refill a).refillAt ≤ a := Bucket.refill_refillAt_le hbefore
    have hafter : ∀ t ∈ a :: rest, (b.refill a).refillAt ≤ t := by
      intro t ht
      rcases List.mem_cons.mp ht with rfl | ht
      · exact hrefilled
      · exact hrefilled.trans ((List.pairwise_cons.mp hback).1 t ht)
    have hcount := Bucket.answers_le (List.pairwise_cons.mpr ⟨hafter, hback⟩) hlast
    rw [Bucket.answers_refill] at hcount
    refine hcount.trans (Nat.add_le_add hfull (Nat.div_le_div_right ?_))
    have hlate := b.refill_late a
    omega
  · intro hspaced
    have hlong : coinbaserRefill ≤ a - b.refillAt := Nat.le_sub_of_add_le' (hspaced _ hmem)
    exact Bucket.request_after hlong

/-- The burst at once and one more, which is refused; a second later one is answered again, and so on. -/
theorem coinbasers_limited_emptied :
    let b := ((⟨coinbaserBurst, 0⟩ : Bucket).answers (List.replicate 33 0)).2
    let late := [second, second, second + second / 2, 2 * second + second / 2]
    (⟨coinbaserBurst, 0⟩ : Bucket).answers (List.replicate 33 0) = (List.replicate 32 true ++ [false], b) ∧
      b.tokens = 0 ∧ (b.answers late).1 = [true, false, false, true] ∧
      (b.answers late).1.count true ≤
        coinbaserBurst + (2 * second + second / 2 - second + (coinbaserRefill - 1)) / coinbaserRefill ∧
      (b.request second).1 = true := by
  intro b late
  have hlimited := @coinbasers_limited 0 second (2 * second + second / 2) (List.replicate 33 0) late.tail
    (by unfold Ordered; decide +kernel) (by decide +kernel)
  exact ⟨by decide +kernel, by decide +kernel, by decide +kernel, hlimited.1, hlimited.2 (by decide +kernel)⟩

end WaviclesPrime.Primed
