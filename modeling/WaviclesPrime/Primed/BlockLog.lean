import WaviclesPrime.Primed.Restart

/-! The recorded blocks and their log, when calls that change them overlap. -/
namespace WaviclesPrime.Primed
open Tides

/-- What is changed of a record: the outcome of its submission, or what a confirm pass finds. -/
inductive Change where
  | submitted (outcome : String)
  | confirmed
  | carried
  | orphaned

def Change.apply : Change → BlockRecord → BlockRecord
  | .submitted outcome, r => { r with submit := outcome }
  | .confirmed, r => confirmRecord r
  | .carried, r => carryRecord r
  | .orphaned, r => orphanRecord r

theorem Change.hash_apply (c : Change) (r : BlockRecord) : (c.apply r).hash = r.hash := by
  cases c <;> rfl

/-- The records in memory and the lines of the log. A record that is being recorded is in the log and
not in memory yet; one that is being updated is in memory and not in the log yet. -/
structure BlockStore where
  blocks : List BlockRecord
  log : List BlockRecord
  recording : List BlockRecord
  updating : List BlockRecord

/-- One step of a call: each records or updates in two, and others may go on in between. -/
inductive StoreStep where
  | record (r : BlockRecord)
  | push (i : Nat)
  | update (hash : String) (c : Change)
  | append (i : Nat)

namespace BlockStore

/-- At a start the records are those of the log. -/
def started (log : List BlockRecord) : BlockStore := ⟨Journal.replay BlockRecord.hash log, log, [], []⟩

def step (s : BlockStore) : StoreStep → BlockStore
  | .record r => { s with log := s.log ++ [r], recording := s.recording ++ [r] }
  | .push i =>
    match s.recording[i]? with
    | none => s
    | some r => { s with blocks := newest maxBlocks (s.blocks ++ [r]), recording := s.recording.eraseIdx i }
  | .update hash c =>
    match Journal.updateLast (fun r => r.hash = hash) c.apply s.blocks with
    | none => s
    | some (blocks, updated) => { s with blocks := blocks, updating := s.updating ++ [updated] }
  | .append i =>
    match s.updating[i]? with
    | none => s
    | some r => { s with log := s.log ++ [r], updating := s.updating.eraseIdx i }

def run (s : BlockStore) (steps : List StoreStep) : BlockStore := steps.foldl step s

/-- No call is in progress. -/
def Quiet (s : BlockStore) : Prop := s.recording = [] ∧ s.updating = []

/-- The record that is found under a hash. -/
def held (s : BlockStore) (hash : String) : Option BlockRecord :=
  s.blocks.reverse.find? fun r => r.hash = hash

/-- For every hash with a record in memory, the log reads back that record and no other. -/
def Replays (s : BlockStore) : Prop :=
  ∀ hash r, s.held hash = some r →
    (Journal.replay BlockRecord.hash s.log).filter (fun b => b.hash = hash) = [r]

/-- Calls for one hash do not overtake one another: a block is recorded when no call for its hash is in
progress, is not updated while it is being recorded again, and of its updates the oldest is appended first. -/
def InOrder (s : BlockStore) : StoreStep → Prop
  | .record r => r.hash ∉ s.recording.map BlockRecord.hash ∧ r.hash ∉ s.updating.map BlockRecord.hash
  | .push _ => True
  | .update hash _ => hash ∈ s.blocks.map BlockRecord.hash → hash ∉ s.recording.map BlockRecord.hash
  | .append i => ∀ r ∈ s.updating[i]?, r.hash ∉ (s.updating.take i).map BlockRecord.hash

def AllInOrder (s : BlockStore) : List StoreStep → Prop
  | [] => True
  | st :: steps => s.InOrder st ∧ (s.step st).AllInOrder steps

/-- What is to be appended brings the log to what is in memory. -/
structure Synced (s : BlockStore) : Prop where
  apart : ∀ r ∈ s.recording, r.hash ∉ s.updating.map BlockRecord.hash
  distinct : (s.recording.map BlockRecord.hash).Nodup
  recorded : ∀ r ∈ s.recording, Journal.latest BlockRecord.hash r.hash s.log = some r
  updated : ∀ hash r, s.held hash = some r → hash ∉ s.recording.map BlockRecord.hash →
    Journal.latest BlockRecord.hash hash (s.log ++ s.updating) = some r

section
variable {s : BlockStore} {hash : String}

theorem held_eq (s : BlockStore) (hash : String) :
    s.held hash = Journal.latest BlockRecord.hash hash s.blocks := List.getLast?_filter.symm

theorem Synced.started (log : List BlockRecord) : Synced (.started log) where
  apart := by simp [BlockStore.started]
  distinct := .nil
  recorded := by simp [BlockStore.started]
  updated := by
    intro hash r hr _
    rw [held_eq] at hr
    change Journal.latest BlockRecord.hash hash (Journal.replay BlockRecord.hash log) = some r at hr
    rw [Journal.latest_replay] at hr
    change Journal.latest BlockRecord.hash hash (log ++ []) = some r
    rw [List.append_nil, hr]

theorem Synced.record (h : s.Synced) {r : BlockRecord} (hs : s.InOrder (.record r)) :
    (s.step (.record r)).Synced where
  apart := by
    intro x hx
    rcases List.mem_append.mp hx with hx | hx
    · exact h.apart x hx
    · rw [List.mem_singleton.mp hx]
      exact hs.2
  distinct := by
    change ((s.recording ++ [r]).map BlockRecord.hash).Nodup
    rw [List.map_append]
    exact h.distinct.append (List.nodup_singleton _) (by simpa using hs.1)
  recorded := by
    intro x hx
    change Journal.latest BlockRecord.hash x.hash (s.log ++ [r]) = some x
    rw [Journal.latest_append, Journal.latest_singleton]
    rcases List.mem_append.mp hx with hx | hx
    · have hne : r.hash ≠ x.hash := fun heq => hs.1 (heq ▸ List.mem_map_of_mem hx)
      rw [if_neg hne, h.recorded x hx, Option.none_or]
    · rw [List.mem_singleton.mp hx, if_pos rfl, Option.some_or]
  updated := by
    intro hash x hx hout
    change hash ∉ (s.recording ++ [r]).map BlockRecord.hash at hout
    rw [List.map_append, List.mem_append, not_or] at hout
    have hne : r.hash ≠ hash := fun heq => hout.2 (by simp [heq])
    have hlast := h.updated hash x hx hout.1
    change Journal.latest BlockRecord.hash hash (s.log ++ [r] ++ s.updating) = some x
    rw [Journal.latest_append] at hlast
    rw [Journal.latest_append, Journal.latest_append, Journal.latest_singleton, if_neg hne, Option.none_or,
      hlast]

/-- What is found after a record is put at the end. -/
theorem latest_newest {blocks : List BlockRecord} {n : Nat} {x : BlockRecord}
    (h : Journal.latest BlockRecord.hash hash (newest n blocks) = some x) :
    Journal.latest BlockRecord.hash hash blocks = some x := by
  have hsplit : blocks = (blocks.reverse.drop n).reverse ++ newest n blocks := by
    rw [newest, ← List.reverse_append, List.take_append_drop, List.reverse_reverse]
  rw [hsplit, Journal.latest_append, h, Option.some_or]

theorem Synced.push (h : s.Synced) (i : Nat) : (s.step (.push i)).Synced := by
  unfold BlockStore.step
  dsimp only
  split
  next => exact h
  next r hr =>
    have hmem : r ∈ s.recording := List.mem_of_getElem? hr
    have hsub : (s.recording.eraseIdx i).Sublist s.recording := List.eraseIdx_sublist _ _
    refine ⟨fun x hx => h.apart x (hsub.subset hx), h.distinct.sublist (hsub.map _),
      fun x hx => h.recorded x (hsub.subset hx), fun hash x hx hout => ?_⟩
    rw [held_eq] at hx
    have hlast := latest_newest hx
    rw [Journal.latest_append, Journal.latest_singleton] at hlast
    by_cases heq : r.hash = hash
    · rw [if_pos heq, Option.some_or] at hlast
      obtain rfl := Option.some.inj hlast
      change Journal.latest BlockRecord.hash hash (s.log ++ s.updating) = some r
      rw [Journal.latest_append, Journal.latest_eq_none.mpr (heq ▸ h.apart r hmem), Option.none_or, ← heq,
        h.recorded r hmem]
    · rw [if_neg heq, Option.none_or, ← held_eq] at hlast
      refine h.updated hash x hlast fun hin => hout ?_
      obtain ⟨y, hy, rfl⟩ := List.mem_map.mp hin
      refine List.mem_map_of_mem ((List.mem_eraseIdx_iff_getElem?).mpr ?_)
      obtain ⟨j, hj⟩ := List.mem_iff_getElem?.mp hy
      refine ⟨j, fun hji => heq ?_, hj⟩
      rw [hji, hr] at hj
      rw [Option.some.inj hj]

theorem Synced.update (h : s.Synced) {c : Change} (hs : s.InOrder (.update hash c)) :
    (s.step (.update hash c)).Synced := by
  unfold BlockStore.step
  dsimp only
  split
  next => exact h
  next blocks updated hupd =>
    obtain ⟨before, r, after, hblocks, hr, hafter, rfl, rfl⟩ := Journal.updateLast_split hupd
    have hkey : r.hash = hash := of_decide_eq_true hr
    have hin : hash ∈ s.blocks.map BlockRecord.hash := by
      rw [hblocks, ← hkey]
      exact List.mem_map_of_mem (List.mem_append_right _ List.mem_cons_self)
    have hnew : (c.apply r).hash = hash := (c.hash_apply r).trans hkey
    have hfree := hs hin
    refine ⟨fun x hx => ?_, h.distinct, h.recorded, fun k x hx hout => ?_⟩
    · rw [List.map_append, List.mem_append, not_or]
      refine ⟨h.apart x hx, ?_⟩
      rw [List.map_singleton, List.mem_singleton, hnew]
      exact fun heq => hfree (heq ▸ List.mem_map_of_mem hx)
    · change Journal.latest BlockRecord.hash k (s.log ++ (s.updating ++ [c.apply r])) = some x
      rw [← List.append_assoc, Journal.latest_append, Journal.latest_singleton, hnew]
      have hlater : Journal.latest BlockRecord.hash hash after = none :=
        Journal.latest_eq_none.mpr fun hmem => by
          obtain ⟨y, hy, hyk⟩ := List.mem_map.mp hmem
          simpa [hyk] using hafter y hy
      have hsplit : ∀ y : BlockRecord, before ++ y :: after = before ++ [y] ++ after := fun y => by simp
      rw [held_eq] at hx
      change Journal.latest BlockRecord.hash k (before ++ c.apply r :: after) = some x at hx
      rw [hsplit, Journal.latest_append, Journal.latest_append, Journal.latest_singleton, hnew] at hx
      by_cases heq : hash = k
      · rw [← heq, hlater, Option.none_or, if_pos rfl, Option.some_or] at hx
        rw [if_pos heq, ← Option.some.inj hx, Option.some_or]
      · rw [if_neg heq, Option.none_or] at hx
        rw [if_neg heq, Option.none_or]
        refine h.updated k x ?_ hout
        rw [held_eq, hblocks, hsplit, Journal.latest_append, Journal.latest_append,
          Journal.latest_singleton, if_neg (hkey ▸ heq), Option.none_or]
        exact hx

theorem Synced.append (h : s.Synced) {i : Nat} (hs : s.InOrder (.append i)) :
    (s.step (.append i)).Synced := by
  unfold BlockStore.step
  dsimp only
  split
  next => exact h
  next r hr =>
    have hmem : r ∈ s.updating := List.mem_of_getElem? hr
    have hsub : (s.updating.eraseIdx i).Sublist s.updating := List.eraseIdx_sublist _ _
    obtain ⟨hlt, hget⟩ := List.getElem?_eq_some_iff.mp hr
    have hsplit : s.updating = s.updating.take i ++ r :: s.updating.drop (i + 1) := by
      rw [← hget, List.getElem_cons_drop, List.take_append_drop]
    refine ⟨fun x hx hin => h.apart x hx ((hsub.map _).subset hin), h.distinct, fun x hx => ?_,
      fun k x hx hout => ?_⟩
    · change Journal.latest BlockRecord.hash x.hash (s.log ++ [r]) = some x
      rw [Journal.latest_append, Journal.latest_singleton, if_neg, Option.none_or, h.recorded x hx]
      exact fun heq => h.apart x hx (heq ▸ List.mem_map_of_mem hmem)
    · -- the copy goes before those of other hashes
      have hlast := h.updated k x hx hout
      rw [hsplit, Journal.latest_append, Journal.latest_move _ _ (hs r hr), ← Journal.latest_append] at hlast
      change Journal.latest BlockRecord.hash k (s.log ++ [r] ++ s.updating.eraseIdx i) = some x
      rw [List.eraseIdx_eq_take_drop_succ, List.append_assoc, List.singleton_append]
      exact hlast

theorem Synced.step (h : s.Synced) {st : StoreStep} (hs : s.InOrder st) : (s.step st).Synced := by
  cases st with
  | record r => exact h.record hs
  | push i => exact h.push i
  | update hash c => exact h.update hs
  | append i => exact h.append hs

theorem Synced.run (h : s.Synced) {steps : List StoreStep} (hs : s.AllInOrder steps) :
    (s.run steps).Synced := by
  induction steps generalizing s with
  | nil => exact h
  | cons st steps ih => exact ih (h.step hs.1) hs.2

/-- Where nothing is in progress, the log reads back what is in memory. -/
theorem Synced.replays (h : s.Synced) (hq : s.Quiet) : s.Replays := by
  intro hash r hr
  have hlast := h.updated hash r hr (by rw [hq.1]; exact List.not_mem_nil)
  rw [hq.2, List.append_nil, ← Journal.latest_replay] at hlast
  exact Journal.filter_of_latest (Journal.replay_nodup s.log) hlast

end

/-- In every run whose calls do not overtake one another the log replays to the records in memory. -/
theorem log_replays_memory (log : List BlockRecord) (steps : List StoreStep)
    (horder : (started log).AllInOrder steps) (hquiet : ((started log).run steps).Quiet) :
    ((started log).run steps).Replays := ((Synced.started log).run horder).replays hquiet

instance (s : BlockStore) : DecidablePred s.InOrder
  | .record _ => inferInstanceAs (Decidable (_ ∧ _))
  | .push _ => isTrue trivial
  | .update _ _ => inferInstanceAs (Decidable (_ → _))
  | .append i => inferInstanceAs (Decidable (∀ r ∈ s.updating[i]?, _))

instance decideAllInOrder (s : BlockStore) : (steps : List StoreStep) → Decidable (s.AllInOrder steps)
  | [] => isTrue trivial
  | st :: steps =>
    have := decideAllInOrder (s.step st) steps
    inferInstanceAs (Decidable (_ ∧ _))

/-- A block is recorded, its outcome is noted and it is confirmed, each call going on as it comes. -/
def orderlySteps : List StoreStep :=
  [.record sampleRecord, .push 0, .update "00ab" (.submitted "accepted"), .update "00ab" .confirmed,
    .append 0, .append 0]

theorem log_replays_orderly :
    (Journal.replay BlockRecord.hash ((started []).run orderlySteps).log).filter (fun b => b.hash = "00ab") =
      [{ sampleRecord with submit := "accepted", settled := true }] :=
  log_replays_memory [] orderlySteps (by decide +kernel) ⟨rfl, rfl⟩ "00ab" _ rfl

/-- The outcome of the submission is appended after the confirmation it came before. -/
def crossedSteps : List StoreStep :=
  [.record sampleRecord, .push 0, .update "00ab" (.submitted "accepted"), .update "00ab" .confirmed,
    .append 1, .append 0]

theorem log_forgets_settled : ¬ ∀ log steps, ((started log).run steps).Quiet →
    ((started log).run steps).Replays := by
  intro hall
  have hread := hall [] crossedSteps ⟨rfl, rfl⟩ "00ab" _ rfl
  revert hread
  decide +kernel

end BlockStore
end WaviclesPrime.Primed
