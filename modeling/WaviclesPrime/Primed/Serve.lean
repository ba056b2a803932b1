import WaviclesPrime.Lib.Framing
import WaviclesPrime.Wire.Frame

/-! The receive loop: frames are cut from what the reads of a connection have brought so far. -/
namespace WaviclesPrime.Primed
open Wire Framing

abbrev Frame := Header × Bytes

inductive SessionError where
  | unexpectedEof
  | wire (e : Error)
  | bad (what : String)
  deriving DecidableEq, Repr

/-- What has come in; the bytes before `pos` have been used. -/
structure InBuf where
  data : Bytes
  pos : Nat
  le : pos ≤ data.length

namespace InBuf

def empty : InBuf := ⟨[], 0, Nat.le_refl 0⟩

def unread (b : InBuf) : Bytes := b.data.drop b.pos

def take (b : InBuf) (n : Nat) : Option (Bytes × InBuf) :=
  if h : b.data.length - b.pos < n then none
  else some (b.unread.take n, ⟨b.data, b.pos + n, by have := b.le; omega⟩)

def makeRoom (b : InBuf) : InBuf :=
  if 0 < b.pos ∧ b.data.length / 2 ≤ b.pos then ⟨b.data.drop b.pos, 0, Nat.zero_le _⟩ else b

def readBuf (b : InBuf) (chunk : Bytes) : InBuf :=
  ⟨b.data ++ chunk, b.pos, by have := b.le; rw [List.length_append]; omega⟩

@[simp] theorem unread_makeRoom (b : InBuf) : b.makeRoom.unread = b.unread := by
  unfold makeRoom
  split <;> rfl

@[simp] theorem unread_readBuf (b : InBuf) (chunk : Bytes) : (b.readBuf chunk).unread = b.unread ++ chunk :=
  List.drop_append_of_le_length b.le

theorem take_eq_none {b : InBuf} {n : Nat} : b.take n = none ↔ b.unread.length < n := by
  rw [take, unread, List.length_drop]
  split <;> simp [*]

theorem take_eq_some {b b' : InBuf} {n : Nat} {s : Bytes} (h : b.take n = some (s, b')) :
    n ≤ b.unread.length ∧ s = b.unread.take n ∧ b'.unread = b.unread.drop n := by
  unfold take at h
  split at h
  · cases h
  · rename_i hlen
    rw [Option.some.injEq, Prod.mk.injEq] at h
    obtain ⟨rfl, rfl⟩ := h
    exact ⟨by rw [unread, List.length_drop]; omega, rfl, by rw [unread, unread, List.drop_drop]⟩

end InBuf

structure Receiver where
  recvKeys : KeyStream
  pending : Option Header
  inbuf : InBuf

namespace Receiver

def new (keys : KeyStream) : Receiver := ⟨keys, none, .empty⟩

/-- The header to serve: the one that waits for its payload, else the next one there. -/
def header (r : Receiver) : Except SessionError (Option (Header × Receiver)) :=
  match r.pending with
  | some h => .ok (some (h, r))
  | none =>
    match r.inbuf.take Header.size with
    | none => .ok none
    | some (hb, inbuf) =>
      match Header.decode hb r.recvKeys with
      | (.error e, _) => .error (.wire e)
      | (.ok h, keys) =>
        if maxCmdLen < h.len.toNat then .error (.bad "frame too large")
        else .ok (some (h, ⟨keys, some h, inbuf⟩))

/-- One turn of the inner loop; without a frame the loop is left. -/
def frame (r : Receiver) : Except SessionError (Option Frame × Receiver) :=
  match r.header with
  | .error e => .error e
  | .ok none => .ok (none, r)
  | .ok (some (h, r)) =>
    match r.inbuf.take h.len.toNat with
    | none => .ok (none, r)
    | some (payload, inbuf) => .ok (some (h, payload), { r with pending := none, inbuf })

/-- What a frame uses up: bytes, or the header that waited for it. -/
def ahead (r : Receiver) : Nat := 2 * r.inbuf.unread.length + r.pending.elim 0 fun _ => 1

abbrev reading (r : Receiver) : KeyStream × Option Header := (r.recvKeys, r.pending)

end Receiver

/-- The stream as such: a header once its four bytes are there, then its payload. -/
def cut : Cutter (KeyStream × Option Header) Frame UInt8
  | (keys, none), u =>
    if u.length < Header.size then none
    else some ([], (keys.advance.2, some (.under keys (u.take Header.size))), u.drop Header.size)
  | (keys, some h), u =>
    if u.length < h.len.toNat then none
    else some ([(h, u.take h.len.toNat)], (keys, none), u.drop h.len.toNat)

theorem cut_local : Local cut := by
  intro s u o s' rest hcut v
  obtain ⟨keys, _ | h⟩ := s
  all_goals
    simp only [cut] at hcut ⊢
    split at hcut
    · cases hcut
    · rename_i hlen
      have hle := Nat.not_lt.mp hlen
      cases hcut
      rw [if_neg (by rw [List.length_append]; omega), List.take_append_of_le_length hle,
        List.drop_append_of_le_length hle]

namespace Receiver

/-- A header is served if it waited, or if the stream has one. -/
theorem header_cases (r : Receiver) :
    (r.header = .ok none ∧ cut r.reading r.inbuf.unread = none) ∨
    (r.pending.isSome ∧ ∃ h, r.header = .ok (some (h, r)) ∧ r.pending = some h) ∨
    (r.pending = none ∧ ∃ h r', r.header = .ok (some (h, r')) ∧ r'.pending = some h ∧
      r'.inbuf.unread.length + Header.size ≤ r.inbuf.unread.length ∧
      cut r.reading r.inbuf.unread = some ([], r'.reading, r'.inbuf.unread)) := by
  obtain ⟨keys, _ | h, inbuf⟩ := r
  · cases htake : inbuf.take Header.size with
    | none =>
      refine .inl ⟨by simp only [header, htake], ?_⟩
      exact if_pos (InBuf.take_eq_none.mp htake)
    | some taken =>
      obtain ⟨hb, inbuf'⟩ := taken
      obtain ⟨hle, rfl, hrest⟩ := InBuf.take_eq_some htake
      refine .inr (.inr ⟨rfl, .under keys (inbuf.unread.take Header.size), ⟨keys.advance.2, _, inbuf'⟩, ?_,
        rfl, ?_, ?_⟩)
      · simp only [header, htake, Header.decode_eq, Header.under, Header.within, if_false]
      · change inbuf'.unread.length + _ ≤ inbuf.unread.length
        rw [hrest, List.length_drop]
        omega
      · change cut (keys, none) inbuf.unread = _
        rw [cut, if_neg (Nat.not_lt.mpr hle), ← hrest]
  · exact .inr (.inl ⟨rfl, h, rfl, rfl⟩)

/-- A turn follows the stream, and a frame uses something up. -/
theorem frame_cases (r : Receiver) :
    (∃ r', r.frame = .ok (none, r') ∧ Cuts cut r.reading r.inbuf.unread [] r'.reading r'.inbuf.unread) ∨
    (∃ f r', r.frame = .ok (some f, r') ∧ r'.ahead < r.ahead ∧ ∀ {out t left},
      Cuts cut r'.reading r'.inbuf.unread out t left →
      Cuts cut r.reading r.inbuf.unread (f :: out) t left) := by
  -- what the payload does, once there is a header
  have hpayload : ∀ (r : Receiver) h, r.pending = some h →
      (r.inbuf.take h.len.toNat = none ∧ cut r.reading r.inbuf.unread = none) ∨
      (∃ payload inbuf, r.inbuf.take h.len.toNat = some (payload, inbuf) ∧
        inbuf.unread.length ≤ r.inbuf.unread.length ∧
        cut r.reading r.inbuf.unread = some ([(h, payload)], (r.recvKeys, none), inbuf.unread)) := by
    intro r h hpending
    rw [reading, hpending]
    cases htake : r.inbuf.take h.len.toNat with
    | none => exact .inl ⟨rfl, if_pos (InBuf.take_eq_none.mp htake)⟩
    | some taken =>
      obtain ⟨payload, inbuf⟩ := taken
      obtain ⟨hle, rfl, hrest⟩ := InBuf.take_eq_some htake
      refine .inr ⟨_, inbuf, rfl, ?_, ?_⟩
      · rw [hrest, List.length_drop]
        omega
      · rw [cut, if_neg (Nat.not_lt.mpr hle), ← hrest]
  obtain ⟨hheader, hcut⟩ | ⟨hsome, h, hheader, hpending⟩ | ⟨hnone, h, r₁, hheader, hpending, hlen, hcut⟩ :=
    r.header_cases
  · exact .inl ⟨r, by simp only [frame, hheader], .stop hcut⟩
  · obtain ⟨htake, hcut⟩ | ⟨payload, inbuf, htake, hle, hcut⟩ := hpayload r h hpending
    · exact .inl ⟨r, by simp only [frame, hheader, htake], .stop hcut⟩
    · refine .inr ⟨_, { r with pending := none, inbuf }, by simp only [frame, hheader, htake]; rfl, ?_, ?_⟩
      · simp only [ahead, hpending, Option.elim]
        omega
      · intro out t left htail
        exact .more hcut htail
  · obtain ⟨htake, hcut'⟩ | ⟨payload, inbuf, htake, hle, hcut'⟩ := hpayload r₁ h hpending
    · exact .inl ⟨r₁, by simp only [frame, hheader, htake], .more hcut (.stop hcut')⟩
    · refine .inr ⟨_, { r₁ with pending := none, inbuf }, by simp only [frame, hheader, htake]; rfl, ?_, ?_⟩
      · have : Header.size = 4 := rfl
        simp only [ahead, hnone, Option.elim]
        omega
      · intro out t left htail
        exact .more hcut (.more hcut' htail)

theorem frame_ahead {r r' : Receiver} {f : Frame} (h : r.frame = .ok (some f, r')) : r'.ahead < r.ahead := by
  obtain ⟨_, hframe, _⟩ | ⟨_, _, hframe, hlt, _⟩ := r.frame_cases
  · cases h.symm.trans hframe
  · cases h.symm.trans hframe
    exact hlt

/-- The inner loop: every frame that is complete. -/
def frames (r : Receiver) : List Frame × Except SessionError Receiver :=
  match h : r.frame with
  | .error e => ([], .error e)
  | .ok (none, r) => ([], .ok r)
  | .ok (some f, r') =>
    let (fs, out) := frames r'
    (f :: fs, out)
termination_by r.ahead
decreasing_by exact frame_ahead h

/-- A read, and the frames it completes; the end of the stream is a read of nothing. -/
def read (r : Receiver) (chunk : Bytes) : List Frame × Except SessionError Receiver :=
  if chunk = [] then ([], .error .unexpectedEof)
  else { r with inbuf := r.inbuf.makeRoom.readBuf chunk }.frames

def serve (r : Receiver) : List Bytes → List Frame × Except SessionError Receiver
  | [] => ([], .ok r)
  | chunk :: chunks =>
    match r.read chunk with
    | (fs, .error e) => (fs, .error e)
    | (fs, .ok r) =>
      let (more, out) := r.serve chunks
      (fs ++ more, out)

/-- The inner loop cuts the stream for as long as enough is there. -/
theorem frames_cuts (r : Receiver) : ∃ out r', r.frames = (out, .ok r') ∧
    Cuts cut r.reading r.inbuf.unread out r'.reading r'.inbuf.unread := by
  induction hm : r.ahead using Nat.strong_induction_on generalizing r with
  | _ m ih =>
    obtain ⟨r', hframe, hcuts⟩ | ⟨f, r', hframe, hlt, hmore⟩ := r.frame_cases
    · refine ⟨[], r', ?_, hcuts⟩
      rw [frames]
      split <;> simp_all
    · obtain ⟨out, r'', hframes, hcuts⟩ := ih _ (hm ▸ hlt) r' rfl
      refine ⟨f :: out, r'', ?_, hmore hcuts⟩
      rw [frames]
      split <;> simp_all

/-- What a stream holds is what is served, however it comes in. -/
theorem serve_reads {r : Receiver} {chunks : List Bytes} {out : List Frame} {t left}
    (hne : ∀ chunk ∈ chunks, chunk ≠ []) (h : Reads cut r.reading r.inbuf.unread chunks out t left) :
    ∃ r', r.serve chunks = (out, .ok r') ∧ r'.reading = t ∧ r'.inbuf.unread = left := by
  generalize hs : r.reading = s at h
  generalize hu : r.inbuf.unread = u at h
  induction h generalizing r with
  | done s u => exact ⟨r, rfl, hs, hu⟩
  | @piece s u chunk o t left' chunks out t' rest hcuts _ ih =>
    have hread : r.read chunk = { r with inbuf := r.inbuf.makeRoom.readBuf chunk }.frames :=
      if_neg (hne chunk (List.mem_cons_self ..))
    obtain ⟨o', r₁, hframes, hcuts'⟩ := frames_cuts { r with inbuf := r.inbuf.makeRoom.readBuf chunk }
    rw [InBuf.unread_readBuf, InBuf.unread_makeRoom, hu] at hcuts'
    obtain ⟨rfl, hreading, hunread⟩ := (hs ▸ hcuts').unique hcuts
    obtain ⟨r₂, hserve, hend⟩ := ih (fun c hc => hne c (List.mem_cons_of_mem _ hc)) hreading hunread
    refine ⟨r₂, ?_, hend⟩
    simp only [serve, hread, hframes, hserve]

end Receiver

/-- What a sender writes: each header under the next key, and its payload. -/
def send (keys : KeyStream) : List Frame → Bytes × KeyStream
  | [] => ([], keys)
  | (h, payload) :: fs =>
    let (hb, keys) := h.encode keys
    let (rest, keys) := send keys fs
    (hb ++ payload ++ rest, keys)

theorem send_cuts {fs : List Frame} (hfits : ∀ f ∈ fs, f.1.Fits ∧ f.2.length = f.1.len.toNat)
    (keys : KeyStream) : Cuts cut (keys, none) (send keys fs).1 fs ((send keys fs).2, none) [] := by
  induction fs generalizing keys with
  | nil => exact .stop rfl
  | cons f fs ih =>
    obtain ⟨h, payload⟩ := f
    obtain ⟨hh, hpayload⟩ := hfits _ (List.mem_cons_self ..)
    change payload.length = h.len.toNat at hpayload
    have htail := ih (fun g hg => hfits g (List.mem_cons_of_mem _ hg)) (h.encode keys).2
    have hsize := Header.length_encode h keys
    have hunder : Header.under keys (h.encode keys).1 = h := by
      have hdecode := Header.decode_encode hh keys
      rw [Header.decode_eq, Prod.mk.injEq] at hdecode
      exact Except.ok.inj hdecode.1
    have hheader : cut (keys, none) ((h.encode keys).1 ++ (payload ++ (send (h.encode keys).2 fs).1)) =
        some ([], ((h.encode keys).2, some h), payload ++ (send (h.encode keys).2 fs).1) := by
      rw [cut, if_neg (by rw [List.length_append]; omega), ← hsize, List.take_left, List.drop_left, hunder]
      rfl
    have hrest : cut ((h.encode keys).2, some h) (payload ++ (send (h.encode keys).2 fs).1) =
        some ([(h, payload)], ((h.encode keys).2, none), (send (h.encode keys).2 fs).1) := by
      rw [cut, ← hpayload, if_neg (by rw [List.length_append]; omega), List.take_left, List.drop_left]
    simp only [send, List.append_assoc]
    exact .more hheader (.more hrest htail)

/-- The frames are those sent, and the keys go on in step, wherever the stream is cut. -/
theorem serve_framing {fs : List Frame} (hfits : ∀ f ∈ fs, f.1.Fits ∧ f.2.length = f.1.len.toNat)
    {keys : KeyStream} {chunks : List Bytes} (hne : ∀ chunk ∈ chunks, chunk ≠ [])
    (hcut : chunks.flatten = (send keys fs).1) : ∃ r, (Receiver.new keys).serve chunks = (fs, .ok r) ∧
      r.recvKeys = (send keys fs).2 ∧ r.pending = none ∧ r.inbuf.unread = [] := by
  have hcuts := send_cuts hfits keys
  rw [← hcut] at hcuts
  have hreads : Reads cut (Receiver.new keys).reading (Receiver.new keys).inbuf.unread chunks fs _ _ :=
    Cuts.reads cut_local rfl hcuts
  obtain ⟨r, hserve, hreading, hunread⟩ := Receiver.serve_reads hne hreads
  exact ⟨r, hserve, (Prod.mk.injEq .. ▸ hreading).1, (Prod.mk.injEq .. ▸ hreading).2, hunread⟩

/-- Four reads, cut within both headers and within the payload. -/
theorem serve_framing_uneven : ∃ r, (Receiver.new ⟨7⟩).serve [[5, 0], [0, 44, 9], [8, 138, 231], [117, 207]] =
      ([(⟨2, false, false, true, 5⟩, [9, 8]), (⟨0, false, false, false, 1⟩, [])], .ok r) ∧
    r.recvKeys = ⟨feedback (feedback 7)⟩ ∧ r.pending = none ∧ r.inbuf.unread = [] :=
  serve_framing (by decide) (by decide) (by decide)

end WaviclesPrime.Primed
