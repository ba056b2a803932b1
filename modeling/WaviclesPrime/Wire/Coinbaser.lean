import WaviclesPrime.Wire.Cursor

/-! Coinbaser v2: the list of outputs Prime tells a gateway to put in its coinbase. -/
namespace WaviclesPrime.Wire

def maxOutputs : Nat := 512
def maxScript : Nat := 64
def minScript : Nat := 2

structure Output where
  sats : Nat
  script : Bytes
  deriving DecidableEq, Repr

def encodeOutput (o : Output) : Bytes :=
  LittleEndian.write 8 o.sats ++ LittleEndian.write 1 o.script.length ++ o.script

def encodeV2 (id : UInt8) (outputs : List Output) : Bytes :=
  id :: (outputs.take maxOutputs).flatMap encodeOutput

def readOutput : Read Output := do
  let sats ← Cursor.u64
  let n ← Cursor.u8
  if n < minScript ∨ maxScript < n then throw (.malformed "coinbaser script length")
  return ⟨sats, ← Cursor.take n⟩

/-- The output loop, with how many more entries the list may hold. -/
def readList : Nat → Read (List Output)
  | 0 => do
    if (← get).remaining = 0 then return []
    let _ ← readOutput
    throw (.malformed "coinbaser output count")
  | room + 1 => do
    if (← get).remaining = 0 then return []
    let o ← readOutput
    return o :: (← readList room)

def decodeV2 (bytes : Bytes) : Except Error (UInt8 × List Output) :=
  (do
    let id ← Cursor.u8
    return (UInt8.ofNat id, ← readList maxOutputs) : Read _).run (.new bytes) |>.map Prod.fst

/-- An entry the list format can carry. -/
structure Output.Fits (o : Output) : Prop where
  sats : o.sats < 2 ^ 64
  min : minScript ≤ o.script.length
  max : o.script.length ≤ maxScript

theorem Read.u8_cons (b : UInt8) (rest : Bytes) (pos : Nat) :
    Cursor.u8 ⟨b :: rest, pos⟩ = .ok (b.toNat, ⟨rest, pos + 1⟩) := by
  have ht : Cursor.take 1 ⟨b :: rest, pos⟩ = .ok ([b], ⟨rest, pos + 1⟩) := Cursor.take_append [b] rest pos
  simp only [Cursor.u8, Cursor.uint]
  rw [Read.bind_ok ht]
  rfl

theorem readOutput_header {o : Output} (hs : o.sats < 2 ^ 64) (hl : o.script.length < 256)
    (rest : Bytes) (pos : Nat) : readOutput ⟨encodeOutput o ++ rest, pos⟩ =
      (if o.script.length < minScript ∨ maxScript < o.script.length then
        .error (.malformed "coinbaser script length")
      else .ok (o, ⟨rest, pos + 8 + 1 + o.script.length⟩)) := by
  have hu64 : Cursor.u64 _ = .ok (o.sats, _) := Cursor.uint_write 8 (by simpa using hs)
    (LittleEndian.write 1 o.script.length ++ (o.script ++ rest)) pos
  have hu8 : Cursor.u8 _ = .ok (o.script.length, _) := Cursor.uint_write 1
    (by simpa using hl) (o.script ++ rest) (pos + 8)
  simp only [readOutput, encodeOutput, List.append_assoc]
  rw [Read.bind_ok hu64, Read.bind_ok hu8]
  split
  · rfl
  · have ht := Cursor.take_append o.script rest (pos + 8 + 1)
    change (Cursor.take o.script.length >>= fun script => pure ⟨o.sats, script⟩ : Read Output) _ = _
    rw [Read.bind_ok ht]
    rfl

theorem readOutput_encode {o : Output} (h : o.Fits) (rest : Bytes) (pos : Nat) :
    readOutput ⟨encodeOutput o ++ rest, pos⟩ = .ok (o, ⟨rest, pos + 8 + 1 + o.script.length⟩) := by
  have hmin := h.min
  have hmax := h.max
  unfold minScript at hmin
  unfold maxScript at hmax
  rw [readOutput_header h.sats (by omega), if_neg (by unfold minScript maxScript; omega)]

theorem encodeOutput_ne_nil (o : Output) : encodeOutput o ≠ [] := by
  simp [encodeOutput, LittleEndian.write]

/-- The loop reads a list of fitting entries back, as long as there is room for them. -/
theorem readList_encode (outputs : List Output) (room : Nat) (hlen : outputs.length ≤ room)
    (h : ∀ o ∈ outputs, o.Fits) (pos : Nat) :
    ∃ c, readList room ⟨outputs.flatMap encodeOutput, pos⟩ = .ok (outputs, c) := by
  induction outputs generalizing room pos with
  | nil => cases room <;> exact ⟨_, rfl⟩
  | cons o outputs ih =>
    cases room with
    | zero => simp at hlen
    | succ room =>
      obtain ⟨c, hc⟩ := ih room (by simpa using hlen) (fun x hx => h x (by simp [hx]))
        (pos + 8 + 1 + o.script.length)
      have hne : (⟨(o :: outputs).flatMap encodeOutput, pos⟩ : Cursor).remaining ≠ 0 := by
        simp [Cursor.remaining, encodeOutput_ne_nil]
      refine ⟨c, ?_⟩
      unfold readList
      rw [Read.bind_ok (show (get : Read Cursor) _ = .ok (_, _) from rfl), if_neg hne]
      change (readOutput >>= fun o => do return o :: (← readList room) : Read (List Output)) _ = _
      rw [List.flatMap_cons, Read.bind_ok (readOutput_encode (h o (by simp)) _ pos), Read.bind_ok hc]
      rfl

/-- What fits the format is decoded as it was encoded, up to the entries the encoder keeps. -/
theorem decodeV2_encodeV2 (id : UInt8) {outputs : List Output} (h : ∀ o ∈ outputs, o.Fits) :
    decodeV2 (encodeV2 id outputs) = .ok (id, outputs.take maxOutputs) := by
  obtain ⟨c, hc⟩ := readList_encode (outputs.take maxOutputs) maxOutputs (List.length_take_le ..)
    (fun o ho => h o (List.mem_of_mem_take ho)) 1
  have hid : Cursor.u8 ⟨encodeV2 id outputs, 0⟩
      = .ok (id.toNat, ⟨(outputs.take maxOutputs).flatMap encodeOutput, 1⟩) := Read.u8_cons ..
  unfold decodeV2
  rw [StateT.run, Cursor.new, Read.bind_ok hid, Read.bind_ok hc]
  exact congrArg (fun b => Except.ok (b, outputs.take maxOutputs)) UInt8.ofNat_toNat

/-- A first entry whose script is out of range spoils the whole list. -/
theorem decodeV2_bad_first (id : UInt8) {o : Output} {outputs : List Output} (hs : o.sats < 2 ^ 64)
    (hl : o.script.length < 256)
    (hbad : o.script.length < minScript ∨ maxScript < o.script.length) :
    decodeV2 (encodeV2 id (o :: outputs)) = .error (.malformed "coinbaser script length") := by
  have hid : Cursor.u8 ⟨encodeV2 id (o :: outputs), 0⟩
      = .ok (id.toNat, ⟨encodeOutput o ++ (outputs.take 511).flatMap encodeOutput, 1⟩) := Read.u8_cons ..
  have hne : (⟨encodeOutput o ++ (outputs.take 511).flatMap encodeOutput, 1⟩ : Cursor).remaining ≠ 0 := by
    simp [Cursor.remaining, encodeOutput_ne_nil]
  have hread : readList maxOutputs ⟨encodeOutput o ++ (outputs.take 511).flatMap encodeOutput, 1⟩
      = .error (.malformed "coinbaser script length") := by
    change readList (511 + 1) _ = _
    unfold readList
    rw [Read.bind_ok (show (get : Read Cursor) _ = .ok (_, _) from rfl), if_neg hne]
    change (readOutput >>= fun o => do return o :: (← readList 511) : Read (List Output)) _ = _
    simp only [bind, StateT.bind, readOutput_header hs hl, if_pos hbad, Except.bind]
  unfold decodeV2
  rw [StateT.run, Cursor.new, Read.bind_ok hid]
  simp only [bind, StateT.bind, hread, Except.bind, Except.map]

end WaviclesPrime.Wire
