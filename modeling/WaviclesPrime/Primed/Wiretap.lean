import Mathlib.Data.List.Forall2
import WaviclesPrime.Primed.Transport

/-! A connection over a network that is not to be trusted: it delivers what it likes, as often as it likes. -/
namespace WaviclesPrime.Primed
open Wire Sealed

/-- The two ends of a connection, and what has come of it: what each end encrypted (`sent`, `replies`) and what
the other decrypted of that (`opened`, `heard`), the mining messages the pool took up (`acted`), and every
payload that went over the wire, with the nonce it was made under. -/
structure Wiretap where
  gateway : Channel
  pool : Connection
  sent : List Bytes
  replies : List Bytes
  opened : List Bytes
  heard : List Bytes
  acted : List (Except Error ClientMsg)
  wire : List (Nonce × Bytes)

/-- What may happen next; a frame the pool is given, or a payload the gateway is given, may be anything. -/
inductive Happening where
  | send (plain : Bytes)
  | reply (plain : Bytes) (signed : Bool)
  | keepalive
  | deliver (f : Frame)
  | hear (payload : Bytes)

namespace Wiretap
variable (N : NaCl)

/-- Two ends that have just shaken hands. -/
def start (pool session identity client : Wire.Identity) (eph : ByteArr 32) (motd ua : String) (seed : UInt32)
    (gen : Generation) (token : Option (ByteArr resumeTokenLen)) : Wiretap where
  gateway := (Gateway.start N client seed (KeyStream.fromSeed seed).2 (session.boxPk N)).channel
  pool := (Connection.start N pool session eph motd (helloOf N identity client ua seed gen token)).1
  sent := []
  replies := []
  opened := []
  heard := []
  acted := []
  wire := []

/-- One step; none where an end refuses what it is given, and the connection ends. -/
def step (t : Wiretap) : Happening → Option Wiretap
  | .send plain =>
    let out := t.gateway.encrypt N plain
    some { t with
      gateway := out.2, sent := t.sent ++ [plain], wire := t.wire ++ [(t.gateway.sendNonce, out.1)] }
  | .reply plain signed =>
    let body := t.pool.body N plain signed
    some { t with
      pool := (t.pool.sendMining N plain signed).2, replies := t.replies ++ [body],
      wire := t.wire ++ [(t.pool.channel.sendNonce, (t.pool.channel.encrypt N body).1)] }
  | .keepalive => some { t with pool := t.pool.keepalive.2 }
  | .deliver f =>
    match t.pool.handleFrame N f with
    | .error _ => none
    | .ok (m, c) =>
      let plain := if f.1.channel then (t.pool.channel.decryptInPlace N f.2).toOption.map Prod.fst else none
      some { t with pool := c, opened := t.opened ++ plain.toList, acted := t.acted ++ m.toList }
  | .hear payload =>
    match t.gateway.decryptInPlace N payload with
    | .error _ => none
    | .ok (plain, gateway) => some { t with gateway, heard := t.heard ++ [plain] }

/-- Whatever opens under the nonce an end has come to is a payload one of the ends made under it. -/
def Unforged (t : Wiretap) : Happening → Prop
  | .deliver f => f.1.channel → ∀ r, t.pool.channel.decryptInPlace N f.2 = .ok r →
      (t.pool.channel.recvNonce, f.2) ∈ t.wire
  | .hear payload => ∀ r, t.gateway.decryptInPlace N payload = .ok r → (t.gateway.recvNonce, payload) ∈ t.wire
  | _ => True

/-- Runs in which nothing is forged. -/
inductive Runs : Wiretap → List Happening → Wiretap → Prop
  | done (t : Wiretap) : Runs t [] t
  | more {t t' t'' : Wiretap} {h : Happening} {hs : List Happening} (hu : t.Unforged N h)
      (hstep : t.step N h = some t') (tail : Runs t' hs t'') : Runs t (h :: hs) t''

end Wiretap

/-- Which end a payload is from. -/
inductive Side where
  | gateway
  | pool
  deriving DecidableEq

/-- What the pool makes of a body it decrypted: all of it, or what a signature after it vouches for. -/
def Says (N : NaCl) (signPk : ByteArr 32) (m : Except Error ClientMsg) (plain : Bytes) : Prop :=
  m = parseClient plain ∨ ∃ msg, verifyTrailing N signPk plain = .ok msg ∧ m = parseClient msg

namespace Connection
variable {N : NaCl}

/-- A frame that goes through: what it decrypts, what becomes of the channel, and what it says. -/
theorem handleFrame_ok {c c' : Connection} {f : Frame} {m : Option (Except Error ClientMsg)}
    (h : c.handleFrame N f = .ok (m, c')) :
    (f.1.channel = false ∧ m = none ∧ c' = c) ∨
    (f.1.channel = true ∧ ∃ plain, c.channel.decryptInPlace N f.2 = .ok (plain, c'.channel) ∧
      c'.hello = c.hello ∧ ∀ msg, m = some msg → Says N c.hello.sessionSignPk msg plain) := by
  obtain ⟨hdr, payload⟩ := f
  unfold handleFrame at h
  dsimp only at h
  split at h
  next => cases h
  next =>
    cases hch : hdr.channel with
    | false =>
      rw [hch] at h
      simp only [Bool.false_eq_true, if_false, not_false_eq_true, if_true] at h
      refine .inl ⟨rfl, ?_⟩
      split at h
      next => cases h
      next =>
        split at h
        next => cases h
        next =>
          split at h
          next => cases h
          next =>
            obtain ⟨rfl, rfl⟩ := Prod.mk.inj (Except.ok.inj h)
            exact ⟨rfl, rfl⟩
    | true =>
      rw [hch] at h
      simp only [if_true, not_true_eq_false, if_false] at h
      refine .inr ⟨rfl, ?_⟩
      cases hopen : c.channel.decryptInPlace N payload with
      | error e =>
        rw [hopen] at h
        cases h
      | ok r =>
        obtain ⟨plain, channel⟩ := r
        rw [hopen] at h
        dsimp only at h
        refine ⟨plain, ?_⟩
        split at h
        next => cases h
        next body hbody =>
          have hsaid : Says N c.hello.sessionSignPk (parseClient body) plain := by
            split at hbody
            next => exact .inr ⟨body, hbody, rfl⟩
            next =>
              obtain rfl := Except.ok.inj hbody
              exact .inl rfl
          split at h
          next =>
            obtain ⟨rfl, rfl⟩ := Prod.mk.inj (Except.ok.inj h)
            refine ⟨rfl, rfl, ?_⟩
            rintro msg hmsg
            obtain rfl := Option.some.inj hmsg
            exact hsaid
          next =>
            split at h
            next => cases h
            next =>
              obtain ⟨rfl, rfl⟩ := Prod.mk.inj (Except.ok.inj h)
              refine ⟨rfl, rfl, ?_⟩
              rintro msg hmsg
              cases hmsg

end Connection

section
variable {N : NaCl} (key : ByteArr 32) (first : Side → Nonce)

def Wiretap.log (t : Wiretap) : Side → List Bytes
  | .gateway => t.sent
  | .pool => t.replies

/-- What holds along a run: each end's nonces count its messages, and what was opened is a prefix of what was sent. -/
structure Wiretap.InOrder (N : NaCl) (signPk : ByteArr 32) (steps : Nat) (t : Wiretap) : Prop where
  gatewayKey : t.gateway.bx = key
  poolKey : t.pool.channel.bx = key
  gatewaySend : t.gateway.sendNonce = bumpNonce^[t.sent.length] (first .gateway)
  poolSend : t.pool.channel.sendNonce = bumpNonce^[t.replies.length] (first .pool)
  poolRecv : t.pool.channel.recvNonce = bumpNonce^[t.opened.length] (first .gateway)
  gatewayRecv : t.gateway.recvNonce = bumpNonce^[t.heard.length] (first .pool)
  opened : t.opened <+: t.sent
  heard : t.heard <+: t.replies
  lengths : ∀ w, (t.log w).length ≤ steps
  wire : ∀ n payload, (n, payload) ∈ t.wire → ∃ w plain, Under bumpNonce (first w) (t.log w) n plain ∧
    payload = (N.encrypt key n plain).1.toList ++ (N.encrypt key n plain).2
  hello : t.pool.hello.sessionSignPk = signPk
  acted : ∃ taken, List.Forall₂ (Says N signPk) t.acted taken ∧ taken.Sublist t.opened

variable {key first} {signPk : ByteArr 32} {steps : Nat} {t t' : Wiretap}

/-- What opens was made under the receiver's nonce, so it is the next message of the other end's. -/
theorem Wiretap.InOrder.next (hN : N.Documented) (hapart : Apart bumpNonce first (2 ^ 64)) (hlt : steps < 2 ^ 64)
    (h : t.InOrder key first N signPk steps) {w : Side} {opened : List Bytes} (hpre : opened <+: t.log w)
    {ch ch' : Channel} (hkey : ch.bx = key) (hrecv : ch.recvNonce = bumpNonce^[opened.length] (first w))
    {payload plain : Bytes} (hopen : ch.decryptInPlace N payload = .ok (plain, ch'))
    (hwire : (ch.recvNonce, payload) ∈ t.wire) : opened ++ [plain] <+: t.log w := by
  obtain ⟨w', p, hunder, rfl⟩ := h.wire _ _ hwire
  have hsame : ch.decryptInPlace N ((N.encrypt key ch.recvNonce p).1.toList ++ (N.encrypt key ch.recvNonce p).2) =
      .ok (p, { ch with recvNonce := bumpNonce ch.recvNonce }) :=
    Channel.decryptInPlace_ok.mpr ⟨_, _, rfl, hkey ▸ hN.decrypt_encrypt key ch.recvNonce p, rfl⟩
  obtain ⟨rfl, -⟩ := Prod.mk.inj (Except.ok.inj (hopen.symm.trans hsame))
  rw [hrecv] at hunder
  exact opened_next hapart (fun w => Nat.lt_of_le_of_lt (h.lengths w) hlt) hpre hunder

namespace Wiretap.InOrder

theorem length_succ (h : t.InOrder key first N signPk steps) (w : Side) : (t.log w).length ≤ steps + 1 :=
  (h.lengths w).trans (Nat.le_succ _)

/-- The gateway encrypted a message. -/
theorem sent (h : t.InOrder key first N signPk steps) {gateway : Channel} {plain payload : Bytes}
    (hbx : gateway.bx = t.gateway.bx) (hsend : gateway.sendNonce = bumpNonce t.gateway.sendNonce)
    (hrecv : gateway.recvNonce = t.gateway.recvNonce)
    (hout : payload = (N.encrypt t.gateway.bx t.gateway.sendNonce plain).1.toList ++
      (N.encrypt t.gateway.bx t.gateway.sendNonce plain).2) :
    InOrder key first N signPk (steps + 1) { t with
      gateway := gateway, sent := t.sent ++ [plain], wire := t.wire ++ [(t.gateway.sendNonce, payload)] } := by
  refine ⟨hbx.trans h.gatewayKey, h.poolKey, ?_, h.poolSend, h.poolRecv, hrecv.trans h.gatewayRecv,
    h.opened.trans (List.prefix_append _ _), h.heard, ?_, ?_, h.hello, h.acted⟩
  · refine hsend.trans ?_
    rw [h.gatewaySend, List.length_append, List.length_singleton, Function.iterate_succ_apply']
  · rintro (_ | _)
    · change (t.sent ++ [plain]).length ≤ _
      rw [List.length_append, List.length_singleton]
      exact Nat.succ_le_succ (h.lengths .gateway)
    · exact h.length_succ .pool
  · intro n payload' hmem
    rcases List.mem_append.mp hmem with hmem | hmem
    · obtain ⟨w, p, hunder, hp⟩ := h.wire n payload' hmem
      refine ⟨w, p, ?_, hp⟩
      cases w with
      | gateway => exact hunder.append [plain]
      | pool => exact hunder
    · obtain ⟨rfl, rfl⟩ := Prod.mk.inj (List.mem_singleton.mp hmem)
      refine ⟨.gateway, plain, ?_, ?_⟩
      · rw [h.gatewaySend]
        exact .last _ t.sent plain
      · rw [hout, h.gatewayKey]

/-- The pool encrypted one. -/
theorem replied (h : t.InOrder key first N signPk steps) {pool : Connection} {body payload : Bytes}
    (hbx : pool.channel.bx = t.pool.channel.bx) (hsend : pool.channel.sendNonce = bumpNonce t.pool.channel.sendNonce)
    (hrecv : pool.channel.recvNonce = t.pool.channel.recvNonce) (hhello : pool.hello = t.pool.hello)
    (hout : payload = (N.encrypt t.pool.channel.bx t.pool.channel.sendNonce body).1.toList ++
      (N.encrypt t.pool.channel.bx t.pool.channel.sendNonce body).2) :
    InOrder key first N signPk (steps + 1) { t with
      pool := pool, replies := t.replies ++ [body], wire := t.wire ++ [(t.pool.channel.sendNonce, payload)] } := by
  refine ⟨h.gatewayKey, hbx.trans h.poolKey, h.gatewaySend, ?_, hrecv.trans h.poolRecv, h.gatewayRecv, h.opened,
    h.heard.trans (List.prefix_append _ _), ?_, ?_, (congrArg _ hhello).trans h.hello, h.acted⟩
  · refine hsend.trans ?_
    rw [h.poolSend, List.length_append, List.length_singleton, Function.iterate_succ_apply']
  · rintro (_ | _)
    · exact h.length_succ .gateway
    · change (t.replies ++ [body]).length ≤ _
      rw [List.length_append, List.length_singleton]
      exact Nat.succ_le_succ (h.lengths .pool)
  · intro n payload' hmem
    rcases List.mem_append.mp hmem with hmem | hmem
    · obtain ⟨w, p, hunder, hp⟩ := h.wire n payload' hmem
      refine ⟨w, p, ?_, hp⟩
      cases w with
      | gateway => exact hunder
      | pool => exact hunder.append [body]
    · obtain ⟨rfl, rfl⟩ := Prod.mk.inj (List.mem_singleton.mp hmem)
      refine ⟨.pool, body, ?_, ?_⟩
      · rw [h.poolSend]
        exact .last _ t.replies body
      · rw [hout, h.poolKey]

/-- The channel is as it was. -/
theorem idle (h : t.InOrder key first N signPk steps) {pool : Connection} (hchannel : pool.channel = t.pool.channel)
    (hhello : pool.hello = t.pool.hello) : InOrder key first N signPk (steps + 1) { t with pool := pool } :=
  ⟨h.gatewayKey, (congrArg Channel.bx hchannel).trans h.poolKey, h.gatewaySend,
    (congrArg Channel.sendNonce hchannel).trans h.poolSend, (congrArg Channel.recvNonce hchannel).trans h.poolRecv,
    h.gatewayRecv, h.opened, h.heard, h.length_succ, h.wire, (congrArg _ hhello).trans h.hello, h.acted⟩

/-- The pool opened the next message of the gateway's, and took it up or not. -/
theorem taken (h : t.InOrder key first N signPk steps) {pool : Connection} {plain : Bytes}
    {m : Option (Except Error ClientMsg)} (hbx : pool.channel.bx = t.pool.channel.bx)
    (hsend : pool.channel.sendNonce = t.pool.channel.sendNonce)
    (hrecv : pool.channel.recvNonce = bumpNonce t.pool.channel.recvNonce) (hhello : pool.hello = t.pool.hello)
    (hnext : t.opened ++ [plain] <+: t.sent)
    (hsaid : ∀ msg, m = some msg → Says N t.pool.hello.sessionSignPk msg plain) :
    InOrder key first N signPk (steps + 1) { t with
      pool := pool, opened := t.opened ++ [plain], acted := t.acted ++ m.toList } := by
  refine ⟨h.gatewayKey, hbx.trans h.poolKey, h.gatewaySend, hsend.trans h.poolSend, ?_, h.gatewayRecv, hnext,
    h.heard, h.length_succ, h.wire, (congrArg _ hhello).trans h.hello, ?_⟩
  · refine hrecv.trans ?_
    rw [h.poolRecv, List.length_append, List.length_singleton, Function.iterate_succ_apply']
  · obtain ⟨taken, hall, hsub⟩ := h.acted
    cases m with
    | none =>
      refine ⟨taken, ?_, hsub.trans (List.sublist_append_left ..)⟩
      change List.Forall₂ _ (t.acted ++ []) taken
      rwa [List.append_nil]
    | some msg =>
      refine ⟨taken ++ [plain], ?_, hsub.append (List.Sublist.refl _)⟩
      have hone := hsaid msg rfl
      rw [h.hello] at hone
      exact List.rel_append hall (.cons hone .nil)

/-- The gateway opened the next message of the pool's. -/
theorem listened (h : t.InOrder key first N signPk steps) {gateway : Channel} {plain : Bytes}
    (hbx : gateway.bx = t.gateway.bx) (hsend : gateway.sendNonce = t.gateway.sendNonce)
    (hrecv : gateway.recvNonce = bumpNonce t.gateway.recvNonce) (hnext : t.heard ++ [plain] <+: t.replies) :
    InOrder key first N signPk (steps + 1) { t with gateway := gateway, heard := t.heard ++ [plain] } := by
  refine ⟨hbx.trans h.gatewayKey, h.poolKey, hsend.trans h.gatewaySend, h.poolSend, h.poolRecv, ?_, h.opened,
    hnext, h.length_succ, h.wire, h.hello, h.acted⟩
  refine hrecv.trans ?_
  rw [h.gatewayRecv, List.length_append, List.length_singleton, Function.iterate_succ_apply']

/-- One step. -/
theorem step (hN : N.Documented) (hapart : Apart bumpNonce first (2 ^ 64)) (hlt : steps < 2 ^ 64)
    (h : t.InOrder key first N signPk steps) {a : Happening} (hu : t.Unforged N a) (hstep : t.step N a = some t') :
    t'.InOrder key first N signPk (steps + 1) := by
  cases a with
  | send plain =>
    obtain ⟨hbx, hsend, hrecv⟩ := @Channel.encrypt_fields N t.gateway plain
    obtain rfl := Option.some.inj hstep
    exact h.sent hbx hsend hrecv rfl
  | reply plain signed =>
    obtain ⟨hbx, hsend, hrecv⟩ := @Channel.encrypt_fields N t.pool.channel (t.pool.body N plain signed)
    rw [← Connection.sendMining_channel] at hbx hsend hrecv
    obtain rfl := Option.some.inj hstep
    exact h.replied hbx hsend hrecv (Connection.sendMining_hello ..) rfl
  | keepalive =>
    obtain rfl := Option.some.inj hstep
    exact h.idle t.pool.keepalive_channel t.pool.keepalive_hello
  | deliver f =>
    simp only [Wiretap.step] at hstep
    split at hstep
    next => cases hstep
    next m c hframe =>
      rcases Connection.handleFrame_ok hframe with ⟨hch, rfl, rfl⟩ | ⟨hch, plain, hopen, hhello, hsaid⟩
      · obtain rfl := Option.some.inj hstep
        simp only [hch, Bool.false_eq_true, if_false, Option.toList_none, List.append_nil]
        exact h.idle rfl rfl
      · simp only [hch, if_true, hopen, Except.toOption, Option.map_some, Option.toList_some] at hstep
        obtain rfl := Option.some.inj hstep
        obtain ⟨hbx, hsend, hrecv⟩ := Channel.decryptInPlace_fields hopen
        exact h.taken hbx hsend hrecv hhello
          (next hN hapart hlt h (w := .gateway) h.opened h.poolKey h.poolRecv hopen (hu hch _ hopen)) hsaid
  | hear payload =>
    simp only [Wiretap.step] at hstep
    split at hstep
    next => cases hstep
    next plain gateway hopen =>
      obtain rfl := Option.some.inj hstep
      obtain ⟨hbx, hsend, hrecv⟩ := Channel.decryptInPlace_fields hopen
      exact h.listened hbx hsend hrecv
        (next hN hapart hlt h (w := .pool) h.heard h.gatewayKey h.gatewayRecv hopen (hu _ hopen))

/-- A whole run. -/
theorem runs (hN : N.Documented) (hapart : Apart bumpNonce first (2 ^ 64)) {hs : List Happening}
    (hrun : t.Runs N hs t') (hlt : steps + hs.length ≤ 2 ^ 64) (h : t.InOrder key first N signPk steps) :
    t'.InOrder key first N signPk (steps + hs.length) := by
  induction hrun generalizing steps with
  | done t => exact h
  | more hu hstep _ ih =>
    rw [List.length_cons, Nat.add_comm _ 1, ← Nat.add_assoc] at hlt ⊢
    exact ih hlt (step hN hapart (by omega) h hu hstep)

end Wiretap.InOrder

/-- Where each end starts to count. -/
def firstNonce (seed : UInt32) (pk : ByteArr 32) : Side → Nonce
  | .gateway => (sessionNonces seed pk).2
  | .pool => (sessionNonces seed pk).1

theorem firstNonce_apart (seed : UInt32) (pk : ByteArr 32) : Apart bumpNonce (firstNonce seed pk) (2 ^ 64) := by
  have hfar := sessionNonces_far seed pk
  have hmodulus : 2 ^ 64 < 256 ^ 24 := by decide
  have hsame : ∀ w i j, i < 2 ^ 64 → j < 2 ^ 64 →
      bumpNonce^[i] (firstNonce seed pk w) = bumpNonce^[j] (firstNonce seed pk w) → i = j := fun w i j hi hj =>
    Counter.iterate_inj Nonce.value_lt value_bumpNonce (hi.trans hmodulus) (hj.trans hmodulus)
  have hother : ∀ i j, i < 2 ^ 64 → j < 2 ^ 64 →
      bumpNonce^[i] (sessionNonces seed pk).1 ≠ bumpNonce^[j] (sessionNonces seed pk).2 := by
    intro i j hi hj
    generalize sessionNonces seed pk = nonces at hfar ⊢
    obtain ⟨s, r⟩ := nonces
    obtain ⟨hsr, hrs⟩ | ⟨hrs, hsr⟩ := hfar
    · exact Counter.iterate_ne Nonce.value_lt value_bumpNonce hsr hrs hi hj
    · exact (Counter.iterate_ne Nonce.value_lt value_bumpNonce hrs hsr hj hi).symm
  intro w w' i j hi hj heq
  cases w with
  | gateway =>
    cases w' with
    | gateway => exact ⟨rfl, hsame _ i j hi hj heq⟩
    | pool => exact absurd heq.symm (hother j i hj hi)
  | pool =>
    cases w' with
    | gateway => exact absurd heq (hother i j hi hj)
    | pool => exact ⟨rfl, hsame _ i j hi hj heq⟩

theorem Wiretap.start_inOrder (hN : N.Documented) (pool session identity client : Wire.Identity) (eph : ByteArr 32)
    (motd ua : String) (seed : UInt32) (gen : Generation) (token : Option (ByteArr resumeTokenLen)) :
    (Wiretap.start N pool session identity client eph motd ua seed gen token).InOrder
      (N.precompute (session.boxPk N) client.bx) (firstNonce seed (client.signPk N)) N (client.signPk N) 0 where
  gatewayKey := rfl
  poolKey := hN.agree client.bx session.bx
  gatewaySend := rfl
  poolSend := rfl
  poolRecv := rfl
  gatewayRecv := rfl
  opened := List.prefix_refl _
  heard := List.prefix_refl _
  lengths w := by cases w <;> exact Nat.le_refl 0
  wire n payload hmem := absurd hmem List.not_mem_nil
  hello := rfl
  acted := ⟨[], .nil, .slnil⟩

/-- Whatever the network does short of forging, each end has opened the first messages of the other, in order and
each once; and the pool has acted on messages the gateway sent, in that order, none of them twice. -/
theorem opened_in_order (hN : N.Documented) {pool session identity client : Wire.Identity} {eph : ByteArr 32}
    {motd ua : String} {seed : UInt32} {gen : Generation} {token : Option (ByteArr resumeTokenLen)}
    {hs : List Happening} {t : Wiretap}
    (hrun : (Wiretap.start N pool session identity client eph motd ua seed gen token).Runs N hs t)
    (hlt : hs.length < 2 ^ 64) :
    t.opened <+: t.sent ∧ t.heard <+: t.replies ∧
      ∃ taken, List.Forall₂ (Says N (client.signPk N)) t.acted taken ∧ taken.Sublist t.sent := by
  have hlast := (Wiretap.start_inOrder hN pool session identity client eph motd ua seed gen token).runs hN
    (firstNonce_apart seed (client.signPk N)) hrun (by omega)
  obtain ⟨taken, hall, hsub⟩ := hlast.acted
  exact ⟨hlast.opened, hlast.heard, taken, hall, hsub.trans hlast.opened.sublist⟩

/-- A connection over primitives that hide nothing. -/
def tap : Wiretap := .start .clear (keysOf 1) (keysOf 3) (keysOf 7) (keysOf 5) (zeros 32) "" "" 7 .ocean none

/-- The frames of its first two messages. -/
def tapped : Frame := (miningHeader 17 false, (tap.gateway.encrypt .clear [0x77]).1)

def nextTapped : Frame := (miningHeader 18 false, ((tap.gateway.encrypt .clear [0x77]).2.encrypt .clear [0x78, 1]).1)

/-- What the pool answers first, as it goes over the wire. -/
def tappedReply : Bytes := (tap.pool.channel.encrypt .clear (tap.pool.body .clear [0xf9] true)).1

/-- Two messages, each with its frame, and an answer; no frame opens a second time. -/
theorem opened_in_order_tapped : ∃ t, tap.Runs .clear [.send [0x77], .send [0x78, 1], .deliver tapped,
      .reply [0xf9] true, .deliver nextTapped, .hear tappedReply] t ∧
    t.opened = [[0x77], [0x78, 1]] ∧ t.heard = [tap.pool.body .clear [0xf9] true] ∧
    t.step .clear (.deliver tapped) = none ∧ t.step .clear (.deliver nextTapped) = none ∧
    t.opened <+: t.sent ∧ t.heard <+: t.replies ∧
      ∃ taken, List.Forall₂ (Says .clear ((keysOf 5).signPk .clear)) t.acted taken ∧ taken.Sublist t.sent := by
  have hrun : tap.Runs .clear [.send [0x77], .send [0x78, 1], .deliver tapped, .reply [0xf9] true,
      .deliver nextTapped, .hear tappedReply] _ :=
    .more trivial rfl (.more trivial rfl (.more (fun _ _ _ => List.mem_cons_self) rfl
      (.more trivial rfl (.more (fun _ _ _ => List.mem_cons_of_mem _ List.mem_cons_self) rfl
        (.more (fun _ _ => List.mem_cons_of_mem _ (List.mem_cons_of_mem _ List.mem_cons_self)) rfl (.done _))))))
  exact ⟨_, hrun, rfl, rfl, rfl, rfl, opened_in_order NaCl.clear_documented hrun (by decide)⟩

end
end WaviclesPrime.Primed
