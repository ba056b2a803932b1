import WaviclesPrime.Primed.Serve
import WaviclesPrime.Wire.Client
import WaviclesPrime.Wire.Handshake

/-! A gateway connection from its first frame on, and the gateway at its other end. -/
namespace WaviclesPrime.Primed
open Wire Framing

def cmdHello : UInt8 := 1
def cmdHelloReply : UInt8 := 2
def cmdMining : UInt8 := 5
def cmdInfo : UInt8 := 7
def maxHello : Nat := 4096

inductive TransportError where
  | session (e : SessionError)
  | crypto (e : CryptoError)
  deriving DecidableEq, Repr

/-- Read one frame, before the receive loop; the rest of the stream stays where it is. -/
def readFrame (stream : Bytes) (keys : KeyStream) (max : Nat) : Except TransportError (Frame × KeyStream × Bytes) :=
  if stream.length < Header.size then .error (.session .unexpectedEof)
  else
    match Header.decode (stream.take Header.size) keys with
    | (.error e, _) => .error (.session (.wire e))
    | (.ok h, keys) =>
      let rest := stream.drop Header.size
      if max < h.len.toNat then .error (.session (.bad "frame too large"))
      else if rest.length < h.len.toNat then .error (.session .unexpectedEof)
      else .ok ((h, rest.take h.len.toNat), keys, rest.drop h.len.toNat)

def writeFrame (h : Header) (payload : Bytes) (keys : KeyStream) : Bytes × KeyStream :=
  let hb := h.encode keys
  (hb.1 ++ payload, hb.2)

structure Connection where
  receiver : Receiver
  sendKeys : KeyStream
  channel : Channel
  sessionKey : Wire.Identity
  hello : ClientHello

def helloHeader (cmd : UInt8) (len : Nat) : Header := { Header.new cmd len with sealed := true, signed := true }

def miningHeader (len : Nat) (signed : Bool) : Header := { Header.new cmdMining len with channel := true, signed }

namespace Connection
variable (N : NaCl)

/-- A hello was accepted: the keys of the session, and the reply. -/
def start (pool session : Wire.Identity) (eph : ByteArr 32) (motd : String) (hello : ClientHello) :
    Connection × Bytes :=
  let keys := KeyStream.fromSeed hello.seed
  let nonces := sessionNonces hello.seed hello.sessionSignPk
  let channel : Channel := ⟨N.precompute hello.sessionBoxPk session.bx, nonces.1, nonces.2⟩
  let reply := buildServerHello N eph pool session hello motd
  let out := writeFrame (helloHeader cmdHelloReply reply.length) reply keys.2
  (⟨.new keys.1, out.2, channel, session, hello⟩, out.1)

/-- The handshake: a hello comes in, and a reply goes out. -/
def accept (pool session : Wire.Identity) (eph : ByteArr 32) (motd : String) (stream : Bytes) :
    Except TransportError ((Connection × Bytes) × Bytes) :=
  match readFrame stream ⟨clientInitialKey⟩ maxHello with
  | .error e => .error e
  | .ok ((header, payload), _, rest) =>
    if header.cmd ≠ cmdHello ∨ ¬ header.sealed ∨ ¬ header.signed ∨ header.channel then
      .error (.session (.bad "first frame is not a sealed, signed hello"))
    else
      match parseClientHello N pool payload with
      | .error e => .error (.crypto e)
      | .ok hello => .ok (start N pool session eph motd hello, rest)

/-- A message as it is encrypted: with a signature after it, or as such. -/
def body (c : Connection) (plain : Bytes) (signed : Bool) : Bytes :=
  if signed then plain ++ (N.sign c.sessionKey.sign plain).toList else plain

def sendMining (c : Connection) (plain : Bytes) (signed : Bool) : Bytes × Connection :=
  let payload := c.channel.encrypt N (c.body N plain signed)
  let out := writeFrame (miningHeader payload.1.length signed) payload.1 c.sendKeys
  (out.1, { c with channel := payload.2, sendKeys := out.2 })

/-- An empty frame, so that the gateway hears something. -/
def keepalive (c : Connection) : Bytes × Connection :=
  let out := writeFrame (.new cmdInfo 0) [] c.sendKeys
  (out.1, { c with sendKeys := out.2 })

/-- What a frame says, if it is a mining message. -/
def handleFrame (c : Connection) (f : Frame) : Except TransportError (Option (Except Error ClientMsg) × Connection) :=
  let (h, payload) := f
  if h.sealed then .error (.session (.bad "sealed frame after handshake"))
  else
    let opened := if h.channel then c.channel.decryptInPlace N payload else .ok (payload, c.channel)
    match opened with
    | .error e => .error (.crypto e)
    | .ok (body, channel) =>
      match if h.signed then verifyTrailing N c.hello.sessionSignPk body else .ok body with
      | .error e => .error (.crypto e)
      | .ok body =>
        let c := { c with channel }
        if h.cmd = cmdMining then
          if ¬ h.channel then .error (.session (.bad "plaintext mining frame"))
          else .ok (some (parseClient body), c)
        else if h.cmd = cmdHello then .error (.session (.bad "second hello"))
        else .ok (none, c)

def handleFrames (c : Connection) : List Frame → List (Except Error ClientMsg) × Except TransportError Connection
  | [] => ([], .ok c)
  | f :: fs =>
    match c.handleFrame N f with
    | .error e => ([], .error e)
    | .ok (m, c) =>
      let (ms, out) := handleFrames c fs
      (m.toList ++ ms, out)

/-- The receive loop over what the reads of the connection bring. -/
def serve (c : Connection) (chunks : List Bytes) : List (Except Error ClientMsg) × Except TransportError Connection :=
  let (frames, r) := c.receiver.serve chunks
  match c.handleFrames N frames, r with
  | (ms, .error e), _ => (ms, .error e)
  | (ms, .ok _), .error e => (ms, .error (.session e))
  | (ms, .ok c), .ok r => (ms, .ok { c with receiver := r })

end Connection

/-- A client of the pool. -/
structure Gateway where
  sendKeys : KeyStream
  recvKeys : KeyStream
  channel : Channel

namespace Gateway
variable (N : NaCl)

/-- The first frame of a connection. -/
def helloFrame (eph poolBoxPk : ByteArr 32) (identity session : Wire.Identity) (userAgent : String) (seed : UInt32)
    (pad : Bytes) : Bytes :=
  let hello := buildClientHello N eph poolBoxPk identity session userAgent seed pad
  (writeFrame (helloHeader cmdHello hello.length) hello ⟨clientInitialKey⟩).1

/-- The keys of the session on the client's side: what is the pool's to send is the client's to receive. -/
def start (session : Wire.Identity) (seed : UInt32) (recvKeys : KeyStream) (srvBox : ByteArr 32) : Gateway :=
  let nonces := sessionNonces seed (session.signPk N)
  ⟨(KeyStream.fromSeed seed).1, recvKeys, ⟨N.precompute srvBox session.bx, nonces.2, nonces.1⟩⟩

def connect (poolSignPk : ByteArr 32) (session : Wire.Identity) (seed : UInt32) (stream : Bytes) :
    Except TransportError (Gateway × String × Bytes) :=
  match readFrame stream (KeyStream.fromSeed seed).2 maxCmdLen with
  | .error e => .error e
  | .ok ((header, payload), recvKeys, rest) =>
    if header.cmd ≠ cmdHelloReply then .error (.session (.bad "not a reply"))
    else
      match parseServerHello N poolSignPk session payload with
      | .error e => .error (.crypto e)
      | .ok (_, srvBox, motd) => .ok (start N session seed recvKeys srvBox, motd, rest)

def sendMining (g : Gateway) (plain : Bytes) : Bytes × Gateway :=
  let payload := g.channel.encrypt N plain
  let out := writeFrame (miningHeader payload.1.length false) payload.1 g.sendKeys
  (out.1, { g with channel := payload.2, sendKeys := out.2 })

/-- One frame of the pool, and its message if it is not a keepalive; a signature is taken off. -/
def next (g : Gateway) (stream : Bytes) : Except TransportError (Option Bytes × Gateway × Bytes) :=
  match readFrame stream g.recvKeys maxCmdLen with
  | .error e => .error e
  | .ok ((h, payload), recvKeys, rest) =>
    if h.cmd ≠ cmdMining then .ok (none, { g with recvKeys }, rest)
    else
      match g.channel.decryptInPlace N payload with
      | .error e => .error (.crypto e)
      | .ok (body, channel) =>
        let body := if h.signed then body.take (body.length - sigLen) else body
        .ok (some body, { g with recvKeys, channel }, rest)

/-- Some messages in turn. -/
def sendAll (g : Gateway) : List Bytes → Bytes × Gateway
  | [] => ([], g)
  | m :: ms =>
    let out := g.sendMining N m
    let rest := sendAll out.2 ms
    (out.1 ++ rest.1, rest.2)

/-- So many frames in turn, and the messages among them. -/
def readFrames (g : Gateway) : Nat → Bytes → Except TransportError (List Bytes × Gateway × Bytes)
  | 0, stream => .ok ([], g, stream)
  | n + 1, stream =>
    match g.next N stream with
    | .error e => .error e
    | .ok (m, g, stream) =>
      match readFrames g n stream with
      | .error e => .error e
      | .ok (ms, g, stream) => .ok (m.toList ++ ms, g, stream)

end Gateway

/-- What a session writes after the handshake. -/
inductive Outgoing where
  | mining (plain : Bytes) (signed : Bool)
  | keepalive

def Outgoing.message : Outgoing → Option Bytes
  | .mining plain _ => some plain
  | .keepalive => none

/-- How long it is at most, with its tag and a signature. -/
def Outgoing.size : Outgoing → Nat
  | .mining plain _ => macLen + (plain.length + sigLen)
  | .keepalive => 0

namespace Connection
variable (N : NaCl)

def write (c : Connection) : Outgoing → Bytes × Connection
  | .mining plain signed => c.sendMining N plain signed
  | .keepalive => c.keepalive

def writeAll (c : Connection) : List Outgoing → Bytes × Connection
  | [] => ([], c)
  | o :: os =>
    let out := c.write N o
    let rest := writeAll out.2 os
    (out.1 ++ rest.1, rest.2)

end Connection

/-- Two ends in step: what each sends next is what the other can read next. -/
structure InStep (g : Gateway) (c : Connection) : Prop where
  toPool : Channel.Paired g.channel c.channel
  toGateway : Channel.Paired c.channel g.channel
  poolKeys : c.receiver.recvKeys = g.sendKeys
  gatewayKeys : g.recvKeys = c.sendKeys

theorem toNat_ofNat_lt {n : Nat} (h : n < 2 ^ 22) : (UInt32.ofNat n).toNat = n :=
  UInt32.toNat_ofNat_of_lt' (h.trans (by decide))

/-- A frame that was written is read back, whatever comes after it. -/
theorem readFrame_writeFrame {h : Header} (hf : h.Fits) {payload : Bytes} (hlen : payload.length = h.len.toNat)
    {max : Nat} (hmax : payload.length ≤ max) (keys : KeyStream) (rest : Bytes) :
    readFrame ((writeFrame h payload keys).1 ++ rest) keys max =
      .ok ((h, payload), (writeFrame h payload keys).2, rest) := by
  have hsize := Header.length_encode h keys
  have hdecode := Header.decode_encode hf keys
  have hwrite : (writeFrame h payload keys).1 ++ rest = (h.encode keys).1 ++ (payload ++ rest) :=
    List.append_assoc ..
  rw [hwrite, readFrame, if_neg (by rw [List.length_append]; omega), List.take_left' hsize,
    List.drop_left' hsize, hdecode]
  dsimp only
  rw [if_neg (by omega), if_neg (by rw [List.length_append]; omega), ← hlen, List.take_left, List.drop_left]
  rfl

@[simp] theorem helloHeader_len (cmd : UInt8) (len : Nat) : (helloHeader cmd len).len = .ofNat len := rfl

@[simp] theorem miningHeader_len (len : Nat) (signed : Bool) : (miningHeader len signed).len = .ofNat len := rfl

theorem helloHeader_fits {cmd : UInt8} (hcmd : cmd.toNat < 32) {len : Nat} (hlen : len < 2 ^ 22) :
    (helloHeader cmd len).Fits := ⟨by rwa [helloHeader_len, toNat_ofNat_lt hlen], hcmd⟩

theorem miningHeader_fits {len : Nat} (hlen : len < 2 ^ 22) (signed : Bool) : (miningHeader len signed).Fits :=
  ⟨by rwa [miningHeader_len, toNat_ofNat_lt hlen], show cmdMining.toNat < 32 by decide⟩

section
variable {N : NaCl}

/-- After the handshake the two ends are in step. -/
theorem established (hN : N.Documented) {pool session client identity : Wire.Identity} {eph eph' : ByteArr 32}
    {ua motd : String} (hlen : ua.utf8ByteSize ≤ maxUserAgent) (hnul : 0 ∉ asBytes ua) (seed : UInt32)
    {pad : Bytes} {gen : Generation} {t : Option (ByteArr resumeTokenLen)} (hext : Extends pad gen t)
    (hhello : (buildClientHello N eph (pool.boxPk N) identity client ua seed pad).length ≤ maxHello)
    (rest rest' : Bytes) :
    ∃ c reply g, Connection.accept N pool session eph' motd
        (Gateway.helloFrame N eph (pool.boxPk N) identity client ua seed pad ++ rest) = .ok ((c, reply), rest) ∧
      Gateway.connect N (pool.signPk N) client seed (reply ++ rest') = .ok (g, motdShown motd, rest') ∧
      InStep g c ∧ c.receiver = .new g.sendKeys ∧ c.hello = helloOf N identity client ua seed gen t := by
  let hello := helloOf N identity client ua seed gen t
  let reply := buildServerHello N eph' pool session hello motd
  let out := writeFrame (helloHeader cmdHelloReply reply.length) reply (KeyStream.fromSeed seed).2
  let sent := buildClientHello N eph (pool.boxPk N) identity client ua seed pad
  have hmax : sent.length < 2 ^ 22 := Nat.lt_of_le_of_lt hhello (by decide)
  have hreply : reply.length < 2 ^ 22 := by
    refine Nat.lt_of_le_of_lt (length_buildServerHello hN eph' pool session hello motd) ?_
    rw [hello.length_keys]
    decide
  have hread := readFrame_writeFrame (@helloHeader_fits cmdHello (by decide) _ hmax)
    (by rw [helloHeader_len, toNat_ofNat_lt hmax]) hhello ⟨clientInitialKey⟩ rest
  have hread' : readFrame (out.1 ++ rest') (KeyStream.fromSeed seed).2 maxCmdLen =
      .ok ((helloHeader cmdHelloReply reply.length, reply), out.2, rest') :=
    readFrame_writeFrame (helloHeader_fits (by decide) hreply) (by rw [helloHeader_len, toNat_ofNat_lt hreply])
      hreply.le _ rest'
  have hparse : parseClientHello N pool sent = .ok hello :=
    parse_buildClientHello hN eph pool identity client hlen hnul seed hext
  have hreplied : parseServerHello N (pool.signPk N) client reply =
      .ok (session.signPk N, session.boxPk N, motdShown motd) :=
    parse_buildServerHello hN eph' pool session client rfl motd
  refine ⟨(Connection.start N pool session eph' motd hello).1, out.1,
    Gateway.start N client seed out.2 (session.boxPk N), ?_, ?_, ?_, rfl, rfl⟩
  · rw [Connection.accept, Gateway.helloFrame, hread]
    dsimp only
    rw [if_neg (by simp [helloHeader, Header.new]), hparse]
    rfl
  · rw [Gateway.connect, hread']
    dsimp only
    rw [if_neg (by simp [helloHeader, Header.new]), hreplied]
  · exact ⟨⟨hN.agree session.bx client.bx, rfl⟩, ⟨hN.agree client.bx session.bx, rfl⟩, rfl, rfl⟩

/-- The frames of some messages, each encrypted under the channel as the last left it. -/
def sealed (N : NaCl) (ch : Channel) : List Bytes → List Frame
  | [] => []
  | m :: ms => (miningHeader (ch.encrypt N m).1.length false, (ch.encrypt N m).1) :: sealed N (ch.encrypt N m).2 ms

theorem send_cons (keys : KeyStream) (h : Header) (payload : Bytes) (fs : List Frame) :
    send keys ((h, payload) :: fs) = ((writeFrame h payload keys).1 ++ (send (writeFrame h payload keys).2 fs).1,
      (send (writeFrame h payload keys).2 fs).2) := rfl

/-- What a gateway writes is the frames of its messages. -/
theorem Gateway.sendAll_eq (g : Gateway) (ms : List Bytes) :
    (g.sendAll N ms).1 = (send g.sendKeys (sealed N g.channel ms)).1 := by
  induction ms generalizing g with
  | nil => rfl
  | cons m ms ih => simp only [sendAll, ih, sealed, send_cons, sendMining]

theorem sealed_fits (hN : N.Documented) {ms : List Bytes} (h : ∀ m ∈ ms, macLen + m.length < 2 ^ 22) (ch : Channel) :
    ∀ f ∈ sealed N ch ms, f.1.Fits ∧ f.2.length = f.1.len.toNat := by
  induction ms generalizing ch with
  | nil =>
    intro f hf
    cases hf
  | cons m ms ih =>
    have hlen : (ch.encrypt N m).1.length < 2 ^ 22 := by
      rw [ch.length_encrypt hN]
      exact h m List.mem_cons_self
    intro f hf
    rcases List.mem_cons.mp hf with rfl | hf
    · exact ⟨miningHeader_fits hlen false, by rw [miningHeader_len, toNat_ofNat_lt hlen]⟩
    · exact ih (fun m hm => h m (List.mem_cons_of_mem _ hm)) _ f hf

/-- Frame by frame, what a gateway sends is what the pool makes of it. -/
theorem handleFrames_sealed (hN : N.Documented) (ms : List Bytes) {ch : Channel} {c : Connection}
    (hpair : Channel.Paired ch c.channel) : ∃ channel, c.handleFrames N (sealed N ch ms) =
      (ms.map parseClient, .ok { c with channel }) ∧ channel.bx = c.channel.bx ∧
      channel.sendNonce = c.channel.sendNonce := by
  induction ms generalizing ch c with
  | nil => exact ⟨c.channel, rfl, rfl, rfl⟩
  | cons m ms ih =>
    obtain ⟨channel, hopen, hpair', hsend⟩ := Channel.decrypt_encrypt hN hpair m
    obtain ⟨channel', hrest, hkey', hsend'⟩ := @ih _ { c with channel } hpair'
    have hframe : c.handleFrame N (miningHeader (ch.encrypt N m).1.length false, (ch.encrypt N m).1) =
        .ok (some (parseClient m), { c with channel }) := by
      simp [Connection.handleFrame, miningHeader, Header.new, hopen]
    refine ⟨channel', ?_, hkey'.trans (hpair'.1.symm.trans hpair.1), hsend'.trans hsend⟩
    simp only [sealed, Connection.handleFrames, hframe, hrest]
    rfl

theorem delivered_toPool (hN : N.Documented) {g : Gateway} {c : Connection} (hstep : InStep g c)
    (hr : c.receiver = .new g.sendKeys) {ms : List Bytes} (hfits : ∀ m ∈ ms, macLen + m.length < 2 ^ 22)
    {chunks : List Bytes} (hne : ∀ chunk ∈ chunks, chunk ≠ []) (hcut : chunks.flatten = (g.sendAll N ms).1) :
    ∃ c', c.serve N chunks = (ms.map parseClient, .ok c') := by
  have hcuts := send_cuts (sealed_fits hN hfits g.channel) g.sendKeys
  rw [← g.sendAll_eq ms, ← hcut] at hcuts
  have hreads : Reads cut (Receiver.new g.sendKeys).reading (Receiver.new g.sendKeys).inbuf.unread chunks _ _ _ :=
    Cuts.reads cut_local rfl hcuts
  obtain ⟨r, hserve, -, -⟩ := Receiver.serve_reads hne hreads
  obtain ⟨channel, hframes, -, -⟩ := handleFrames_sealed hN ms hstep.toPool
  refine ⟨{ c with channel, receiver := r }, ?_⟩
  rw [Connection.serve, hr, hserve]
  dsimp only
  rw [hframes]

theorem infoHeader_fits : (Header.new cmdInfo 0).Fits := ⟨by decide, by decide⟩

theorem Connection.length_body (c : Connection) (plain : Bytes) (signed : Bool) :
    (c.body N plain signed).length ≤ plain.length + sigLen := by
  unfold body
  split
  · rw [List.length_append, List.Vector.toList_length]
  · omega

/-- The signature is taken off again. -/
theorem Connection.body_take (c : Connection) (plain : Bytes) (signed : Bool) :
    (if signed then (c.body N plain signed).take ((c.body N plain signed).length - sigLen)
      else c.body N plain signed) = plain := by
  cases signed with
  | false => rfl
  | true =>
    rw [if_pos rfl, body, if_pos rfl, List.length_append, List.Vector.toList_length, Nat.add_sub_cancel, List.take_left]

theorem Gateway.next_info {g : Gateway} {stream rest : Bytes} {h : Header} {payload : Bytes} {keys : KeyStream}
    (hread : readFrame stream g.recvKeys maxCmdLen = .ok ((h, payload), keys, rest)) (hcmd : h.cmd ≠ cmdMining) :
    g.next N stream = .ok (none, ⟨g.sendKeys, keys, g.channel⟩, rest) := by
  rw [next, hread]
  exact if_pos hcmd

theorem Gateway.next_mining {g : Gateway} {stream rest body : Bytes} {h : Header} {payload : Bytes}
    {keys : KeyStream} {channel : Channel}
    (hread : readFrame stream g.recvKeys maxCmdLen = .ok ((h, payload), keys, rest)) (hcmd : h.cmd = cmdMining)
    (hopen : g.channel.decryptInPlace N payload = .ok (body, channel)) :
    g.next N stream = .ok (some (if h.signed then body.take (body.length - sigLen) else body),
      ⟨g.sendKeys, keys, channel⟩, rest) := by
  rw [next, hread]
  dsimp only
  rw [if_neg (not_not.mpr hcmd), hopen]

theorem Connection.keepalive_eq (c : Connection) : c.keepalive =
    ((writeFrame (.new cmdInfo 0) [] c.sendKeys).1,
      ⟨c.receiver, (writeFrame (.new cmdInfo 0) [] c.sendKeys).2, c.channel, c.sessionKey, c.hello⟩) := rfl

theorem Connection.channel_mk (r : Receiver) (keys : KeyStream) (channel : Channel) (i : Wire.Identity)
    (h : ClientHello) :
    (Connection.mk r keys channel i h).channel = channel := rfl

theorem Connection.hello_mk (r : Receiver) (keys : KeyStream) (channel : Channel) (i : Wire.Identity)
    (h : ClientHello) :
    (Connection.mk r keys channel i h).hello = h := rfl

@[simp] theorem Connection.keepalive_channel (c : Connection) : c.keepalive.2.channel = c.channel :=
  (congrArg (fun w => w.2.channel) c.keepalive_eq).trans (channel_mk ..)

@[simp] theorem Connection.keepalive_hello (c : Connection) : c.keepalive.2.hello = c.hello :=
  (congrArg (fun w => w.2.hello) c.keepalive_eq).trans (hello_mk ..)

theorem Connection.sendMining_eq (c : Connection) (plain : Bytes) (signed : Bool) : c.sendMining N plain signed =
    ((writeFrame (miningHeader (c.channel.encrypt N (c.body N plain signed)).1.length signed)
        (c.channel.encrypt N (c.body N plain signed)).1 c.sendKeys).1,
      ⟨c.receiver, (writeFrame (miningHeader (c.channel.encrypt N (c.body N plain signed)).1.length signed)
        (c.channel.encrypt N (c.body N plain signed)).1 c.sendKeys).2,
        (c.channel.encrypt N (c.body N plain signed)).2, c.sessionKey, c.hello⟩) := rfl

@[simp] theorem Connection.sendMining_channel (c : Connection) (plain : Bytes) (signed : Bool) :
    (c.sendMining N plain signed).2.channel = (c.channel.encrypt N (c.body N plain signed)).2 :=
  (congrArg (fun w => w.2.channel) (c.sendMining_eq plain signed)).trans (channel_mk ..)

@[simp] theorem Connection.sendMining_hello (c : Connection) (plain : Bytes) (signed : Bool) :
    (c.sendMining N plain signed).2.hello = c.hello :=
  (congrArg (fun w => w.2.hello) (c.sendMining_eq plain signed)).trans (hello_mk ..)

/-- One frame of the pool's, as the gateway takes it. -/
theorem next_write (hN : N.Documented) {g : Gateway} {c : Connection} (hpair : Channel.Paired c.channel g.channel)
    (hkeys : g.recvKeys = c.sendKeys) {o : Outgoing} (hfits : o.size < 2 ^ 22) (rest : Bytes) :
    ∃ keys channel, g.next N ((c.write N o).1 ++ rest) = .ok (o.message, ⟨g.sendKeys, keys, channel⟩, rest) ∧
      Channel.Paired (c.write N o).2.channel channel ∧ keys = (c.write N o).2.sendKeys := by
  cases o with
  | keepalive =>
    have hread := @readFrame_writeFrame (.new cmdInfo 0) infoHeader_fits [] (toNat_ofNat_lt (by decide)).symm
      maxCmdLen (Nat.zero_le _) g.recvKeys rest
    have hnext := @Gateway.next_info N g _ _ _ _ _ hread (by decide)
    refine ⟨(writeFrame (.new cmdInfo 0) [] g.recvKeys).2, g.channel, ?_, ?_, ?_⟩
    · rw [Connection.write, c.keepalive_eq, ← hkeys]
      exact hnext
    · rwa [Connection.write, c.keepalive_channel]
    · rw [Connection.write, c.keepalive_eq, ← hkeys]
  | mining plain signed =>
    obtain ⟨channel, hopen, hpair', -⟩ := Channel.decrypt_encrypt hN hpair (c.body N plain signed)
    have hlen : (c.channel.encrypt N (c.body N plain signed)).1.length < 2 ^ 22 := by
      have hbody := @Connection.length_body N c plain signed
      rw [Outgoing.size] at hfits
      rw [c.channel.length_encrypt hN]
      omega
    have hread := @readFrame_writeFrame _ (miningHeader_fits hlen signed)
      (c.channel.encrypt N (c.body N plain signed)).1
      (by rw [miningHeader_len, toNat_ofNat_lt hlen]) maxCmdLen hlen.le g.recvKeys rest
    have hnext := Gateway.next_mining hread rfl hopen
    change _ = Except.ok (some (if signed then _ else _), _, _) at hnext
    rw [c.body_take] at hnext
    refine ⟨(writeFrame (miningHeader (c.channel.encrypt N (c.body N plain signed)).1.length signed)
      (c.channel.encrypt N (c.body N plain signed)).1 g.recvKeys).2, channel, ?_, ?_, ?_⟩
    · rw [Connection.write, c.sendMining_eq, ← hkeys]
      exact hnext
    · rwa [Connection.write, c.sendMining_channel]
    · rw [Connection.write, c.sendMining_eq, ← hkeys]

theorem delivered_toGateway (hN : N.Documented) {g : Gateway} {c : Connection}
    (hpair : Channel.Paired c.channel g.channel) (hkeys : g.recvKeys = c.sendKeys) {os : List Outgoing}
    (hfits : ∀ o ∈ os, o.size < 2 ^ 22) (rest : Bytes) :
    ∃ g', g.readFrames N os.length ((c.writeAll N os).1 ++ rest) = .ok (os.filterMap Outgoing.message, g', rest) := by
  induction os generalizing g c with
  | nil => exact ⟨g, rfl⟩
  | cons o os ih =>
    obtain ⟨keys, channel, hnext, hpair', hkeys'⟩ := next_write hN hpair hkeys (hfits o List.mem_cons_self)
      (((c.write N o).2.writeAll N os).1 ++ rest)
    obtain ⟨g'', hrest⟩ := @ih ⟨g.sendKeys, keys, channel⟩ _ hpair' hkeys' fun o ho =>
      hfits o (List.mem_cons_of_mem _ ho)
    refine ⟨g'', ?_⟩
    simp only [Connection.writeAll, List.append_assoc, List.length_cons, Gateway.readFrames, hnext, hrest,
      List.filterMap_cons]
    cases o.message <;> rfl

/-- After the handshake, the messages of each side arrive at the other: all of them, in order and as they were
sent, wherever the connection is cut into reads. -/
theorem session_delivers (hN : N.Documented) {pool session client identity : Wire.Identity} {eph eph' : ByteArr 32}
    {ua motd : String} (hlen : ua.utf8ByteSize ≤ maxUserAgent) (hnul : 0 ∉ asBytes ua) (seed : UInt32)
    {pad : Bytes} {gen : Generation} {t : Option (ByteArr resumeTokenLen)} (hext : Extends pad gen t)
    (hhello : (buildClientHello N eph (pool.boxPk N) identity client ua seed pad).length ≤ maxHello)
    (rest rest' : Bytes) :
    ∃ c reply g, Connection.accept N pool session eph' motd
        (Gateway.helloFrame N eph (pool.boxPk N) identity client ua seed pad ++ rest) = .ok ((c, reply), rest) ∧
      Gateway.connect N (pool.signPk N) client seed (reply ++ rest') = .ok (g, motdShown motd, rest') ∧
      (∀ (ms chunks : List Bytes), (∀ m ∈ ms, macLen + m.length < 2 ^ 22) → (∀ chunk ∈ chunks, chunk ≠ []) →
        chunks.flatten = (g.sendAll N ms).1 → ∃ c', c.serve N chunks = (ms.map parseClient, .ok c')) ∧
      ∀ (os : List Outgoing) (after : Bytes), (∀ o ∈ os, o.size < 2 ^ 22) → ∃ g',
        g.readFrames N os.length ((c.writeAll N os).1 ++ after) = .ok (os.filterMap Outgoing.message, g', after) := by
  obtain ⟨c, reply, g, haccept, hconnect, hstep, hreceiver, -⟩ :=
    established hN hlen hnul seed hext hhello rest rest'
  refine ⟨c, reply, g, haccept, hconnect, ?_, ?_⟩
  · intro ms chunks hfits hne hcut
    exact delivered_toPool hN hstep hreceiver hfits hne hcut
  · intro os after hfits
    exact delivered_toGateway hN hstep.toGateway hstep.gatewayKeys hfits after

theorem length_writeFrame (h : Header) (payload : Bytes) (keys : KeyStream) :
    (writeFrame h payload keys).1.length = Header.size + payload.length := by
  rw [writeFrame, List.length_append, Header.length_encode]

/-- How many bytes go out for some messages. -/
theorem Gateway.length_sendAll (hN : N.Documented) (g : Gateway) (ms : List Bytes) :
    (g.sendAll N ms).1.length = (ms.map fun m => Header.size + (macLen + m.length)).sum := by
  induction ms generalizing g with
  | nil => rfl
  | cons m ms ih =>
    rw [sendAll, List.length_append, ih, List.map_cons, List.sum_cons, sendMining]
    dsimp only
    rw [length_writeFrame, g.channel.length_encrypt hN]

/-- Keys of one party, apart from those of any other. -/
def keysOf (n : UInt8) : Wire.Identity := ⟨.replicate 32 n, .replicate 32 (n + 1)⟩

def pastToken : ByteArr resumeTokenLen := .replicate resumeTokenLen 9

/-- A request for a coinbaser, and a message of no kind that is known. -/
def askings : List Bytes := [subCoinbaserRequest :: (u64Bytes 5000 ++ (List.replicate 32 7 ++ [terminator])), [0x77]]

def tellings : List Outgoing := [.mining [0xf9] true, .keepalive, .mining [1, 2] false]

/-- A client that resumes, two messages of its own, cut within the first header and within the first payload, and
two messages for it with a keepalive between them. -/
theorem session_delivers_resumed : ∃ c reply g,
    Connection.accept .clear (keysOf 1) (keysOf 3) (zeros 32) "hi"
      (Gateway.helloFrame .clear (zeros 32) ((keysOf 1).boxPk .clear) (keysOf 7) (keysOf 5) "ua" 7
        (convoyHelloExtension (some pastToken)) ++ []) = .ok ((c, reply), []) ∧
    Gateway.connect .clear ((keysOf 1).signPk .clear) (keysOf 5) 7 (reply ++ []) = .ok (g, motdShown "hi", []) ∧
    (∃ c', c.serve .clear [((g.sendAll .clear askings).1.take 3), ((g.sendAll .clear askings).1.drop 3).take 20,
        (g.sendAll .clear askings).1.drop 23] =
      ([.ok (.coinbaserRequest ⟨5000, .replicate 32 7⟩), .ok (.unknown 0x77)], .ok c')) ∧
    ∃ g', g.readFrames .clear 3 ((c.writeAll .clear tellings).1 ++ [4]) = .ok ([[0xf9], [1, 2]], g', [4]) := by
  obtain ⟨c, reply, g, haccept, hconnect, htoPool, htoGateway⟩ :=
    @session_delivers .clear NaCl.clear_documented (keysOf 1) (keysOf 3) (keysOf 5) (keysOf 7) (zeros 32) (zeros 32)
      "ua" "hi" (by decide) (by decide) 7 _ .convoy (some pastToken) (extends_convoyHelloExtension _)
      (by decide +kernel) [] []
  have hlen : (g.sendAll .clear askings).1.length = 83 := g.length_sendAll NaCl.clear_documented askings
  have hparse : askings.map parseClient =
      [.ok (.coinbaserRequest ⟨5000, .replicate 32 7⟩), .ok (.unknown 0x77)] := by rfl
  have hcut : ∀ out : Bytes, [out.take 3, (out.drop 3).take 20, out.drop 23].flatten = out := by
    intro out
    have hdrop : out.drop 23 = (out.drop 3).drop 20 := by rw [List.drop_drop]
    rw [List.flatten_cons, List.flatten_cons, List.flatten_singleton, hdrop, List.take_append_drop,
      List.take_append_drop]
  refine ⟨c, reply, g, haccept, hconnect, hparse ▸ htoPool askings _ (by decide) ?_ (hcut _),
    htoGateway tellings [4] (by decide)⟩
  simp [← List.length_pos_iff, hlen]

end
end WaviclesPrime.Primed
