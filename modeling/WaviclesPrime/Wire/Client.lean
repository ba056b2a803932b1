import WaviclesPrime.Wire.Submit

/-! What a gateway may send on the mining channel. -/
namespace WaviclesPrime.Wire

def subCoinbaserRequest : UInt8 := 0x10
def subJobValidation : UInt8 := 0x50

inductive ValidationStatus where
  | ok
  | error (code : UInt8)
  deriving DecidableEq

/-- The answers to a job-validation request, by what was asked for. -/
inductive JobValidationReply where
  | shortIds (job : UInt8) (status : ValidationStatus) (ids : List UInt64) (crosscheck : Option Hash)
  | transactions (job : UInt8) (status : ValidationStatus) (txns : List Bytes)
  | fullBlock (job : UInt8) (status : ValidationStatus) (txns : List Bytes)
  deriving DecidableEq

structure CoinbaserRequest where
  value : UInt64
  prevHash : Hash
  deriving DecidableEq

inductive ClientMsg where
  | coinbaserRequest (r : CoinbaserRequest)
  | pow (s : PowSubmit)
  | jobValidation (r : JobValidationReply)
  | unknown (sub : UInt8)
  deriving DecidableEq

def readStatus : Read ValidationStatus := do
  let status ← Cursor.uint8
  return if status = 0x01 then .ok else .error status

def readTxn : Read Bytes := do
  let lo ← Cursor.u16
  let hi ← Cursor.u8
  Cursor.take (lo ||| hi <<< 16)

def readTxnList : Read (List Bytes) := do
  let n ← Cursor.u16
  Read.times n readTxn

/-- The low 48 bits of an id. -/
def readShortId : Read UInt64 := do
  let lo ← Cursor.u32
  let hi ← Cursor.u16
  return UInt64.ofNat lo ||| UInt64.ofNat hi <<< 32

def JobValidationReply.read : Read JobValidationReply := do
  let kind ← Cursor.uint8
  let job ← Cursor.uint8
  let status ← readStatus
  if kind = 0x90 then
    if status ≠ .ok then return .shortIds job status [] none
    else
      let n ← Cursor.u16
      let ids ← Read.times n readShortId
      if 0 < n then return .shortIds job status ids (some (← Cursor.array 32))
      else return .shortIds job status ids none
  else if kind = 0x91 then
    if status = .ok then return .transactions job status (← readTxnList)
    else return .transactions job status []
  else if kind = 0x92 then
    if status = .ok then return .fullBlock job status (← readTxnList)
    else return .fullBlock job status []
  else throw (.malformed "job validation kind")

def CoinbaserRequest.read : Read CoinbaserRequest := do
  let value ← Cursor.uint64
  let prevHash ← Cursor.array 32
  if (← Cursor.uint8) ≠ terminator then throw (.malformed "coinbaser request")
  return ⟨value, prevHash⟩

/-- Parse a decrypted client mining payload. -/
def parseClient : Bytes → Except Error ClientMsg
  | [] => .error .short
  | sub :: body =>
    if sub = subCoinbaserRequest then
      (CoinbaserRequest.read (.new body)).map fun r => .coinbaserRequest r.1
    else if sub = subPow then (PowSubmit.decode body).map .pow
    else if sub = subJobValidation then
      (JobValidationReply.read (.new body)).map fun r => .jobValidation r.1
    else .ok (.unknown sub)

/-- A submission survives the wire, with every choice of sections and any padding. -/
theorem parseClient_encode {s : PowSubmit} (h : s.Fits) (padding : Bytes) :
    parseClient (s.encode ++ padding) = .ok (.pow s) := by
  have hbytes : s.encode ++ padding = subPow :: (s.encode.tail ++ padding) := rfl
  rw [hbytes, parseClient, if_neg (by decide), if_pos rfl, PowSubmit.decode_encode h]
  rfl

/-- A name beyond ASCII, the terminator as data, and every section. -/
def everySection : PowSubmit where
  jobId := 254
  coinbaseId := 4
  flags := 8
  targetPot := 13
  ntime32 := 254
  nonce32 := 7
  version := 0
  extranonce := zeros 12
  username := "bc1q.é"
  reserved := zeros 4
  blake2b := some ⟨zeros 8, zeros 8⟩
  timeOnWire := some 254
  job := some ⟨zeros 32, 47, zeros 4, 200, 966267, 312538966, 58, 1, 2, 3, [zeros 32]⟩
  coinbase := some ⟨4, [254, 2, 3], [254]⟩

theorem parseClient_encode_everySection :
    parseClient (everySection.encode ++ [254, 1]) = .ok (.pow everySection) :=
  parseClient_encode ⟨by decide, by decide, by decide, fun _ h => by cases h; decide,
    fun _ h => by cases h; decide⟩ _

end WaviclesPrime.Wire
