import WaviclesPrime.Wire.Classify
import WaviclesPrime.Tides.Split

/-! Payout address to scriptPubKey, over any address decoders. -/
namespace WaviclesPrime.Primed
open Wire

inductive Network where
  | mainnet
  | testnet
  | signet
  | regtest
  deriving DecidableEq, Repr

namespace Network

def hrp : Network → String
  | .mainnet => "bc"
  | .testnet | .signet => "tb"
  | .regtest => "bcrt"

def p2pkhVersion : Network → UInt8
  | .mainnet => 0x00
  | _ => 0x6f

def p2shVersion : Network → UInt8
  | .mainnet => 0x05
  | _ => 0xc4

end Network

/-- The address decoders: a segwit address to its prefix, version and program, and a base58
string with a good checksum to its payload. -/
structure Decoders where
  segwit : String → Option (String × UInt8 × Bytes)
  base58 : String → Option Bytes

/-- Version and program of a segwit address are those the format allows. -/
structure Decoders.Documented (D : Decoders) : Prop where
  version : ∀ {addr hrp ver prog}, D.segwit addr = some (hrp, ver, prog) → ver ≤ 16
  program : ∀ {addr hrp ver prog}, D.segwit addr = some (hrp, ver, prog) →
    2 ≤ prog.length ∧ prog.length ≤ 40

def rdtsMaxOutputScript : Nat := 34
def rdtsMaxOutputData : Nat := 83

/-- Whether a script may appear as a coinbase output. -/
def rdtsOutputOk : Bytes → Bool
  | [] => true
  | first :: rest =>
    if first = 0x6a then (first :: rest).length ≤ rdtsMaxOutputData
    else (first :: rest).length ≤ rdtsMaxOutputScript

def isWhiteSpace (c : Char) : Bool :=
  (0x09 ≤ c.toNat && c.toNat ≤ 0x0d) || (0x2000 ≤ c.toNat && c.toNat ≤ 0x200a) ||
    [0x20, 0x85, 0xa0, 0x1680, 0x2028, 0x2029, 0x202f, 0x205f, 0x3000].contains c.toNat

def trim (s : String) : String :=
  String.ofList ((s.toList.dropWhile isWhiteSpace).reverse.dropWhile isWhiteSpace).reverse

def toAsciiLowercase (s : String) : String := String.ofList (s.toList.map Char.toLower)

def segwitScript (ver : UInt8) (prog : Bytes) : Bytes :=
  (if ver = 0 then 0x00 else 0x50 + ver) :: UInt8.ofNat prog.length :: prog

/-- A base58 payload: a version byte and a 20-byte hash. -/
def legacyScript (net : Network) : Bytes → Option Bytes
  | [] => none
  | ver :: hash =>
    if hash.length ≠ 20 then none
    else if ver = net.p2pkhVersion then some ([0x76, 0xa9, 0x14] ++ hash ++ [0x88, 0xac])
    else if ver = net.p2shVersion then some ([0xa9, 0x14] ++ hash ++ [0x87])
    else none

section
variable (D : Decoders)

/-- Decode an address into its output script, payable or not. -/
def decodeScript (addr : String) (net : Network) : Option Bytes :=
  let addr := trim addr
  if addr = "" ∨ 90 < addr.utf8ByteSize then none
  else match D.segwit addr with
    | some (hrp, ver, prog) =>
      if toAsciiLowercase hrp ≠ toAsciiLowercase net.hrp then none else some (segwitScript ver prog)
    | none => (D.base58 addr).bind (legacyScript net)

/-- Decode an address into an output script a coinbase can carry. -/
def toScript (addr : String) (net : Network) : Option Bytes :=
  (decodeScript D addr net).filter rdtsOutputOk

/-- The part of a username before the worker suffix or the username modifier. -/
def identityOf (username : String) : Identity :=
  String.ofList ((trim username).toList.takeWhile fun c => c ≠ '.' ∧ c ≠ '~')

/-- The form an identity is paid under: segwit addresses fold to one case. -/
def canonicalIdentity (ident : Identity) : Identity :=
  if (D.segwit ident).isSome then toAsciiLowercase ident else ident

end

section
variable {D : Decoders} {addr : String} {net : Network} {script : Bytes}

theorem toScript_ok (h : toScript D addr net = some script) : rdtsOutputOk script = true :=
  (Option.filter_eq_some_iff.mp h).2

theorem decodeScript_of_toScript (h : toScript D addr net = some script) :
    decodeScript D addr net = some script := (Option.filter_eq_some_iff.mp h).1

/-- What an address decodes to is never an OP_RETURN. -/
theorem decodeScript_shape (hd : D.Documented) (h : decodeScript D addr net = some script) :
    4 ≤ script.length ∧ isOpReturnScript script = false := by
  unfold decodeScript at h
  dsimp only at h
  split at h
  next => simp at h
  next =>
    split at h
    next hrp ver prog hs =>
      split at h
      next => simp at h
      next =>
        obtain rfl := Option.some.inj h
        have hv := hd.version hs
        have hp := hd.program hs
        refine ⟨by simp [segwitScript]; omega, ?_⟩
        have hne : (if ver = 0 then 0x00 else 0x50 + ver) ≠ (0x6a : UInt8) := by
          split
          · decide
          · intro heq
            have hn := congrArg UInt8.toNat heq
            have hle : ver.toNat ≤ 16 := hv
            rw [UInt8.toNat_add] at hn
            simp only [UInt8.reduceToNat] at hn
            omega
        simpa [isOpReturnScript, segwitScript] using hne
    next =>
      obtain ⟨raw, -, hl⟩ := Option.bind_eq_some_iff.mp h
      unfold legacyScript at hl
      split at hl
      next => simp at hl
      next ver hash =>
        split_ifs at hl with hlen hk hsh
        all_goals
          obtain rfl := Option.some.inj hl
          have h20 : hash.length = 20 := not_not.mp hlen
          simp [isOpReturnScript, h20]

/-- A payable script has at least four and at most 34 bytes. -/
theorem toScript_length (hd : D.Documented) (h : toScript D addr net = some script) :
    4 ≤ script.length ∧ script.length ≤ rdtsMaxOutputScript := by
  have hshape := decodeScript_shape hd (decodeScript_of_toScript h)
  have hok := toScript_ok h
  refine ⟨hshape.1, ?_⟩
  cases script with
  | nil => simp
  | cons first rest =>
    have hne : first ≠ 0x6a := by simpa [isOpReturnScript] using hshape.2
    simpa [rdtsOutputOk, hne] using hok

end
end WaviclesPrime.Primed
