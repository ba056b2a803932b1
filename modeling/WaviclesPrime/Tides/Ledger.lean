import WaviclesPrime.Lib.LittleEndian
import WaviclesPrime.Tides.Miners

/-! The durable window: identities, credit rows and a small meta file, and how they are read back. -/
namespace WaviclesPrime.Tides
open Machine

namespace Credit

def size : Nat := 24

def write (c : Credit) : Bytes :=
  LittleEndian.write 4 c.ts.toNat ++ LittleEndian.write 4 c.ident.toNat ++
    LittleEndian.write 8 c.work.toNat ++ LittleEndian.write 4 c.height.toNat ++ [c.source, 0, 0, 0]

/-- A row of 24 bytes; the last three are padding. -/
def read (b : Bytes) : Credit where
  ts := .ofNat (LittleEndian.read (b.take 4))
  ident := .ofNat (LittleEndian.read ((b.drop 4).take 4))
  work := .ofNat (LittleEndian.read ((b.drop 8).take 8))
  height := .ofNat (LittleEndian.read ((b.drop 16).take 4))
  source := (b.drop 20).headD 0

end Credit

/-- The whole rows of a file; a fragment at its end is left out. -/
def readRows (bytes : Bytes) : List Credit :=
  (List.range (bytes.length / Credit.size)).map fun i =>
    Credit.read ((bytes.drop (Credit.size * i)).take Credit.size)

/-- A line without its end, which may be a carriage return and a newline. -/
def chomp : List Char → List Char
  | '\r' :: reversed => reversed
  | reversed => reversed

/-- The lines of a text from a line's start read so far, reversed. The last line may lack its newline. -/
def linesFrom : List Char → List Char → List String
  | reversed, [] => if reversed = [] then [] else [String.ofList reversed.reverse]
  | reversed, c :: rest =>
    if c = '\n' then String.ofList (chomp reversed).reverse :: linesFrom [] rest
    else linesFrom (c :: reversed) rest

def lines (text : List Char) : List String := linesFrom [] text

/-- Persisted window state. -/
structure Meta where
  targetWork : Nat
  lifetimeShares : Nat
  lifetimeWork : Nat

/-- What the directory holds: `identities.txt`, `credits.bin` and `window.json`. -/
structure Files where
  identities : List Char
  credits : Bytes
  state : Meta

/-- Nothing yet: a missing meta file reads as zeros. -/
def Files.empty : Files := ⟨[], [], ⟨0, 0, 0⟩⟩

/-- A window, its files, and what the writers still buffer for them. -/
structure Ledger where
  window : Window
  disk : Files
  identsOut : List Char
  creditsOut : Bytes
  rowsOnDisk : Nat
  dirty : Bool

/-- The write of a credit that fails, if one does: the identity, the newline after it, or the row. -/
inductive Fault where
  | identity
  | newline
  | row
  deriving DecidableEq

/-- Rows that may be left over in the file before it is rewritten. -/
def slackRows : Nat := 8192

/-- A row of the file, if its identity is in the table. -/
def Window.replay (w : Window) (c : Credit) : Window :=
  if c.ident.toNat < w.idents.length then w.pushRaw c else w

/-- The rows of the file whose identity is in the table. -/
def Window.usable (w : Window) (rows : List Credit) : List Credit :=
  rows.filter fun c => c.ident.toNat < w.idents.length

namespace Ledger

/-- Rewrite the credits file with only the rows still in the window. -/
def compact (l : Ledger) : Ledger :=
  { l with
    disk := { l.disk with credits := l.window.credits.flatMap Credit.write }
    creditsOut := []
    rowsOnDisk := l.window.credits.length }

/-- Open the ledger in a directory and replay it. -/
def openDir (d : Files) : Ledger :=
  let fresh : Window :=
    { Window.new with lifetimeShares := d.state.lifetimeShares, lifetimeWork := d.state.lifetimeWork }
  let table := ((lines d.identities).filter (· ≠ "")).foldl (fun w s => (w.intern s).1) fresh
  let rows := readRows d.credits
  let l : Ledger :=
    { window := (rows.foldl Window.replay table).setTarget d.state.targetWork
      disk := d
      identsOut := []
      creditsOut := []
      rowsOnDisk := (table.usable rows).length
      dirty := false }
  if l.window.credits.length + slackRows < l.rowsOnDisk then l.compact else l

/-- Record work as one appended row. A write that fails ends the call, with the window changed. -/
def credit (l : Ledger) (a : Accepted) (fault : Option Fault) : Ledger × Bool :=
  let known := (l.window.identIndex.get a.identity).isSome
  let (window, row) := l.window.creditRow a.identity a.work a.height a.ts a.source
  let l := { l with window := window }
  if known = false ∧ fault = some .identity then (l, false)
  else
    let l := if known then l else { l with identsOut := l.identsOut ++ a.identity.toList }
    if known = false ∧ fault = some .newline then (l, false)
    else
      let l := if known then l else { l with identsOut := l.identsOut ++ ['\n'] }
      if fault = some .row then (l, false)
      else
        ({ l with
            creditsOut := l.creditsOut ++ row.write
            rowsOnDisk := l.rowsOnDisk + 1
            dirty := true }, true)

def setTarget (l : Ledger) (target : Nat) : Ledger :=
  if l.window.targetWork = target then l
  else { l with window := l.window.setTarget target, dirty := true }

/-- Push buffered rows out and write the meta file. -/
def flush (l : Ledger) : Ledger :=
  if l.dirty then
    let l : Ledger :=
      { l with
        disk :=
          { identities := l.disk.identities ++ l.identsOut
            credits := l.disk.credits ++ l.creditsOut
            state := ⟨l.window.targetWork, l.window.lifetimeShares, l.window.lifetimeWork⟩ }
        identsOut := []
        creditsOut := []
        dirty := false }
    if l.window.credits.length + slackRows < l.rowsOnDisk then l.compact else l
  else l

/-- What is flushed stays when the machine stops, too. -/
def sync (l : Ledger) : Ledger := l.flush

/-- Make the files identical to the window. -/
def persistWindow (l : Ledger) : Ledger :=
  let l := l.sync
  if l.rowsOnDisk ≠ l.window.credits.length then l.compact else l

end Ledger
end WaviclesPrime.Tides
