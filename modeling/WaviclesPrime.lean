import WaviclesPrime.Lib.Machine
import WaviclesPrime.Lib.Loop
import WaviclesPrime.Lib.Apportion
import WaviclesPrime.Lib.OrdMap
import WaviclesPrime.Lib.KeyMap
import WaviclesPrime.Lib.Filed
import WaviclesPrime.Lib.LittleEndian
import WaviclesPrime.Lib.Extremum
import WaviclesPrime.Lib.Journal
import WaviclesPrime.Lib.Places
import WaviclesPrime.Lib.Queue
import WaviclesPrime.Lib.Framing
import WaviclesPrime.Lib.Utf8
import WaviclesPrime.Lib.Merkle
import WaviclesPrime.Lib.Json
import WaviclesPrime.Lib.JsonPrint
import WaviclesPrime.Lib.Counter
import WaviclesPrime.Lib.Sealed
import WaviclesPrime.Lib.Recent
import WaviclesPrime.Lib.Disk
import WaviclesPrime.Lib.Traced
import WaviclesPrime.Tides.Split
import WaviclesPrime.Tides.Tally
import WaviclesPrime.Tides.TallyRun
import WaviclesPrime.Tides.Cap
import WaviclesPrime.Tides.CarryRun
import WaviclesPrime.Tides.Accounting
import WaviclesPrime.Tides.Carry
import WaviclesPrime.Tides.Ranked
import WaviclesPrime.Tides.Window
import WaviclesPrime.Tides.WindowRun
import WaviclesPrime.Tides.Miners
import WaviclesPrime.Tides.Ledger
import WaviclesPrime.Tides.Replay
import WaviclesPrime.Tides.Reopen
import WaviclesPrime.Tides.Durable
import WaviclesPrime.Tides.Fair
import WaviclesPrime.Tides.Attribution
import WaviclesPrime.Tides.Reload
import WaviclesPrime.Tides.TornRow
import WaviclesPrime.Tides.Shifted
import WaviclesPrime.Tides.Lines
import WaviclesPrime.Tides.Import
import WaviclesPrime.Tides.Floor
import WaviclesPrime.Tides.Limits
import WaviclesPrime.Tides.Overflow
import WaviclesPrime.Tides.Rates
import WaviclesPrime.Wire.Cursor
import WaviclesPrime.Wire.Coinbase
import WaviclesPrime.Wire.CompactSize
import WaviclesPrime.Wire.CoinbaseFormat
import WaviclesPrime.Wire.Build
import WaviclesPrime.Wire.Coinbaser
import WaviclesPrime.Wire.Classify
import WaviclesPrime.Wire.Mining
import WaviclesPrime.Wire.Pow
import WaviclesPrime.Wire.Slot
import WaviclesPrime.Wire.Verify
import WaviclesPrime.Wire.Merkle
import WaviclesPrime.Wire.CoinbaseCache
import WaviclesPrime.Wire.Transparency
import WaviclesPrime.Wire.SlotBounds
import WaviclesPrime.Wire.TargetByte
import WaviclesPrime.Wire.Work
import WaviclesPrime.Wire.Compact
import WaviclesPrime.Wire.Block
import WaviclesPrime.Wire.PaidInFull
import WaviclesPrime.Wire.Gateway
import WaviclesPrime.Wire.Client
import WaviclesPrime.Wire.Frame
import WaviclesPrime.Wire.Submit
import WaviclesPrime.Wire.Nonce
import WaviclesPrime.Wire.Crypto
import WaviclesPrime.Wire.Handshake
import WaviclesPrime.Primed.Address
import WaviclesPrime.Primed.Shared
import WaviclesPrime.Primed.Snapshot
import WaviclesPrime.Primed.Canonical
import WaviclesPrime.Primed.Session
import WaviclesPrime.Primed.Sections
import WaviclesPrime.Primed.Coinbaser
import WaviclesPrime.Primed.Issued
import WaviclesPrime.Primed.Blocks
import WaviclesPrime.Primed.Honest
import WaviclesPrime.Primed.Solvency
import WaviclesPrime.Primed.Settlement
import WaviclesPrime.Primed.Reload
import WaviclesPrime.Primed.Attribution
import WaviclesPrime.Primed.Candidates
import WaviclesPrime.Primed.Treasury
import WaviclesPrime.Primed.Rulings
import WaviclesPrime.Primed.Pool
import WaviclesPrime.Primed.Replay
import WaviclesPrime.Primed.Dedup
import WaviclesPrime.Primed.CarryPaid
import WaviclesPrime.Primed.Restart
import WaviclesPrime.Primed.MainChain
import WaviclesPrime.Primed.BlockLog
import WaviclesPrime.Primed.Budget
import WaviclesPrime.Primed.LiveSlots
import WaviclesPrime.Primed.IpAddr
import WaviclesPrime.Primed.Controls
import WaviclesPrime.Primed.OneIdentity
import WaviclesPrime.Primed.Bans
import WaviclesPrime.Primed.Serve
import WaviclesPrime.Primed.Transport
import WaviclesPrime.Primed.Wiretap
import WaviclesPrime.Primed.Limits
import WaviclesPrime.Primed.Connections
import WaviclesPrime.Primed.Watcher
import WaviclesPrime.Primed.Workers
import WaviclesPrime.Primed.Archive
import WaviclesPrime.Primed.Heights
import WaviclesPrime.Primed.Quiet
import WaviclesPrime.Tools.Recompute
import WaviclesPrime.Tools.Window
import WaviclesPrime.Tools.Mirror
import WaviclesPrime.Tools.Agreement
