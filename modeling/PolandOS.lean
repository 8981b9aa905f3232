import PolandOS.Machine
import PolandOS.Lib.ByteMem
import PolandOS.Lib.BitArray
import PolandOS.Lib.Runs
import PolandOS.Lib.Staged
import PolandOS.Lib.Crc
import PolandOS.Lib.Tiling
import PolandOS.Mm.HeapRuns
import PolandOS.Mm.PmmOwnership
import PolandOS.Mm.PmmFirstFit
import PolandOS.Lib.Radix
import PolandOS.Mm.VmmLaws
import PolandOS.Mm.LargePages
import PolandOS.Lib.Fuel
import PolandOS.Lib.Logged
import PolandOS.Lang.ExprRoundTrip
import PolandOS.Lang.ParserShapes
import PolandOS.Lang.ParserTermination
import PolandOS.Lang.ParserInvariant
import PolandOS.Lang.Backtracking
import PolandOS.Lang.InterpSafety
import PolandOS.Lang.Overflow
import PolandOS.Lang.Expressions
import PolandOS.Lang.Control
import PolandOS.Lang.Scoping
import PolandOS.Lang.Structured
import PolandOS.Drivers.NvmeAttribution
import PolandOS.Drivers.NvmeQueues
import PolandOS.Drivers.Pci
import PolandOS.Drivers.NvmeInit
import PolandOS.Drivers.E1000
import PolandOS.Drivers.FailedInit
import PolandOS.Installer.Install
import PolandOS.Net.Checksum
import PolandOS.Lib.Traces
import PolandOS.Net.ReceiveBounds
import PolandOS.Net.Nesting
import PolandOS.Net.StateMachine
import PolandOS.Net.Handles
import PolandOS.Net.Streams
import PolandOS.Installer.Report
import PolandOS.Drivers.KeyAgreement
import PolandOS.Mm.HeapStale
import PolandOS.Mm.HeapData
import PolandOS.Mm.PmmAccounting
import PolandOS.Mm.MapRegion
import PolandOS.Net.Payload
import PolandOS.Net.SendReports
import PolandOS.Net.Acknowledged
import PolandOS.Net.ReceiveFifo
import PolandOS.Net.Ports
import PolandOS.Net.DnsAnswers
import PolandOS.Net.DnsNames
import PolandOS.Net.Replies
import PolandOS.Gui.Openers
import PolandOS.Drivers.Rtc
import PolandOS.Net.DhcpSegment
import PolandOS.Installer.Checksum
import PolandOS.Net.ArpCache
import PolandOS.Net.RxQueue
import PolandOS.Drivers.NvmePrp
import PolandOS.Net.DhcpOptions
import PolandOS.Net.Failures
import PolandOS.Net.Delivery
import PolandOS.Drivers.TxSetup
import PolandOS.Installer.Calls
import PolandOS.Installer.Transfers
import PolandOS.Installer.Geometry
import PolandOS.Drivers.RtcFormats
import PolandOS.Drivers.Mouse
import PolandOS.Drivers.KeyUnits
import PolandOS.Drivers.Interrupts
import PolandOS.Acpi.Tables
import PolandOS.Lib.Siblings
import PolandOS.Fs.VfsTree
import PolandOS.Fs.Lookup
import PolandOS.Drivers.Pixels
import PolandOS.Text.Decimal
import PolandOS.Lang.Environments
import PolandOS.Lang.Errors
import PolandOS.Lang.Indeterminate
import PolandOS.Lang.ParserLeaks
import PolandOS.Drivers.Console
import PolandOS.Shell.LineEditor
import PolandOS.Lang.LexerPositions
import PolandOS.Lang.ScopeChain
import PolandOS.Shell.Arguments
import PolandOS.Net.Addresses
import PolandOS.Net.Traffic
import PolandOS.Lang.Ownership
import PolandOS.Lang.Programs
import PolandOS.Drivers.RxRing
import PolandOS.Cpu.IsrStubs
import PolandOS.Drivers.PciScan
import PolandOS.Lib.Ghost
import PolandOS.Lib.Supply
import PolandOS.Mm.PmmFrames
import PolandOS.Mm.PagingSupply
import PolandOS.Mm.MemorySystem
import PolandOS.Lib.Disk
import PolandOS.Drivers.NvmeDisk
