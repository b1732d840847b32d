import Riscv32.Clocked.Run
import Riscv32.Clocked.Burst
import Riscv32.Clocked.Progress
import Riscv32.Data.Linked
import Riscv32.Data.Bytes
import Riscv32.Data.Regex
import Riscv32.Data.Halves
import Riscv32.Data.Radix
import Riscv32.Data.Moves
import Riscv32.Isa.Rv32im
import Riscv32.Isa.Arith
import Riscv32.Rtl.Params
import Riscv32.Rtl.Ifu
import Riscv32.Rtl.Idu
import Riscv32.Rtl.Exu
import Riscv32.Rtl.Lsu
import Riscv32.Rtl.Core
import Riscv32.Rtl.Checks
import Riscv32.Rtl.Icache
import Riscv32.Rtl.Bus
import Riscv32.Rtl.Soc
import Riscv32.Rtl.Xbar
import Riscv32.Rtl.Npc
import Riscv32.Fetch.Tracks
import Riscv32.Fetch.Stream
import Riscv32.Pipeline.DecodeCases
import Riscv32.Pipeline.Sequential
import Riscv32.Pipeline.Memory
import Riscv32.Pipeline.Trace
import Riscv32.Pipeline.Fence
import Riscv32.Pipeline.Front
import Riscv32.Pipeline.Checks
import Riscv32.Pipeline.Operands
import Riscv32.Pipeline.Refinement
import Riscv32.Pipeline.Effects
import Riscv32.Pipeline.Exceptions
import Riscv32.Pipeline.Barrier
import Riscv32.Pipeline.Drain
import Riscv32.Pipeline.Stores
import Riscv32.Pipeline.CsrFile
import Riscv32.Nemu.Memory
import Riscv32.Nemu.Regions
import Riscv32.Nemu.Flat
import Riscv32.Nemu.Devices
import Riscv32.Nemu.Bounds
import Riscv32.Nemu.Windows
import Riscv32.Nemu.Mmio
import Riscv32.Nemu.Pattern
import Riscv32.Nemu.Wildcards
import Riscv32.Nemu.Inst
import Riscv32.Lockstep.Fields
import Riscv32.Nemu.Conforms
import Riscv32.Nemu.Table
import Riscv32.Lockstep.Alu
import Riscv32.Lockstep.Lanes
import Riscv32.Lockstep.Pmem
import Riscv32.Lockstep.Agree
import Riscv32.Lockstep.Step
import Riscv32.Lockstep.Exec
import Riscv32.Cache.Line
import Riscv32.Cache.Link
import Riscv32.Cache.Refill
import Riscv32.Cache.Flush
import Riscv32.Cachesim.Model
import Riscv32.Cachesim.Predict
import Riscv32.Cachesim.WellFormed
import Riscv32.Fabric.Grant
import Riscv32.Fabric.Reads
import Riscv32.Fabric.Bursts
import Riscv32.Fabric.Routing
import Riscv32.Fabric.Writes
import Riscv32.Fabric.Delivery
import Riscv32.Boot.Loader
import Riscv32.Boot.Install
import Riscv32.Sdb.Watchpoint
import Riscv32.Sdb.Pool
import Riscv32.Sdb.Numbering
import Riscv32.Sdb.Expr
import Riscv32.Sdb.Expression
import Riscv32.Sdb.Scanning
import Riscv32.Sdb.Split
import Riscv32.Sdb.Evaluation
import Riscv32.Sdb.Ranges
import Riscv32.Sdb.GenExpr
import Riscv32.Sdb.Generator
import Riscv32.Sdb.BigStep
import Riscv32.Sdb.Adjacent
import Riscv32.Sdb.Inspect
import Riscv32.Sdb.NpcExpr
import Riscv32.Sdb.Language
import Riscv32.Sdb.Recording
import Riscv32.Sdb.Sentences
import Riscv32.Sdb.Relational
import Riscv32.Sdb.Deref
import Riscv32.Sdb.Decimal
import Riscv32.Sdb.Rejection
import Riscv32.Sdb.Watching
import Riscv32.Chip.Run
import Riscv32.Chip.Stability
import Riscv32.Chip.Barrier
import Riscv32.Chip.Npc
import Riscv32.Chip.Transfers
import Riscv32.Chip.Progress
import Riscv32.Am.Timer
import Riscv32.Am.Threads
import Riscv32.Am.Keyboard
import Riscv32.Klib.Malloc
import Riscv32.Klib.Format
import Riscv32.Klib.Scan
import Riscv32.Klib.Directive
import Riscv32.Klib.Numbers
import Riscv32.Klib.Memmove
import Riscv32.Klib.Strings
import Riscv32.Lockstep.Synchronised
import Riscv32.Libgcc.Native
import Riscv32.Libgcc.Multi3
import Riscv32.Klib.BitCount
import Riscv32.Klib.Int64
import Riscv32.Data.Pieces
import Riscv32.Minirv.Routines
