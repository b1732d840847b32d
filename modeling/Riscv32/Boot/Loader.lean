import Riscv32.Data.Bytes

/-!
# The two-stage bootloader

`bootloader.c` with the symbols of `ysyxsoc_linker.ld`.  The first stage
copies the second to SRAM; the second copies text and data to their run
addresses and clears the bss.  All loops count words.

The symbols of the script are a `Layout`, and what the script promises about them
is `Linked`: the regions, the order of the sections, and the two sections that an
`ALIGN` closes.  The count of a loop is a difference of word pointers
(`wordCount`), which rounds down.  `Installed` says what the two stages are for.
-/

namespace Riscv32.Boot

open Riscv32.Data

/-! ## Symbols -/

/-- `_*_start` and `_*_end`. -/
structure Span where
  start : BitVec 32
  end_ : BitVec 32
deriving DecidableEq, Repr

/-- A section with a load address: also `_*_lma`. -/
structure Image extends Span where
  lma : BitVec 32
deriving DecidableEq, Repr

/-- The sections of the linker script. -/
structure Layout where
  ssblText : Image
  text : Image
  rodata : Image
  data : Image
  dataExtra : Image
  bss : Span
  bssExtra : Span

/-- `(size_t)(&end - &start)`: a difference of word pointers. -/
def wordCount (s : Span) : Nat := ((s.end_ - s.start).sshiftRight 2).toNat

/-- `fsbl_copy`. -/
def fsblCopy (mem : Bytes) (dst src : BitVec 32) (size : Nat) : Bytes := mem.copyWords dst src size

/-- `ssbl_copy`. -/
def ssblCopy (mem : Bytes) (dst src : BitVec 32) (size : Nat) : Bytes := mem.copyWords dst src size

/-- `ssbl_zero`. -/
def ssblZero (mem : Bytes) (dst : BitVec 32) (size : Nat) : Bytes := mem.zeroWords dst size

/-- `fs_bootloader`, up to the jump. -/
def fsBootloader (l : Layout) (mem : Bytes) : Bytes :=
  fsblCopy mem l.ssblText.start l.ssblText.lma (wordCount l.ssblText.toSpan)

/-- `ss_bootloader`, up to the jump. -/
def ssBootloader (l : Layout) (mem : Bytes) : Bytes :=
  let mem := ssblCopy mem l.text.start l.text.lma (wordCount l.text.toSpan)
  let mem := ssblCopy mem l.rodata.start l.rodata.lma (wordCount l.rodata.toSpan)
  let mem := ssblCopy mem l.data.start l.data.lma (wordCount l.data.toSpan)
  let mem := ssblCopy mem l.dataExtra.start l.dataExtra.lma (wordCount l.dataExtra.toSpan)
  let mem := ssblZero mem l.bss.start (wordCount l.bss)
  ssblZero mem l.bssExtra.start (wordCount l.bssExtra)

/-- Both stages. -/
def boot (l : Layout) (mem : Bytes) : Bytes := ssBootloader l (fsBootloader l mem)

/-! ## What the linker script leaves -/

/-- `MEMORY`. -/
def flash : Span := ⟨0x30000000, 0x31000000⟩
def sram : Span := ⟨0x0f000000, 0x0f002000⟩
def runAddr : Span := ⟨0xa0000000, 0xa8000000⟩

namespace Span

/-- The size in bytes. -/
def size (s : Span) : Nat := s.end_.toNat - s.start.toNat

def Holds (s : Span) (x : BitVec 32) : Prop := InRange s.start s.size x

/-- A section in a memory region. -/
structure In (s region : Span) : Prop where
  aligned : s.start.toNat % 4 = 0
  low : region.start.toNat ≤ s.start.toNat
  order : s.start.toNat ≤ s.end_.toNat
  high : s.end_.toNat ≤ region.end_.toNat

def Disjoint (s s' : Span) : Prop := s.end_.toNat ≤ s'.start.toNat ∨ s'.end_.toNat ≤ s.start.toNat

end Span

/-- The image of a section in flash. -/
structure Image.Loaded (s : Image) : Prop where
  aligned : s.lma.toNat % 4 = 0
  low : flash.start.toNat ≤ s.lma.toNat
  high : s.lma.toNat + s.size ≤ flash.end_.toNat

namespace Layout

def images (l : Layout) : List Image := [l.ssblText, l.text, l.rodata, l.data, l.dataExtra]

def spans (l : Layout) : List Span :=
  [l.ssblText.toSpan, l.text.toSpan, l.rodata.toSpan, l.data.toSpan, l.dataExtra.toSpan, l.bss,
    l.bssExtra]

/-- A layout of the script: `. = ALIGN(4)` or `ALIGN(8)` closes the data and
bss sections, nothing closes the others. -/
structure Linked (l : Layout) : Prop where
  ssblText : l.ssblText.In sram
  inRun : ∀ s ∈ l.spans.tail, s.In runAddr
  loaded : ∀ s ∈ l.images, s.Loaded
  disjoint : l.spans.Pairwise Span.Disjoint
  data : l.data.end_.toNat % 4 = 0
  dataExtra : l.dataExtra.end_.toNat % 8 = 0
  bss : l.bss.end_.toNat % 4 = 0
  bssExtra : l.bssExtra.end_.toNat % 8 = 0

/-- The program is in place: images in flash at their run addresses, bss
cleared, nothing else changed. -/
structure Installed (l : Layout) (mem mem' : Bytes) : Prop where
  image : ∀ s ∈ l.images, ∀ x, s.Holds x → mem' x = mem (s.lma + (x - s.start))
  bss : ∀ x, l.bss.Holds x → mem' x = 0
  bssExtra : ∀ x, l.bssExtra.Holds x → mem' x = 0
  rest : ∀ x, (∀ s ∈ l.spans, ¬ s.Holds x) → mem' x = mem x

end Layout

end Riscv32.Boot
