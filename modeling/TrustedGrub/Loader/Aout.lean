import TrustedGrub.Loader.Elf

/-!
# a.out kernels in `load_image`, and Multiboot kernels with address fields

How the two formats are admitted, and the load that they share: text, data, bss, and
the symbols behind them.
-/

namespace TrustedGrub.Loader
open Fips180 (Byte)
open CharIo (Word)
open Boot (word32 MultibootHeader multibootAoutKludge)
open TrustedGrub.Partition (Buffer)

/-- The locals that the admission of a format leaves. `execType` is zero for ELF, one for a.out and two for the address fields. -/
structure Locals where
  type : KernelType
  flags : Word
  execType : Nat
  textLen : Word
  dataLen : Word
  bssLen : Word
  align4k : Bool
  i : Word

/-! ## The header -/

/-- `struct exec`, as far as it is used. -/
structure Exec where
  midmag : Word
  text : Word
  data : Word
  bss : Word
  syms : Word
  entry : Word

def exec (buf : Buffer) : Exec where
  midmag := word32 buf 0
  text := word32 buf 4
  data := word32 buf 8
  bss := word32 buf 12
  syms := word32 buf 16
  entry := word32 buf 20

def omagic : Word := 0x107
def nmagic : Word := 0x108
def zmagic : Word := 0x10B
def qmagic : Word := 0xCC

def ntohl (x : Word) : Word := (x <<< 24) ||| ((x &&& 0xFF00) <<< 8) ||| ((x >>> 8) &&& 0xFF00) ||| (x >>> 24)

namespace Exec

/-- `N_GETMAGIC`. -/
def getMagic (ex : Exec) : Word := ex.midmag &&& 0xFFFF

/-- `N_GETMAGIC_NET`. -/
def getMagicNet (ex : Exec) : Word := ntohl ex.midmag &&& 0xFFFF

/-- `N_BADMAG`. -/
def badMag (ex : Exec) : Prop :=
  ex.getMagic ≠ omagic ∧ ex.getMagic ≠ nmagic ∧ ex.getMagic ≠ zmagic ∧ ex.getMagic ≠ qmagic ∧
    ex.getMagicNet ≠ omagic ∧ ex.getMagicNet ≠ nmagic ∧ ex.getMagicNet ≠ zmagic ∧ ex.getMagicNet ≠ qmagic

instance (ex : Exec) : Decidable ex.badMag := inferInstanceAs (Decidable (_ ∧ _ ∧ _ ∧ _ ∧ _ ∧ _ ∧ _ ∧ _))

/-- `N_TXTOFF`. -/
def txtOff (ex : Exec) : Word :=
  if ex.getMagic = zmagic then 0x1000 else if ex.getMagic = qmagic ∨ ex.getMagicNet = zmagic then 0 else 32

end Exec

/-! ## Admission -/

/-- The address fields of the Multiboot header at offset `i`. -/
def admitKludge (h : MultibootHeader) (i : Nat) (m : Machine) : Locals × Machine :=
  let m := { m with entryAddr := h.entryAddr, curAddr := h.loadAddr }
  let m := (m.grubSeek (.ofNat 32 i - (h.headerAddr - h.loadAddr))).2
  let loadEnd := h.loadEnd m.filemax.toNat
  let bssEnd := h.bssEnd m.filemax.toNat
  let m := if h.misplaced i m.filemax.toNat then { m with errnum := .execFormat } else m
  let m := if m.curAddr.slt 0x100000 then { m with errnum := .below1mb } else m
  (⟨.multiboot, h.flags, 2, loadEnd - h.loadAddr, 0, bssEnd - loadEnd, true, .ofNat 32 i⟩, m)

/-- Address fields that do not fit together leave an error. -/
theorem admitKludge_misplaced {h : MultibootHeader} {i : Nat} {m : Machine} (hmis : h.misplaced i m.filemax.toNat) :
    (admitKludge h i m).2.errnum ≠ .none := by
  unfold admitKludge Machine.grubSeek
  dsimp only
  split <;> split <;> simp_all

/-- An a.out header, which is that of a BSD kernel if there is no Multiboot header. -/
def admitAout (buf : Buffer) (type : KernelType) (flags : Word) (i : Nat) (m : Machine) : Locals × Machine :=
  let ex := exec buf
  let bsd := type = .none
  let free := buf 0 = 0xB ∧ buf 1 = 1
  let entry := if bsd then ex.entry &&& 0xFFFFFF else ex.entry
  let m := { m with
    entryAddr := entry
    curAddr := if bsd then if free then entry else entry &&& 0xF00000 else m.curAddr }
  let m := (m.grubSeek ex.txtOff).2
  let m := if m.curAddr.slt 0x100000 then { m with errnum := .below1mb } else m
  let type := if bsd then if free then .freebsd else .openbsd else type
  (⟨type, flags, 1, ex.text, ex.data, ex.bss, ¬ (bsd ∧ ¬ free ∧ ex.getMagic ≠ nmagic), .ofNat 32 i⟩, m)

/-! ## The load -/

def mbInfoAoutSyms : Word := 0x10

/-- The symbols and the strings, each with its length before it; `iAddr` is where the local `i` lies. -/
def Machine.loadAoutSymbols (l : Locals) (iAddr aSyms : Word) (m : Machine) : Machine :=
  let origAddr := m.curAddr
  let m := if l.align4k then { m with curAddr := Loader.align4k m.curAddr } else m
  let m := { m with syms := { m.syms with addr := m.curAddr } }
  let m := m.setWord m.curAddr aSyms
  let m := { m with curAddr := m.curAddr + 4 }
  let (got, m) := m.grubRead m.curAddr aSyms
  let (symtabErr, m) : Bool × Machine :=
    if got = aSyms then
      let m := { m with curAddr := m.curAddr + aSyms, syms := { m.syms with num := aSyms } }
      let (bytes, got, m) := m.grubReadLocal iAddr (fun k => (l.i >>> (8 * k)).setWidth 8) 4
      if got = 4 then
        let i := word32 bytes 0
        let m := m.setWord m.curAddr i
        let m := { m with curAddr := m.curAddr + 4, syms := { m.syms with size := i } }
        let i := i - 4
        let (got, m) := m.grubRead m.curAddr i
        (decide (got ≠ i), { m with curAddr := m.curAddr + i })
      else (true, m)
    else (true, m)
  if symtabErr then { m with curAddr := origAddr, syms := { m.syms with num := 0, size := 0, addr := 0 } }
  else { m with mbiFlags := m.mbiFlags ||| mbInfoAoutSyms }

/-- Read data, behind the text or on the next page. -/
def Machine.loadData (l : Locals) (m : Machine) : Machine :=
  let m := if l.align4k then { m with curAddr := Loader.align4k m.curAddr } else m
  let (got, m) := m.grubRead m.curAddr l.dataLen
  let m := if got ≠ l.dataLen ∧ m.errnum = .none then { m with errnum := .execFormat } else m
  { m with curAddr := m.curAddr + l.dataLen }

/-- Read text, then read data, and clear the bss. -/
def Machine.loadParts (l : Locals) (m : Machine) : Machine :=
  let (got, m) := m.grubRead m.curAddr l.textLen
  if got = l.textLen then
    let m := { m with curAddr := m.curAddr + l.textLen }
    let m := if l.flags &&& multibootAoutKludge = 0 then m.loadData l else m
    if m.errnum = .none then
      let m := m.grubMemset m.curAddr 0 l.bssLen
      { m with curAddr := m.curAddr + l.bssLen }
    else m
  else if m.errnum = .none then { m with errnum := .execFormat }
  else m

/-- The load of what can be loaded like a.out. -/
def Machine.loadAout (l : Locals) (buf : Buffer) (iAddr : Word) (m : Machine) : Machine :=
  let m := m.loadParts l
  let aSyms := (exec buf).syms
  if m.errnum = .none ∧ aSyms ≠ 0 ∧ aSyms < m.filemax - m.filepos then m.loadAoutSymbols l iAddr aSyms else m

end TrustedGrub.Loader
