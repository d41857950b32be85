import TrustedGrub.Boot.Multiboot
import TrustedGrub.CharIo.Memcheck
import TrustedGrub.Lib.WordMemory

/-!
# The machine under `load_image`

Memory, the globals of the loader and of the open file, and the functions that copy.
`grub_open` has put the whole kernel at `kernel_real_addr`, to be measured, and from
then on `grub_read` is a copy within memory: it takes no heed of the end of the file
and always returns the length it was asked for.
-/

namespace TrustedGrub.Loader
open Fips180 (Byte)
open CharIo (Word Memory)

/-- The symbols in `mbi.syms`; the names are those of the ELF half of the union. -/
structure Symbols where
  num : Word
  size : Word
  addr : Word
  shndx : Word
  deriving DecidableEq

def Symbols.none : Symbols := ⟨0, 0, 0, 0⟩

structure Machine extends Memory where
  mem : Word → Byte
  filepos : Word
  filemax : Word
  kernelRealAddr : Word
  curAddr : Word
  entryAddr : Word
  mbiFlags : Word
  syms : Symbols
  extendedMemory : Word
  linuxDataRealAddr : Word
  linuxDataTmpAddr : Word
  linuxMemSize : Word
  linuxTextLen : Word

namespace Machine

def memcheck (m : Machine) (addr len : Word) : Bool × Machine :=
  let (ok, memory) := CharIo.memcheck m.toMemory addr len
  (ok, { m with toMemory := memory })

/-- `grub_memmove`. The string instruction counts the length without a sign. -/
def grubMemmove (m : Machine) (dst src len : Word) : Machine :=
  let (ok, m) := m.memcheck dst len
  if ok then { m with mem := WordMemory.move len.toNat dst src m.mem } else m

/-- `grub_memset`, whose loop counts an `int` down. -/
def grubMemset (m : Machine) (start : Word) (c : Byte) (len : Word) : Machine :=
  let (ok, m) := m.memcheck start len
  if ok then { m with mem := WordMemory.fill len.toInt.toNat start c m.mem } else m

/-- Make sure `filepos` is a sane value. -/
def sane (m : Machine) : Machine := if m.filepos.slt 0 ∨ m.filemax.slt m.filepos then { m with filepos := m.filemax } else m

/-- `grub_read`, if we are loading a kernel: the data is already in memory. -/
def grubRead (m : Machine) (buf len : Word) : Word × Machine :=
  let m := m.sane
  let m := m.grubMemmove buf (m.kernelRealAddr + m.filepos) len
  (len, { m with filepos := m.filepos + len })

/-- `grub_read` into a local variable of `load_image` that lies at `addr`: what it holds then. -/
def grubReadLocal (m : Machine) (addr : Word) (old : Nat → Byte) (len : Nat) : (Nat → Byte) × Word × Machine :=
  let m := m.sane
  let start := m.kernelRealAddr + m.filepos
  let (ok, m) := m.memcheck addr (.ofNat 32 len)
  let bytes := fun k => if ok ∧ k < len then m.mem (start + .ofNat 32 k) else old k
  (bytes, .ofNat 32 len, { m with filepos := m.filepos + .ofNat 32 len })

/-- `grub_seek`. -/
def grubSeek (m : Machine) (offset : Word) : Word × Machine :=
  if m.filemax.slt offset ∨ offset.slt 0 then (-1, m) else (offset, { m with filepos := offset })

/-- `*((int *) addr)`. -/
def word (m : Machine) (addr : Word) : Word := m.mem (addr + 3) ++ m.mem (addr + 2) ++ m.mem (addr + 1) ++ m.mem addr

/-- `*((int *) addr) = value`. -/
def setWord (m : Machine) (addr value : Word) : Machine :=
  { m with mem := fun x => if WordMemory.Within addr 4 x then (value >>> (8 * (x - addr).toNat)).setWidth 8 else m.mem x }

/-! ## What the functions leave -/

variable {m m' : Machine} {addr dst src len offset : Word} {c : Byte}

/-- The machine after a check of a range. -/
def checked (m : Machine) (addr len : Word) : Machine :=
  { m with errnum := if CharIo.wontFit m.toMemory addr len then .wontFit else m.errnum }

theorem memcheck_eq (m : Machine) (addr len : Word) :
    m.memcheck addr len = (decide ((m.checked addr len).errnum = .none), m.checked addr len) := by
  unfold memcheck CharIo.memcheck checked
  by_cases h : CharIo.wontFit m.toMemory addr len = true
  · simp only [h, if_true]
  · simp only [h, if_false, Bool.false_eq_true]

/-- The check looks at the sizes of the memory. -/
theorem wontFit_congr (hlower : m'.memLower = m.memLower) (hupper : m'.memUpper = m.memUpper) :
    CharIo.wontFit m'.toMemory addr len = CharIo.wontFit m.toMemory addr len := by
  unfold CharIo.wontFit
  rw [hlower, hupper]

theorem checked_errnum : (m.checked addr len).errnum = .none ↔ m.errnum = .none ∧ CharIo.wontFit m.toMemory addr len = false := by
  unfold checked
  by_cases h : CharIo.wontFit m.toMemory addr len = true
  · simp [h]
  · simp [h]

theorem checked_of_failed (h : (m.checked addr len).errnum ≠ m.errnum) : (m.checked addr len).errnum = .wontFit := by
  unfold checked at h ⊢
  by_cases hfit : CharIo.wontFit m.toMemory addr len = true
  · simp [hfit]
  · simp [hfit] at h

theorem checked_ne_execFormat (h : m.errnum ≠ .execFormat) : (m.checked addr len).errnum ≠ .execFormat := by
  by_cases hsame : (m.checked addr len).errnum = m.errnum
  · rwa [hsame]
  · rw [checked_of_failed hsame]
    exact Disk.GrubError.noConfusion

theorem grubMemmove_eq (m : Machine) (dst src len : Word) :
    m.grubMemmove dst src len = { m.checked dst len with
      mem := if (m.checked dst len).errnum = .none then WordMemory.move len.toNat dst src m.mem else m.mem } := by
  unfold grubMemmove
  rw [memcheck_eq]
  by_cases h : (m.checked dst len).errnum = .none
  · simp only [h, decide_true, if_true]
    rfl
  · simp only [h, decide_false, if_false, Bool.false_eq_true]
    rfl

theorem grubMemset_eq (m : Machine) (start : Word) (c : Byte) (len : Word) :
    m.grubMemset start c len = { m.checked start len with
      mem := if (m.checked start len).errnum = .none then WordMemory.fill len.toInt.toNat start c m.mem else m.mem } := by
  unfold grubMemset
  rw [memcheck_eq]
  by_cases h : (m.checked start len).errnum = .none
  · simp only [h, decide_true, if_true]
    rfl
  · simp only [h, decide_false, if_false, Bool.false_eq_true]
    rfl

/-- Where the next read begins. -/
def position (m : Machine) : Word := if m.filepos.slt 0 ∨ m.filemax.slt m.filepos then m.filemax else m.filepos

theorem sane_eq (m : Machine) : m.sane = { m with filepos := m.position } := by
  unfold sane position
  split <;> rfl

theorem grubRead_eq (m : Machine) (buf len : Word) :
    m.grubRead buf len = (len, { m.checked buf len with
      filepos := m.position + len
      mem :=
        if (m.checked buf len).errnum = .none then WordMemory.move len.toNat buf (m.kernelRealAddr + m.position) m.mem else m.mem }) := by
  unfold grubRead
  rw [sane_eq]
  dsimp only
  rw [grubMemmove_eq]
  rfl

theorem grubReadLocal_eq (m : Machine) (addr : Word) (old : Nat → Byte) (n : Nat) :
    m.grubReadLocal addr old n =
      (fun k => if (m.checked addr (.ofNat 32 n)).errnum = .none ∧ k < n then m.mem (m.kernelRealAddr + m.position + .ofNat 32 k) else
        old k,
        .ofNat 32 n, { m.checked addr (.ofNat 32 n) with filepos := m.position + .ofNat 32 n }) := by
  unfold grubReadLocal
  rw [sane_eq]
  dsimp only
  rw [memcheck_eq]
  simp only [decide_eq_true_eq]
  rfl

theorem grubRead_snd_errnum : (m.grubRead dst len).2.errnum = (m.checked dst len).errnum := by rw [grubRead_eq]

theorem grubMemset_errnum : (m.grubMemset dst c len).errnum = (m.checked dst len).errnum := by rw [grubMemset_eq]

/-- The memory of `m'` is as large as that of `m`. -/
def SameSizes (m m' : Machine) : Prop := m'.memLower = m.memLower ∧ m'.memUpper = m.memUpper

theorem SameSizes.trans {m'' : Machine} (h : SameSizes m m') (h' : SameSizes m' m'') : SameSizes m m'' :=
  ⟨h'.1.trans h.1, h'.2.trans h.2⟩

theorem SameSizes.wontFit (h : SameSizes m m') : CharIo.wontFit m'.toMemory addr len = CharIo.wontFit m.toMemory addr len :=
  wontFit_congr h.1 h.2

theorem checked_sizes : SameSizes m (m.checked addr len) := ⟨rfl, rfl⟩

theorem grubRead_sizes : SameSizes m (m.grubRead dst len).2 := by
  rw [grubRead_eq]
  exact ⟨rfl, rfl⟩

theorem grubMemset_sizes : SameSizes m (m.grubMemset dst c len) := by
  rw [grubMemset_eq]
  exact ⟨rfl, rfl⟩

/-- The bytes of a word make it up. -/
theorem bytes_append (v : Word) : (v >>> 24).setWidth 8 ++ (v >>> 16).setWidth 8 ++ (v >>> 8).setWidth 8 ++ (v >>> 0).setWidth 8 = v := by
  apply BitVec.eq_of_getLsbD_eq
  intro i hi
  simp only [BitVec.getLsbD_append, BitVec.getLsbD_setWidth, BitVec.getLsbD_ushiftRight]
  by_cases h₁ : i < 8
  · simp [h₁]
  · by_cases h₂ : i < 16
    · have h : i - 8 < 8 := by omega
      simp [h₁, h, show 8 + (i - 8) = i by omega]
    · by_cases h₃ : i < 24
      · have h : ¬ i - 8 < 8 := by omega
        have h' : i - 8 - 8 < 8 := by omega
        simp [h₁, h, h', show 16 + (i - 8 - 8) = i by omega]
      · have h : ¬ i - 8 < 8 := by omega
        have h' : ¬ i - 8 - 8 < 8 := by omega
        have h'' : i - 8 - 8 - 8 < 8 := by omega
        simp [h₁, h, h', h'', show 24 + (i - 8 - 8 - 8) = i by omega]

theorem setWord_at (m : Machine) (addr value : Word) {k : Nat} (hk : k < 4) :
    (m.setWord addr value).mem (addr + .ofNat 32 k) = (value >>> (8 * k)).setWidth 8 := by
  unfold setWord
  dsimp only
  rw [if_pos (WordMemory.within_offset hk (by decide)), add_sub_cancel_left, BitVec.toNat_ofNat, Nat.mod_eq_of_lt (by omega)]

/-- A word that is stored is read back. -/
theorem word_setWord (m : Machine) (addr value : Word) : (m.setWord addr value).word addr = value := by
  have hat (k : Nat) (hk : k < 4) := setWord_at m addr value hk
  have h₀ : (m.setWord addr value).mem addr = (value >>> 0).setWidth 8 := by
    rw [← hat 0 (by decide)]
    exact congrArg _ (BitVec.add_zero addr).symm
  have h₁ : (m.setWord addr value).mem (addr + 1) = (value >>> 8).setWidth 8 := hat 1 (by decide)
  have h₂ : (m.setWord addr value).mem (addr + 2) = (value >>> 16).setWidth 8 := hat 2 (by decide)
  have h₃ : (m.setWord addr value).mem (addr + 3) = (value >>> 24).setWidth 8 := hat 3 (by decide)
  unfold word
  rw [h₀, h₁, h₂, h₃]
  exact bytes_append value

theorem setWord_outside {x value : Word} (h : ¬ WordMemory.Within addr 4 x) : (m.setWord addr value).mem x = m.mem x := if_neg h

theorem grubSeek_snd (m : Machine) (offset : Word) :
    (m.grubSeek offset).2 = { m with filepos := if m.filemax.slt offset ∨ offset.slt 0 then m.filepos else offset } := by
  unfold grubSeek
  split <;> rfl

end Machine

/-- `kernel_t`. -/
inductive KernelType where
  | none | multiboot | linux | bigLinux | freebsd | netbsd | openbsd | chainloader
  deriving DecidableEq

end TrustedGrub.Loader
