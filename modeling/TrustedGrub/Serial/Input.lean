import TrustedGrub.CharIo.Memcheck
import TrustedGrub.Lib.Memory

/-!
# Keys from a serial line

`serial_getkey` and `serial_checkkey` of `serial.c`. Bytes come in through the device, which
is polled, and wait in a buffer of eight, whose head is translated if it is a key sequence
of the terminal. `arrive` says which bytes come in before each poll.
-/

namespace TrustedGrub.Serial
open Fips180 (Byte)
open CharIo (Word Memory)

/-- The globals, and the bytes that the device has but that have not been fetched. `clock` counts the polls. -/
structure Input where
  inputBuf : Nat → Byte
  npending : Int
  memory : Memory
  device : List Byte
  clock : Nat

/-- `sizeof (input_buf)`. -/
def inputBufSize : Int := 8

section Model
variable (arrive : Nat → List Byte) (addr : Word)

namespace Input

/-- `serial_hw_fetch`, with nothing for -1. -/
def serialHwFetch (s : Input) : Option Byte × Input :=
  match s.device ++ arrive s.clock with
  | [] => (none, { s with device := [], clock := s.clock + 1 })
  | c :: device => (some c, { s with device := device, clock := s.clock + 1 })

/-- `input_buf[npending++] = c`. -/
def put (s : Input) (c : Byte) : Input :=
  { s with inputBuf := fun k => if k = s.npending.toNat then c else s.inputBuf k, npending := s.npending + 1 }

/-- `grub_memmove` within the buffer, which is at `addr`. -/
def memmove (s : Input) (dst src : Nat) (len : Int) : Input :=
  let (ok, memory) := CharIo.memcheck s.memory (addr + .ofNat 32 dst) (.ofInt 32 len)
  { s with
    memory := memory
    inputBuf := if ok then fun k => if dst ≤ k ∧ (k : Int) < dst + len then s.inputBuf (src + (k - dst)) else s.inputBuf k else s.inputBuf }

theorem serialHwFetch_npending (s : Input) : (s.serialHwFetch arrive).2.npending = s.npending := by
  unfold serialHwFetch
  split <;> rfl

end Input

/-- The last byte of a sequence of three, and its key. -/
def threeCodeTable : List (Byte × Byte) := [(0x41, 16), (0x42, 14), (0x43, 6), (0x44, 2), (0x46, 5), (0x48, 1), (0x34, 4)]

/-- The last two bytes of a sequence of four, and its key. -/
def fourCodeTable : List ((Byte × Byte) × Byte) := [((0x31, 0x7E), 1), ((0x33, 0x7E), 4), ((0x35, 0x7E), 7), ((0x36, 0x7E), 3)]

namespace Input

/-- A sequence of `n` bytes gives way to its key. -/
def replaceHead (s : Input) (n : Nat) (ascii : Byte) : Input :=
  let npending := s.npending - (n - 1 : Nat)
  memmove addr { s with inputBuf := fun k => if k = 0 then ascii else s.inputBuf k, npending := npending } 1 n (npending - 1)

/-- `serial_translate_key_sequence`. The buffer must start with `ESC [`. -/
def translateKeySequence (s : Input) : Input :=
  if ¬ (s.inputBuf 0 = 0x1B ∧ s.inputBuf 1 = 0x5B) then s
  else
    match if 3 ≤ s.npending then threeCodeTable.find? (fun code => code.1 = s.inputBuf 2) else none with
    | some code => s.replaceHead addr 3 code.2
    | none =>
      match if 4 ≤ s.npending then fourCodeTable.find? (fun code => code.1 = (s.inputBuf 2, s.inputBuf 3)) else none with
      | some code => s.replaceHead addr 4 code.2
      | none => s

/-- The loop of `fill_input_buf`. The counter starts again with each byte, to wait for the same interval. -/
def fillLoop (nowait : Bool) (i : Nat) (s : Input) : Input :=
  if i < 10000 ∧ 0 ≤ s.npending ∧ s.npending < inputBufSize then
    match (s.serialHwFetch arrive).1 with
    | some c =>
      let s := (s.serialHwFetch arrive).2.put c
      if nowait then s else fillLoop nowait 1 s
    | none =>
      let s := (s.serialHwFetch arrive).2
      if nowait then s else fillLoop nowait (i + 1) s
  else s
termination_by ((inputBufSize - s.npending).toNat, 10000 - i)
decreasing_by
  · apply Prod.Lex.left
    simp only [put, serialHwFetch_npending]
    omega
  · rw [serialHwFetch_npending]
    apply Prod.Lex.right
    omega

/-- `fill_input_buf`. -/
def fillInputBuf (nowait : Bool) (s : Input) : Input := (s.fillLoop arrive nowait 0).translateKeySequence addr

/-- Fill the buffer until there is something in it. -/
def waitInput : Nat → Input → Option Input
  | 0, _ => none
  | fuel + 1, s =>
    let s := s.fillInputBuf arrive addr false
    if s.npending = 0 then waitInput fuel s else some s

/-- `serial_getkey`. Characters are signed. -/
def getkey (fuel : Nat) (s : Input) : Option (Word × Input) :=
  (s.waitInput arrive addr fuel).map fun s =>
    ((s.inputBuf 0).signExtend 32, memmove addr { s with npending := s.npending - 1 } 0 1 (s.npending - 1))

/-- `serial_checkkey`. -/
def checkkey (s : Input) : Word × Input :=
  let s := s.fillInputBuf arrive addr true
  (if s.npending ≠ 0 then (s.inputBuf 0).signExtend 32 else -1, s)

end Input

end Model

end TrustedGrub.Serial
