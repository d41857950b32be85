import TrustedGrub.Lib.Sine
import TrustedGrub.Md5.Update

/-!
# RFC 1321

The digest as the standard writes it: sixty-four operations on the registers `A .. D`, listed with the word, the rotation and
the constant of each, the constants from the sine function. `md5_transform` computes the indices and moves the registers instead;
however a message is cut, `md5_init`, `md5_update` and `md5_final` give the standard's digest of the whole.
-/

namespace TrustedGrub.Rfc1321
open Fips180 (Byte Word)
open Md5 (Words wordAt F G H I)

/-- `T [i]`: the integer part of `4294967296` times `abs (sin (i))`, where `i` is in radians. -/
noncomputable def T (i : Nat) : Word := BitVec.ofNat 32 ⌊4294967296 * |Real.sin i|⌋₊

/-- What `[abcd k s i]` says of an operation beside its registers. -/
structure Op where
  k : Nat
  s : Nat
  i : Nat

/-- A line of the standard: `[ABCD k s i]`, `[DABC k s i]`, `[CDAB k s i]`, `[BCDA k s i]`. -/
structure Line where
  ABCD : Op
  DABC : Op
  CDAB : Op
  BCDA : Op

/-- The value of `b + ((a + f (b, c, d) + X [k] + T [i]) <<< s)`. -/
def Op.value (o : Op) (f : Word → Word → Word → Word) (t : Nat → Word) (X : Nat → Word) (a b c d : Word) : Word :=
  b + (a + f b c d + X o.k + t o.i).rotateLeft o.s

/-- A line on the registers. -/
def Line.run (f : Word → Word → Word → Word) (t : Nat → Word) (X : Nat → Word) (v : Words) (l : Line) : Words :=
  let A := l.ABCD.value f t X v.a v.b v.c v.d
  let D := l.DABC.value f t X v.d A v.b v.c
  let C := l.CDAB.value f t X v.c D A v.b
  let B := l.BCDA.value f t X v.b C D A
  ⟨A, B, C, D⟩

def round1 : List Line := [
  ⟨⟨0, 7, 1⟩, ⟨1, 12, 2⟩, ⟨2, 17, 3⟩, ⟨3, 22, 4⟩⟩,
  ⟨⟨4, 7, 5⟩, ⟨5, 12, 6⟩, ⟨6, 17, 7⟩, ⟨7, 22, 8⟩⟩,
  ⟨⟨8, 7, 9⟩, ⟨9, 12, 10⟩, ⟨10, 17, 11⟩, ⟨11, 22, 12⟩⟩,
  ⟨⟨12, 7, 13⟩, ⟨13, 12, 14⟩, ⟨14, 17, 15⟩, ⟨15, 22, 16⟩⟩]

def round2 : List Line := [
  ⟨⟨1, 5, 17⟩, ⟨6, 9, 18⟩, ⟨11, 14, 19⟩, ⟨0, 20, 20⟩⟩,
  ⟨⟨5, 5, 21⟩, ⟨10, 9, 22⟩, ⟨15, 14, 23⟩, ⟨4, 20, 24⟩⟩,
  ⟨⟨9, 5, 25⟩, ⟨14, 9, 26⟩, ⟨3, 14, 27⟩, ⟨8, 20, 28⟩⟩,
  ⟨⟨13, 5, 29⟩, ⟨2, 9, 30⟩, ⟨7, 14, 31⟩, ⟨12, 20, 32⟩⟩]

def round3 : List Line := [
  ⟨⟨5, 4, 33⟩, ⟨8, 11, 34⟩, ⟨11, 16, 35⟩, ⟨14, 23, 36⟩⟩,
  ⟨⟨1, 4, 37⟩, ⟨4, 11, 38⟩, ⟨7, 16, 39⟩, ⟨10, 23, 40⟩⟩,
  ⟨⟨13, 4, 41⟩, ⟨0, 11, 42⟩, ⟨3, 16, 43⟩, ⟨6, 23, 44⟩⟩,
  ⟨⟨9, 4, 45⟩, ⟨12, 11, 46⟩, ⟨15, 16, 47⟩, ⟨2, 23, 48⟩⟩]

def round4 : List Line := [
  ⟨⟨0, 6, 49⟩, ⟨7, 10, 50⟩, ⟨14, 15, 51⟩, ⟨5, 21, 52⟩⟩,
  ⟨⟨12, 6, 53⟩, ⟨3, 10, 54⟩, ⟨10, 15, 55⟩, ⟨1, 21, 56⟩⟩,
  ⟨⟨8, 6, 57⟩, ⟨15, 10, 58⟩, ⟨6, 15, 59⟩, ⟨13, 21, 60⟩⟩,
  ⟨⟨4, 6, 61⟩, ⟨11, 10, 62⟩, ⟨2, 15, 63⟩, ⟨9, 21, 64⟩⟩]

/-- The four rounds on a block of words. -/
def rounds (t : Nat → Word) (X : Nat → Word) (v : Words) : Words :=
  round4.foldl (Line.run I t X) (round3.foldl (Line.run H t X) (round2.foldl (Line.run G t X) (round1.foldl (Line.run F t X) v)))

/-- A block of sixty-four bytes, which are words with the low-order byte first. -/
noncomputable def block (v : Words) (bytes : List Byte) : Words :=
  let w := rounds T (wordAt bytes) v
  ⟨v.a + w.a, v.b + w.b, v.c + w.c, v.d + w.d⟩

/-- The registers at the start, low-order bytes first. -/
def initial : Words :=
  let bytes : List Byte := [0x01, 0x23, 0x45, 0x67, 0x89, 0xab, 0xcd, 0xef, 0xfe, 0xdc, 0xba, 0x98, 0x76, 0x54, 0x32, 0x10]
  ⟨wordAt bytes 0, wordAt bytes 1, wordAt bytes 2, wordAt bytes 3⟩

/-- The digest of a message: the registers, low-order bytes first. -/
noncomputable def digest (m : List Byte) : List Byte := (BlockHash.absorb 64 block initial (Md5.pad m)).bytes

/-! ## The constants -/

/-- The constants in the text of the program are those of the standard. -/
theorem T_eq {i : Nat} (hi : i < 64) : T (i + 1) = Md5.T.getD i 0 := by
  have hall : ∀ i < 64, (Md5.T.getD i 0).toNat * 2 ^ 88 + Sine.error (i + 1) ≤ (Sine.fixed (i + 1)).1.natAbs ∧
      (Sine.fixed (i + 1)).1.natAbs + Sine.error (i + 1) < ((Md5.T.getD i 0).toNat + 1) * 2 ^ 88 := by decide +kernel
  obtain ⟨hlow, hhigh⟩ := hall i hi
  rw [T, show (4294967296 : ℝ) = 2 ^ 32 by norm_num, Sine.floor_sin (by omega) hlow hhigh, BitVec.ofNat_toNat, BitVec.setWidth_eq]

/-! ## `md5_transform` -/

theorem rotateLeft_eq (x : Word) {n : Nat} (hn : n < 32) : x.rotateLeft n = Md5.rotateLeft x n := by
  rw [BitVec.rotateLeft_def, Nat.mod_eq_of_lt hn, Md5.rotateLeft]

/-- A step of the program: the registers move on, so that the new value is always of the second. -/
def step (f : Word → Word → Word → Word) (w t : Word) (s : Nat) (v : Words) : Words :=
  ⟨v.d, Md5.rotateLeft (v.a + f v.b v.c v.d + w + t) s + v.b, v.b, v.c⟩

/-- The operations of a line in their order. -/
def Line.ops (l : Line) : List Op := [l.ABCD, l.DABC, l.CDAB, l.BCDA]

/-- A rotation is one of a word, and a constant is in the table. -/
def Op.Listed (o : Op) : Prop := o.s < 32 ∧ 0 < o.i ∧ o.i ≤ 64

instance (o : Op) : Decidable o.Listed := inferInstanceAs (Decidable (_ ∧ _))

/-- The step of the program that does an operation. -/
def Op.step (f : Word → Word → Word → Word) (X : Nat → Word) (v : Words) (o : Op) : Words :=
  Rfc1321.step f (X o.k) (Md5.T.getD (o.i - 1) 0) o.s v

/-- After four steps the registers are back in their places. -/
theorem run_eq (f : Word → Word → Word → Word) (X : Nat → Word) (v : Words) {l : Line} (hl : ∀ o ∈ l.ops, o.Listed) :
    l.run f T X v = l.ops.foldl (Op.step f X) v := by
  have hvalue (o : Op) (ho : o ∈ l.ops) (a b c d : Word) :
      o.value f T X a b c d = Md5.rotateLeft (a + f b c d + X o.k + Md5.T.getD (o.i - 1) 0) o.s + b := by
    obtain ⟨hs, hpos, hi⟩ := hl o ho
    have hconst := T_eq (show o.i - 1 < 64 by omega)
    rw [Nat.sub_add_cancel hpos] at hconst
    rw [Op.value, rotateLeft_eq _ hs, hconst, BitVec.add_comm]
  simp only [Line.run, hvalue _ (show l.ABCD ∈ l.ops by simp [Line.ops]), hvalue _ (show l.DABC ∈ l.ops by simp [Line.ops]),
    hvalue _ (show l.CDAB ∈ l.ops by simp [Line.ops]), hvalue _ (show l.BCDA ∈ l.ops by simp [Line.ops])]
  rfl

/-- **A round**: the lines one after the other are the steps one after the other. -/
theorem lines_eq (f : Word → Word → Word → Word) (X : Nat → Word) {lines : List Line} (h : ∀ l ∈ lines, ∀ o ∈ l.ops, o.Listed) (v : Words) :
    lines.foldl (Line.run f T X) v = (lines.flatMap Line.ops).foldl (Op.step f X) v := by
  induction lines generalizing v with
  | nil => rfl
  | cons l lines ih =>
    rw [List.foldl_cons, List.flatMap_cons, List.foldl_append, run_eq f X v (h l List.mem_cons_self)]
    exact ih (fun l hl => h l (List.mem_cons_of_mem _ hl)) _

/-- The indices that `md5_transform` computes are those of the lists. -/
theorem rounds_eq (bytes : List Byte) (v : Words) :
    rounds T (wordAt bytes) v =
      Md5.round I Md5.s4 (fun i => 7 * i % 16) 48 bytes (Md5.round H Md5.s3 (fun i => (5 + 3 * i) % 16) 32 bytes
        (Md5.round G Md5.s2 (fun i => (1 + 5 * i) % 16) 16 bytes (Md5.round F Md5.s1 (fun i => i) 0 bytes v))) := by
  have hF (v : Words) : round1.foldl (Line.run F T (wordAt bytes)) v = Md5.round F Md5.s1 (fun i => i) 0 bytes v := by
    rw [lines_eq F _ (by decide)]
    rfl
  have hG (v : Words) : round2.foldl (Line.run G T (wordAt bytes)) v = Md5.round G Md5.s2 (fun i => (1 + 5 * i) % 16) 16 bytes v := by
    rw [lines_eq G _ (by decide)]
    rfl
  have hH (v : Words) : round3.foldl (Line.run H T (wordAt bytes)) v = Md5.round H Md5.s3 (fun i => (5 + 3 * i) % 16) 32 bytes v := by
    rw [lines_eq H _ (by decide)]
    rfl
  have hI (v : Words) : round4.foldl (Line.run I T (wordAt bytes)) v = Md5.round I Md5.s4 (fun i => 7 * i % 16) 48 bytes v := by
    rw [lines_eq I _ (by decide)]
    rfl
  rw [rounds, hF, hG, hH, hI]

theorem block_eq : block = Md5.md5Transform := by
  funext v bytes
  rw [block, rounds_eq]
  rfl

theorem initial_eq : initial = Md5.initstate := by decide

theorem digest_eq (m : List Byte) : digest m = (Md5.digest m).bytes := by rw [digest, block_eq, initial_eq, Md5.digest]

/-! ## Messages in chunks -/

/-- Feeding the chunks one after another. -/
def updates (ctx : Md5.Context) (chunks : List (List Byte)) : Md5.Context := chunks.foldl Md5.md5Update ctx

/-- **The run**: after the chunks the context stands for their concatenation. -/
theorem updates_represents {places : Md5.Places} {memory : CharIo.Memory} {ctx : Md5.Context} {m : List Byte}
    (h : Md5.Represents places memory ctx m) (chunks : List (List Byte)) :
    Md5.Represents places memory (updates ctx chunks) (m ++ chunks.flatten) := by
  induction chunks generalizing ctx m with
  | nil =>
    rw [List.flatten_nil, List.append_nil]
    exact h
  | cons chunk chunks ih =>
    rw [List.flatten_cons, ← List.append_assoc]
    exact ih (Md5.update_represents h chunk)

/-- `md5_init`, the updates and `md5_final` give the standard's digest of every message of fewer than `2 ^ 29` bytes, however it is cut. -/
def Digests (ctx : Md5.Context) : Prop :=
  ∀ chunks : List (List Byte), chunks.flatten.length < 2 ^ 29 →
    (Md5.md5Final (updates (Md5.md5Init ctx) chunks)).state.bytes = digest chunks.flatten

theorem digests_of_clear {ctx : Md5.Context} (h : ctx.Clear) : Digests ctx := by
  intro chunks hlength
  have hrun := updates_represents (Md5.init_represents h) chunks
  rw [List.nil_append] at hrun
  rw [Md5.final_represents hrun hlength, digest_eq]

/-- The copy of a whole block is refused, in `md5_init` or after it. -/
theorem block_refused {ctx : Md5.Context} (h : ¬ ctx.Clear) :
    ((Md5.md5Init ctx).memcheck ((Md5.md5Init ctx).places.buffer + 0) 64).1 = false := by
  rw [← Bool.not_eq_true]
  intro hyes
  apply h
  obtain ⟨herr, hbuffer⟩ := CharIo.memcheck_iff.1 hyes
  have hinit : (CharIo.memcheck ctx.memory (.ofNat 32 ctx.places.state) 16).1 = true := decide_eq_true herr
  obtain ⟨herr, hstate⟩ := CharIo.memcheck_iff.1 hinit
  refine ⟨herr, hstate, ?_⟩
  have hkept : (CharIo.memcheck ctx.memory (.ofNat 32 ctx.places.state) 16).2 = ctx.memory := by
    unfold CharIo.memcheck
    rw [hstate]
    rfl
  have hmemory : (Md5.md5Init ctx).memory = ctx.memory := hkept
  rw [hmemory] at hbuffer
  exact hbuffer

/-- Where it is refused, no byte of the block has a part in what follows. -/
theorem update_refused {ctx : Md5.Context} (h : (ctx.memcheck (ctx.places.buffer + 0) 64).1 = false) (hlength : ctx.length = 0)
    {block block' : List Byte} (hblock : block.length = 64) (hblock' : block'.length = 64) :
    Md5.md5Update ctx block = Md5.md5Update ctx block' := by
  have hcopy {bytes : List Byte} (hbytes : bytes.length = 64) :
      ({ ctx with length := ctx.length + BitVec.ofNat 32 64 } : Md5.Context).copyToBuffer 0 bytes =
        (({ ctx with length := ctx.length + BitVec.ofNat 32 64 } : Md5.Context).memcheck (ctx.places.buffer + 0) 64).2 := by
    have hno : (({ ctx with length := ctx.length + BitVec.ofNat 32 64 } : Md5.Context).memcheck (ctx.places.buffer + 0) (.ofNat 32 64)).1 =
      false := h
    unfold Md5.Context.copyToBuffer
    rw [hbytes]
    dsimp only
    rw [hno]
    rfl
  have hupdate {bytes : List Byte} (hbytes : bytes.length = 64) : Md5.md5Update ctx bytes =
      { (({ ctx with length := ctx.length + BitVec.ofNat 32 64 } : Md5.Context).memcheck (ctx.places.buffer + 0) 64).2 with
        state := Md5.md5Transform ctx.state ctx.buffer.toList }.copyToBuffer 0 [] := by
    have hbuflen : (ctx.length &&& 63#32).toNat = 0 := by
      rw [hlength]
      rfl
    unfold Md5.md5Update
    rw [hbuflen, hbytes, if_neg (by decide), Nat.sub_zero, List.take_of_length_le (Nat.le_of_eq hbytes),
      List.drop_of_length_le (Nat.le_of_eq hbytes),
      hcopy hbytes]
    rfl
  rw [hupdate hblock, hupdate hblock']

theorem blocks_differ : (Md5.digest (List.replicate 64 0x61)).bytes ≠ (Md5.digest (List.replicate 64 0x62)).bytes := by decide +kernel

/-- **Chunking**: every message, however it is cut, is given the standard's digest, whatever the statics held before, if and only
if no error is pending and `memcheck` accepts the statics. -/
theorem updates_digest_iff (ctx : Md5.Context) : Digests ctx ↔ ctx.Clear := by
  refine ⟨fun hall => ?_, digests_of_clear⟩
  by_contra hnot
  have hsame : updates (Md5.md5Init ctx) [List.replicate 64 0x61] = updates (Md5.md5Init ctx) [List.replicate 64 0x62] :=
    update_refused (block_refused hnot) rfl List.length_replicate List.length_replicate
  have hfirst := hall [List.replicate 64 0x61] (by decide)
  have hsecond := hall [List.replicate 64 0x62] (by decide)
  rw [hsame, hsecond, digest_eq, digest_eq, List.flatten_singleton, List.flatten_singleton] at hfirst
  exact blocks_differ hfirst.symm

/-- The statics before their first use, while the error of a read is pending. -/
def pending : Md5.Context := { Md5.Context.zeroed with memory := ⟨.read, 640, 64512⟩ }

/-- The digest of `abc` is not the standard's then. -/
theorem pending_misdigests : ¬ Digests pending := by
  intro hall
  have habc := hall [[0x61, 0x62, 0x63]] (by decide)
  rw [digest_eq] at habc
  revert habc
  decide +kernel

end TrustedGrub.Rfc1321
