import TrustedGrub.Netboot.Tftp

/-!
# Reading what a server acknowledges

The options of an acknowledgement as texts, and what the client reads of them.
-/

namespace TrustedGrub.Netboot
open Fips180 (Byte)
open Disk (digitOf)
open Memory (slice)
open Numeral (digits value valueFrom written)

/-- An option that a server acknowledges. -/
inductive Grant where
  | blksize
  | tsize
  deriving DecidableEq

/-- A number in decimal. -/
def decimal (n : Nat) : List Byte := (written 10 32 n).reverse.map CharIo.shownDigit

def Grant.name : Grant → List Byte
  | .blksize => Builtins.ascii "blksize"
  | .tsize => Builtins.ascii "tsize"

def Grant.value (size total : Nat) : Grant → Nat
  | .blksize => size
  | .tsize => total

def Grant.text (size total : Nat) (g : Grant) : List Byte := g.name ++ [0] ++ decimal (g.value size total) ++ [0]

variable {u : Nat → Byte} {p e n size total : Nat} {a : Agreed} {g : Grant} {s t rest : List Byte}

theorem decLoop_eq (s : List Byte) (acc : Nat) :
    decLoop s (.ofNat 32 acc) = (.ofNat 32 (valueFrom 10 acc (digits (digitOf 10) s)), (digits (digitOf 10) s).length) := by
  induction s generalizing acc with
  | nil => rfl
  | cons c s ih =>
    rw [decLoop]
    cases hc : digitOf 10 c with
    | none =>
      rw [Numeral.digits_of_none hc]
      rfl
    | some d =>
      have hstep : BitVec.ofNat 32 acc * 10 + BitVec.ofNat 32 d = BitVec.ofNat 32 (acc * 10 + d) := by
        rw [BitVec.ofNat_add, BitVec.ofNat_mul]
        rfl
      dsimp only
      rw [Numeral.digits_of_some hc, Numeral.valueFrom_cons, List.length_cons, hstep, ih]

theorem decimal_ne_nil (n : Nat) : decimal n ≠ [] := by
  rw [decimal, Ne, List.map_eq_nil_iff, List.reverse_eq_nil_iff]
  exact Numeral.written_ne_nil (by decide)

/-- A number that is ended by a zero is read back. -/
theorem getdec_decimal (hn : n < 2 ^ 31) (rest : List Byte) : getdec (decimal n ++ 0 :: rest) = ((n : Int), (decimal n).length) := by
  have hend : ∀ c ∈ (0 :: rest : List Byte).head?, digitOf 10 c = none := by
    rintro _ ⟨⟩
    rfl
  obtain ⟨hdigits, -, hvalue⟩ := CharIo.read_written (.inl rfl) (show n ≤ 0x7FFFFFFF by omega) hend
  have hrun : digits (digitOf 10) (decimal n ++ 0 :: rest) = (written 10 32 n).reverse := hdigits
  have hfirst : digitOf 10 ((decimal n ++ 0 :: rest).headD 0) ≠ none := by
    cases htext : decimal n ++ 0 :: rest with
    | nil => exact absurd (List.append_eq_nil_iff.1 htext).1 (decimal_ne_nil n)
    | cons c s =>
      intro hnone
      rw [htext, Numeral.digits_of_none (c := c) hnone, eq_comm, List.reverse_eq_nil_iff] at hrun
      exact Numeral.written_ne_nil (by decide) hrun
  have hscan : decLoop (decimal n ++ 0 :: rest) 0 = (.ofNat 32 n, (decimal n).length) := by
    have hloop := decLoop_eq (decimal n ++ 0 :: rest) 0
    rw [hrun, show valueFrom 10 0 (written 10 32 n).reverse = n from hvalue] at hloop
    rw [decimal, List.length_map]
    exact hloop
  have hint : (BitVec.ofNat 32 n).toInt = n := by
    rw [BitVec.toInt_eq_toNat_of_lt] <;> rw [BitVec.toNat_ofNat] <;> omega
  unfold getdec
  rw [if_neg fun h => hfirst (Option.isNone_iff_eq_none.1 h), hscan]
  exact congrArg (·, _) hint

/-- A text in two pieces. -/
theorem slice_append_iff : slice u p (s ++ t).length = s ++ t ↔ slice u p s.length = s ∧ slice u (p + s.length) t.length = t := by
  rw [List.length_append, Memory.slice_add]
  refine ⟨fun h => List.append_inj h (Memory.slice_length u p _), ?_⟩
  rintro ⟨hs, ht⟩
  rw [hs, ht]

theorem cell_of_slice {c : Byte} (h : slice u p (c :: t).length = c :: t) : u p = c := by
  rw [List.length_cons, Memory.slice_succ] at h
  exact (List.cons.inj h).1

/-- The number at a place, with room behind it up to the end of the packet. -/
theorem getdec_slice (hn : n < 2 ^ 31) (h : slice u p (decimal n ++ [0]).length = decimal n ++ [0])
    (hroom : p + (decimal n ++ [0]).length ≤ packetEnd) :
    getdec (slice u p (packetEnd - p)) = ((n : Int), (decimal n).length) := by
  obtain ⟨k, hk⟩ : ∃ k, packetEnd - p = (decimal n ++ [0]).length + k := ⟨packetEnd - p - (decimal n ++ [0]).length, by omega⟩
  rw [hk, Memory.slice_add, h, List.append_assoc]
  exact getdec_decimal hn _

theorem Grant.name_cases (g : Grant) : g = .blksize ∧ g.name.length = 7 ∨ g = .tsize ∧ g.name.length = 5 := by
  cases g
  · exact .inl ⟨rfl, rfl⟩
  · exact .inr ⟨rfl, rfl⟩

theorem named_blksize (h : slice u p (Grant.blksize.name ++ [0]).length = Grant.blksize.name ++ [0]) : named "blksize" u p = true :=
  decide_eq_true h

/-- The first characters tell the two options apart. -/
theorem named_tsize (h : slice u p (Grant.tsize.name ++ [0]).length = Grant.tsize.name ++ [0]) :
    named "blksize" u p = false ∧ named "tsize" u p = true := by
  refine ⟨decide_eq_false fun h' => ?_, decide_eq_true h⟩
  have hfirst : u p = 0x74 := cell_of_slice h
  have hother : u p = 0x62 := cell_of_slice h'
  exact absurd (hfirst.symm.trans hother) (by decide)

/-- What an acknowledged option makes of what is agreed. -/
def Grant.agreed (size total : Nat) (a : Agreed) : Grant → Agreed
  | .blksize => { a with packetsize := size }
  | .tsize => { a with filemax := total }

/-- One option that a server acknowledges is read; a block size that is too small is refused. -/
theorem oackOption_text (hsize : size < 2 ^ 31) (htotal : total < 2 ^ 31) (g : Grant)
    (h : slice u p (g.text size total).length = g.text size total)
    (hroom : p + (g.text size total).length ≤ packetEnd) :
    oackOption u p a = (if g = .blksize ∧ size < 512 then none else some (p + (g.text size total).length - 1), g.agreed size total a) := by
  rw [Grant.text, List.append_assoc, List.length_append] at hroom
  rw [Grant.text, List.append_assoc, slice_append_iff] at h
  obtain ⟨hname, hnumber⟩ := h
  rw [Grant.text, List.append_assoc, List.length_append, ← Nat.add_assoc]
  rw [← Nat.add_assoc] at hroom
  obtain ⟨rfl, hlen⟩ | ⟨rfl, hlen⟩ := g.name_cases
  · have hlen : (Grant.blksize.name ++ [0]).length = 8 := by rw [List.length_append, hlen]; rfl
    rw [hlen] at hnumber hroom ⊢
    have hvalue : getdec (slice u (p + 8) (packetEnd - (p + 8))) = ((size : Int), (decimal size).length) := getdec_slice hsize hnumber hroom
    have hsmall : ((size : Int) < tftpDefaultsizePacket) ↔ size < 512 := by
      rw [tftpDefaultsizePacket]
      omega
    rw [oackOption, if_pos (named_blksize hname), hvalue]
    simp only [hsmall, true_and, Grant.value, List.length_append, List.length_singleton, Grant.agreed]
    rfl
  · have hlen : (Grant.tsize.name ++ [0]).length = 6 := by rw [List.length_append, hlen]; rfl
    rw [hlen] at hnumber hroom ⊢
    obtain ⟨hother, hnamed⟩ := named_tsize hname
    have hvalue : getdec (slice u (p + 6) (packetEnd - (p + 6))) = ((total : Int), (decimal total).length) :=
      getdec_slice htotal hnumber hroom
    have hneg : ¬ (total : Int) < 0 := by omega
    rw [oackOption, hother, hnamed, if_neg Bool.false_ne_true, if_pos rfl, hvalue]
    dsimp only
    rw [if_neg hneg, if_neg fun h => Grant.noConfusion h.1]
    simp only [Grant.value, List.length_append, List.length_singleton, Grant.agreed]
    rfl

theorem skipText_of_zero (h : u p = 0) : skipText u n p = p := by
  cases n with
  | zero => rfl
  | succ n => rw [skipText, if_pos h]

theorem Grant.text_pos (g : Grant) : 0 < (g.text size total).length := by
  rw [Grant.text, List.length_append]
  exact Nat.succ_pos _

theorem Grant.text_first (g : Grant) (h : slice u p (g.text size total).length = g.text size total) : u p ≠ 0 := by
  cases g with
  | blksize =>
    have hfirst : u p = 0x62 := cell_of_slice h
    rw [hfirst]
    decide
  | tsize =>
    have hfirst : u p = 0x74 := cell_of_slice h
    rw [hfirst]
    decide

/-- The zero at the end of an option. -/
theorem Grant.text_last (g : Grant) (h : slice u p (g.text size total).length = g.text size total) :
    u (p + (g.text size total).length - 1) = 0 := by
  obtain ⟨s, hs⟩ : ∃ s, g.text size total = s ++ [0] := ⟨_, rfl⟩
  rw [hs] at h ⊢
  rw [List.length_append, List.length_singleton]
  exact cell_of_slice (slice_append_iff.1 h).2

/-- An option that is accepted and ends with its zero. -/
theorem oackLoop_next {a' : Agreed} {q : Nat} (hc : u p ≠ 0) (hp : p < e) (h : oackOption u p a = (some q, a')) (hq : u q = 0) (hqe : q < e)
    (fuel : Nat) : oackLoop u e (fuel + 1) p a = oackLoop u e fuel (q + 1) a' := by
  rw [oackLoop, if_pos ⟨hc, hp⟩, h]
  dsimp only
  rw [skipText_of_zero hq, if_pos hqe]

end TrustedGrub.Netboot
