import TrustedGrub.Serial.Input

/-!
# The buffer as a queue

The bytes that are pending, the key sequence at their head folded. While `errnum` is clear,
`serial_getkey` and `serial_checkkey` do to the buffer what `Line` does to the queue. With an
error the buffer is not moved, because `grub_memmove` does nothing then.
-/

namespace TrustedGrub.Serial
open Fips180 (Byte)
open CharIo (Word wontFit)
open Memory (slice)

/-! ## The queue -/

/-- The bytes in the buffer, those in the device, and the number of polls. -/
structure Line where
  pending : List Byte
  device : List Byte
  clock : Nat

/-- The key sequences of the terminal, and their keys. -/
def sequences : List (List Byte × Byte) :=
  threeCodeTable.map (fun code => ([0x1B, 0x5B, code.1], code.2)) ++
    fourCodeTable.map fun code => ([0x1B, 0x5B, code.1.1, code.1.2], code.2)

/-- The head of the bytes, if it is a sequence, as a key. -/
def folded (bytes : List Byte) : List Byte :=
  match sequences.find? (fun code => code.1.isPrefixOf bytes) with
  | some code => code.2 :: bytes.drop code.1.length
  | none => bytes

section Queue
variable (arrive : Nat → List Byte)

namespace Line

def fetch (l : Line) : Option Byte × Line :=
  match l.device ++ arrive l.clock with
  | [] => (none, ⟨l.pending, [], l.clock + 1⟩)
  | c :: device => (some c, ⟨l.pending ++ [c], device, l.clock + 1⟩)

theorem fetch_some {l : Line} {c : Byte} (h : (l.fetch arrive).1 = some c) : (l.fetch arrive).2.pending = l.pending ++ [c] := by
  unfold fetch at h ⊢
  split at h
  · cases h
  · cases h
    rfl

theorem fetch_none {l : Line} (h : (l.fetch arrive).1 = none) :
    (l.fetch arrive).2.pending = l.pending ∧ (l.fetch arrive).2.device = [] := by
  unfold fetch at h ⊢
  split at h
  · exact ⟨rfl, rfl⟩
  · cases h

/-- Bytes are fetched until the buffer is full, or none has come for long enough. -/
def gather (nowait : Bool) (i : Nat) (l : Line) : Line :=
  if i < 10000 ∧ l.pending.length < 8 then
    if hsome : (l.fetch arrive).1.isSome then
      if nowait then (l.fetch arrive).2 else gather nowait 1 (l.fetch arrive).2
    else if nowait then (l.fetch arrive).2 else gather nowait (i + 1) (l.fetch arrive).2
  else l
termination_by (8 - l.pending.length, 10000 - i)
decreasing_by
  · obtain ⟨c, hc⟩ := Option.isSome_iff_exists.1 hsome
    apply Prod.Lex.left
    rw [fetch_some arrive hc, List.length_append, List.length_singleton]
    omega
  · rw [(fetch_none arrive (Option.not_isSome_iff_eq_none.1 hsome)).1]
    apply Prod.Lex.right
    omega

def fill (nowait : Bool) (l : Line) : Line := { l.gather arrive nowait 0 with pending := folded (l.gather arrive nowait 0).pending }

def wait : Nat → Line → Option Line
  | 0, _ => none
  | fuel + 1, l => if (l.fill arrive false).pending = [] then wait fuel (l.fill arrive false) else some (l.fill arrive false)

def getkey (fuel : Nat) (l : Line) : Option (Word × Line) :=
  (l.wait arrive fuel).map fun l => ((l.pending.headD 0).signExtend 32, { l with pending := l.pending.tail })

def checkkey (l : Line) : Word × Line :=
  (if (l.fill arrive true).pending ≠ [] then ((l.fill arrive true).pending.headD 0).signExtend 32 else -1, l.fill arrive true)

end Line

end Queue

/-! ## The buffer as a queue -/

namespace Input

/-- The bytes in the buffer. -/
def pending (s : Input) : List Byte := slice s.inputBuf 0 s.npending.toNat

def line (s : Input) : Line := ⟨s.pending, s.device, s.clock⟩

/-- The buffer holds at most eight bytes. -/
structure Bounded (s : Input) : Prop where
  low : 0 ≤ s.npending
  high : s.npending ≤ 8

/-- No error is pending, and the buffer at `addr` passes `memcheck`. -/
structure Movable (addr : Word) (s : Input) : Prop where
  clean : s.memory.errnum = .none
  fits : ∀ off n : Nat, off + n ≤ 8 → wontFit s.memory (addr + .ofNat 32 off) (.ofNat 32 n) = false

end Input

section Refinement
variable {arrive : Nat → List Byte} {addr : Word} {s : Input} {c : Byte}

theorem pending_length (s : Input) : s.pending.length = s.npending.toNat := Memory.slice_length _ _ _

theorem put_pending (h : s.Bounded) (c : Byte) : (s.put c).pending = s.pending ++ [c] := by
  have hsucc : (s.npending + 1).toNat = s.npending.toNat + 1 := by
    have := h.low
    omega
  have hbefore : slice (s.put c).inputBuf 0 s.npending.toNat = slice s.inputBuf 0 s.npending.toNat := by
    refine Memory.slice_congr fun x _ hx => ?_
    rw [Nat.zero_add] at hx
    exact if_neg (Nat.ne_of_lt hx)
  have hlast : (s.put c).inputBuf (0 + s.npending.toNat) = c := by
    rw [Nat.zero_add]
    exact if_pos rfl
  unfold Input.pending
  rw [show (s.put c).npending = s.npending + 1 from rfl, hsucc, Memory.slice_add, hbefore, Memory.slice_succ, hlast, Memory.slice_zero]

theorem fetch_first (s : Input) : (s.line.fetch arrive).1 = (s.serialHwFetch arrive).1 := by
  unfold Line.fetch Input.serialHwFetch Input.line
  cases s.device ++ arrive s.clock <;> rfl

theorem fetch_put (h : s.Bounded) (hfetch : (s.serialHwFetch arrive).1 = some c) :
    ((s.serialHwFetch arrive).2.put c).line = (s.line.fetch arrive).2 := by
  unfold Line.fetch
  unfold Input.serialHwFetch at hfetch ⊢
  rw [show s.line.device ++ arrive s.line.clock = s.device ++ arrive s.clock from rfl]
  cases hline : s.device ++ arrive s.clock with
  | nil =>
    rw [hline] at hfetch
    cases hfetch
  | cons d device =>
    rw [hline] at hfetch
    cases hfetch
    exact congrArg (fun bytes => Line.mk bytes device (s.clock + 1)) (put_pending h _)

theorem fetch_wait (hfetch : (s.serialHwFetch arrive).1 = none) : (s.serialHwFetch arrive).2.line = (s.line.fetch arrive).2 := by
  unfold Line.fetch
  unfold Input.serialHwFetch at hfetch ⊢
  rw [show s.line.device ++ arrive s.line.clock = s.device ++ arrive s.clock from rfl]
  cases hline : s.device ++ arrive s.clock with
  | nil => rfl
  | cons d device =>
    rw [hline] at hfetch
    cases hfetch

theorem fetch_memory (s : Input) : (s.serialHwFetch arrive).2.memory = s.memory := by
  unfold Input.serialHwFetch
  split <;> rfl

theorem Line.gather_some {nowait : Bool} {i : Nat} {l : Line} (hroom : i < 10000 ∧ l.pending.length < 8)
    (hfetch : (l.fetch arrive).1 = some c) :
    l.gather arrive nowait i = if nowait then (l.fetch arrive).2 else (l.fetch arrive).2.gather arrive nowait 1 := by
  rw [Line.gather, if_pos hroom, dif_pos (by rw [hfetch]; rfl)]

theorem Line.gather_none {nowait : Bool} {i : Nat} {l : Line} (hroom : i < 10000 ∧ l.pending.length < 8)
    (hfetch : (l.fetch arrive).1 = none) :
    l.gather arrive nowait i = if nowait then (l.fetch arrive).2 else (l.fetch arrive).2.gather arrive nowait (i + 1) := by
  rw [Line.gather, if_pos hroom, dif_neg (by rw [hfetch]; exact Bool.false_ne_true)]

theorem Input.Bounded.room (h : s.Bounded) : s.line.pending.length < 8 ↔ 0 ≤ s.npending ∧ s.npending < inputBufSize := by
  have hlow := h.low
  rw [show s.line.pending = s.pending from rfl, pending_length]
  unfold inputBufSize
  omega

theorem Input.Bounded.put (h : s.Bounded) (hroom : s.npending < inputBufSize) (c : Byte) :
    ((s.serialHwFetch arrive).2.put c).Bounded := by
  have hnpending : ((s.serialHwFetch arrive).2.put c).npending = s.npending + 1 :=
    congrArg (· + 1) (s.serialHwFetch_npending arrive)
  have hlow := h.low
  unfold inputBufSize at hroom
  exact ⟨by omega, by omega⟩

/-- The loop of `fill_input_buf` gathers bytes in the queue. -/
theorem fillLoop_line (arrive : Nat → List Byte) (nowait : Bool) (i : Nat) (s : Input) (h : s.Bounded) :
    (s.fillLoop arrive nowait i).line = s.line.gather arrive nowait i ∧ (s.fillLoop arrive nowait i).Bounded ∧
      (s.fillLoop arrive nowait i).memory = s.memory := by
  fun_induction Input.fillLoop arrive nowait i s with
  | case1 i s hroom c hfetch next hnowait =>
    have hfirst := (fetch_first s).trans hfetch
    rw [Line.gather_some ⟨hroom.1, h.room.2 hroom.2⟩ hfirst, if_pos hnowait]
    exact ⟨fetch_put h hfetch, h.put hroom.2.2 c, fetch_memory s⟩
  | case2 i s hroom c hfetch next hwait ih =>
    have hfirst := (fetch_first s).trans hfetch
    obtain ⟨hline, hbounded, hmemory⟩ := ih (h.put hroom.2.2 c)
    rw [Line.gather_some ⟨hroom.1, h.room.2 hroom.2⟩ hfirst, if_neg hwait, ← fetch_put h hfetch]
    exact ⟨hline, hbounded, hmemory.trans (fetch_memory s)⟩
  | case3 i s hroom hfetch next hnowait =>
    have hfirst := (fetch_first s).trans hfetch
    have hnpending := s.serialHwFetch_npending arrive
    rw [Line.gather_none ⟨hroom.1, h.room.2 hroom.2⟩ hfirst, if_pos hnowait]
    exact ⟨fetch_wait hfetch, ⟨hnpending ▸ h.low, hnpending ▸ h.high⟩, fetch_memory s⟩
  | case4 i s hroom hfetch next hwait ih =>
    have hfirst := (fetch_first s).trans hfetch
    have hnpending := s.serialHwFetch_npending arrive
    obtain ⟨hline, hbounded, hmemory⟩ := ih ⟨hnpending ▸ h.low, hnpending ▸ h.high⟩
    rw [Line.gather_none ⟨hroom.1, h.room.2 hroom.2⟩ hfirst, if_neg hwait, ← fetch_wait hfetch]
    exact ⟨hline, hbounded, hmemory.trans (fetch_memory s)⟩
  | case5 i s hfull =>
    rw [Line.gather, if_neg fun hroom => hfull ⟨hroom.1, h.room.1 hroom.2⟩]
    exact ⟨rfl, h, rfl⟩

/-! ## The head -/

theorem slice_drop {B : Type} (m : Nat → B) {n k : Nat} (h : k ≤ n) : (slice m 0 n).drop k = slice m k (n - k) := by
  obtain ⟨j, rfl⟩ := Nat.exists_eq_add_of_le h
  rw [Memory.slice_add, List.drop_left' (Memory.slice_length m 0 k), Nat.zero_add, Nat.add_sub_cancel_left]

/-- Where the buffer passes the check, a move within it moves. -/
theorem memmove_eq (h : s.Movable addr) (dst src : Nat) {n : Nat} (hn : dst + n ≤ 8) : s.memmove addr dst src n =
    { s with inputBuf := fun k => if dst ≤ k ∧ k < dst + n then s.inputBuf (src + (k - dst)) else s.inputBuf k } := by
  have hcheck : CharIo.memcheck s.memory (addr + .ofNat 32 dst) (.ofInt 32 n) = (true, s.memory) := by
    have hfits := h.fits dst n hn
    unfold CharIo.memcheck
    rw [BitVec.ofInt_natCast]
    simp only [hfits, Bool.false_eq_true, if_false, h.clean, decide_true]
  unfold Input.memmove
  rw [hcheck]
  dsimp only
  rw [if_pos rfl]
  congr 1
  funext k
  congr 1
  apply propext
  omega

theorem Input.Movable.congr {s' : Input} (h : s.Movable addr) (hmemory : s'.memory = s.memory) : s'.Movable addr :=
  ⟨hmemory ▸ h.clean, hmemory ▸ h.fits⟩

theorem replaceHead_line (h : s.Movable addr) (hb : s.Bounded) {n : Nat} {ascii : Byte} (hpos : 2 ≤ n) (hn : (n : Int) ≤ s.npending) :
    (s.replaceHead addr n ascii).line = { s.line with pending := ascii :: s.pending.drop n } ∧
      (s.replaceHead addr n ascii).Bounded ∧ (s.replaceHead addr n ascii).memory = s.memory := by
  have hhigh := hb.high
  obtain ⟨rest, hrest⟩ := Int.eq_ofNat_of_zero_le (Int.sub_nonneg.2 hn)
  have hlen : s.npending - ((n - 1 : Nat) : Int) = rest + 1 := by omega
  have hlen' : s.npending - ((n - 1 : Nat) : Int) - 1 = rest := by omega
  have htotal : s.npending.toNat = n + rest := by omega
  have hmovable : Input.Movable addr { s with inputBuf := fun k => if k = 0 then ascii else s.inputBuf k, npending := rest + 1 } :=
    h.congr rfl
  have hmove := memmove_eq hmovable 1 n (show 1 + rest ≤ 8 by omega)
  have hbuf : s.replaceHead addr n ascii = { s with
      inputBuf := fun k => if 1 ≤ k ∧ k < 1 + rest then if n + (k - 1) = 0 then ascii else s.inputBuf (n + (k - 1))
        else if k = 0 then ascii else s.inputBuf k
      npending := rest + 1 } := by
    unfold Input.replaceHead
    dsimp only
    rw [hlen', hlen]
    exact hmove
  rw [hbuf]
  refine ⟨?_, ⟨?_, ?_⟩, rfl⟩
  · unfold Input.line Input.pending
    dsimp only
    congr 1
    rw [htotal, slice_drop _ (Nat.le_add_right n rest), Nat.add_sub_cancel_left, show ((rest : Int) + 1).toNat = rest + 1 by omega,
      Memory.slice_succ, if_neg (by omega), if_pos rfl]
    congr 1
    rw [Nat.zero_add, Memory.slice_eq_iff]
    intro i hi
    rw [if_pos ⟨by omega, by omega⟩, if_neg (by omega), Nat.add_sub_cancel_left]
  · dsimp only
    omega
  · dsimp only
    omega

/-! ## The translation -/

/-- Whether the bytes begin with a sequence of three is told by three of them. -/
theorem prefix_three {b : Nat → Byte} {n : Nat} (hesc : b 0 = 0x1B ∧ b 1 = 0x5B) (k : Byte) :
    [0x1B, 0x5B, k].isPrefixOf (slice b 0 n) = decide (3 ≤ n ∧ k = b 2) := by
  rcases n with _ | _ | _ | n
  · simp
  · simp [Memory.slice_succ, List.isPrefixOf]
  · simp [Memory.slice_succ, List.isPrefixOf]
  · simp [Memory.slice_succ, List.isPrefixOf, hesc.1, hesc.2, beq_eq_decide]

theorem prefix_four {b : Nat → Byte} {n : Nat} (hesc : b 0 = 0x1B ∧ b 1 = 0x5B) (k k' : Byte) :
    [0x1B, 0x5B, k, k'].isPrefixOf (slice b 0 n) = decide (4 ≤ n ∧ (k, k') = (b 2, b 3)) := by
  rcases n with _ | _ | _ | _ | n
  · simp
  · simp [Memory.slice_succ, List.isPrefixOf]
  · simp [Memory.slice_succ, List.isPrefixOf]
  · simp [Memory.slice_succ, List.isPrefixOf]
  · simp [Memory.slice_succ, List.isPrefixOf, hesc.1, hesc.2, beq_eq_decide]

/-- Every sequence begins with `ESC [`. -/
theorem sequences_begin : ∀ code ∈ sequences, ∃ rest, code.1 = 0x1B :: 0x5B :: rest ∧ rest ≠ [] := by
  intro code hcode
  unfold sequences at hcode
  rcases List.mem_append.1 hcode with h | h
  · obtain ⟨three, -, rfl⟩ := List.mem_map.1 h
    exact ⟨_, rfl, List.cons_ne_nil _ _⟩
  · obtain ⟨four, -, rfl⟩ := List.mem_map.1 h
    exact ⟨_, rfl, List.cons_ne_nil _ _⟩

theorem folded_plain {b : Nat → Byte} {n : Nat} (hplain : ¬ (b 0 = 0x1B ∧ b 1 = 0x5B)) : folded (slice b 0 n) = slice b 0 n := by
  have hnone : sequences.find? (fun code => code.1.isPrefixOf (slice b 0 n)) = none := by
    rw [List.find?_eq_none]
    intro code hcode hbegins
    obtain ⟨rest, hbegin, hrest⟩ := sequences_begin code hcode
    rw [hbegin] at hbegins
    rcases n with _ | _ | n
    · simp at hbegins
    · simp [Memory.slice_succ, List.isPrefixOf] at hbegins
    · simp [Memory.slice_succ, List.isPrefixOf] at hbegins
      exact hplain ⟨hbegins.1.symm, hbegins.2.1.symm⟩
  unfold folded
  rw [hnone]

/-- Where the bytes begin with `ESC [`, the tables are searched one after the other. -/
theorem folded_sequence {b : Nat → Byte} {n : Nat} (hesc : b 0 = 0x1B ∧ b 1 = 0x5B) : folded (slice b 0 n) =
    match if 3 ≤ n then threeCodeTable.find? (fun code => code.1 = b 2) else none with
    | some code => code.2 :: (slice b 0 n).drop 3
    | none =>
      match if 4 ≤ n then fourCodeTable.find? (fun code => code.1 = (b 2, b 3)) else none with
      | some code => code.2 :: (slice b 0 n).drop 4
      | none => slice b 0 n := by
  have hthree :
      threeCodeTable.find? ((fun code : List Byte × Byte => code.1.isPrefixOf (slice b 0 n)) ∘ fun code => ([0x1B, 0x5B, code.1], code.2)) =
      if 3 ≤ n then threeCodeTable.find? (fun code => code.1 = b 2) else none := by
    split
    next hn =>
      congr 1
      funext code
      rw [Function.comp, prefix_three hesc]
      simp only [hn, true_and]
    next hn =>
      rw [List.find?_eq_none]
      intro code _
      rw [Function.comp, prefix_three hesc]
      simp only [hn, false_and, decide_false, Bool.false_eq_true, not_false_eq_true]
  have hfour : fourCodeTable.find? ((fun code : List Byte × Byte => code.1.isPrefixOf (slice b 0 n)) ∘
      fun code => ([0x1B, 0x5B, code.1.1, code.1.2], code.2)) =
      if 4 ≤ n then fourCodeTable.find? (fun code => code.1 = (b 2, b 3)) else none := by
    split
    next hn =>
      congr 1
      funext code
      rw [Function.comp, prefix_four hesc]
      simp only [hn, true_and]
    next hn =>
      rw [List.find?_eq_none]
      intro code _
      rw [Function.comp, prefix_four hesc]
      simp only [hn, false_and, decide_false, Bool.false_eq_true, not_false_eq_true]
  unfold folded sequences
  rw [List.find?_append, List.find?_map, List.find?_map, hthree, hfour]
  cases (if 3 ≤ n then threeCodeTable.find? (fun code => code.1 = b 2) else none) with
  | some code => rfl
  | none =>
    cases (if 4 ≤ n then fourCodeTable.find? (fun code => code.1 = (b 2, b 3)) else none) with
    | some code => rfl
    | none => rfl

/-- `serial_translate_key_sequence` folds the head of the queue. -/
theorem translate_line (h : s.Movable addr) (hb : s.Bounded) :
    (s.translateKeySequence addr).line = { s.line with pending := folded s.pending } ∧
      (s.translateKeySequence addr).Bounded ∧ (s.translateKeySequence addr).memory = s.memory := by
  have hlow := hb.low
  unfold Input.translateKeySequence
  by_cases hesc : s.inputBuf 0 = 0x1B ∧ s.inputBuf 1 = 0x5B
  swap
  · rw [if_pos hesc, Input.pending, folded_plain hesc]
    exact ⟨rfl, hb, rfl⟩
  have hthree : (3 ≤ s.npending) = (3 ≤ s.npending.toNat) := propext (by omega)
  have hfour : (4 ≤ s.npending) = (4 ≤ s.npending.toNat) := propext (by omega)
  rw [if_neg (not_not.2 hesc), Input.pending, folded_sequence hesc]
  simp only [hthree, hfour]
  cases hfind : (if 3 ≤ s.npending.toNat then threeCodeTable.find? (fun code => code.1 = s.inputBuf 2) else none) with
  | some code =>
    have hn : ((3 : Nat) : Int) ≤ s.npending := by
      by_contra hn
      rw [if_neg (by omega)] at hfind
      cases hfind
    exact replaceHead_line h hb (Nat.le_succ 2) hn
  | none =>
    dsimp only
    cases hfind' : (if 4 ≤ s.npending.toNat then fourCodeTable.find? (fun code => code.1 = (s.inputBuf 2, s.inputBuf 3)) else none) with
    | some code =>
      have hn : ((4 : Nat) : Int) ≤ s.npending := by
        by_contra hn
        rw [if_neg (by omega)] at hfind'
        cases hfind'
      exact replaceHead_line h hb (by decide) hn
    | none => exact ⟨rfl, hb, rfl⟩

/-! ## The calls -/

/-- The buffer is in order, and it can be moved. -/
structure Input.Ready (addr : Word) (s : Input) : Prop where
  bounded : s.Bounded
  movable : s.Movable addr

theorem fill_line (arrive : Nat → List Byte) (h : s.Ready addr) (nowait : Bool) :
    (s.fillInputBuf arrive addr nowait).line = s.line.fill arrive nowait ∧ (s.fillInputBuf arrive addr nowait).Ready addr ∧
      (s.fillInputBuf arrive addr nowait).memory = s.memory := by
  obtain ⟨hline, hbounded, hmemory⟩ := fillLoop_line arrive nowait 0 s h.bounded
  obtain ⟨hfolded, hbounded', hmemory'⟩ := translate_line (h.movable.congr hmemory) hbounded
  have hsame := hmemory'.trans hmemory
  refine ⟨?_, ⟨hbounded', h.movable.congr hsame⟩, hsame⟩
  unfold Input.fillInputBuf Line.fill
  rw [hfolded, ← hline]
  rfl

theorem npending_eq_zero (h : s.Bounded) : s.npending = 0 ↔ s.line.pending = [] := by
  have hlow := h.low
  rw [← List.length_eq_zero_iff, show s.line.pending = s.pending from rfl, pending_length]
  omega

theorem wait_line (arrive : Nat → List Byte) (fuel : Nat) : ∀ {s : Input}, s.Ready addr →
    (s.waitInput arrive addr fuel).map Input.line = s.line.wait arrive fuel ∧
      ∀ s', s.waitInput arrive addr fuel = some s' → s'.Ready addr ∧ s'.line.pending ≠ [] ∧ s'.memory = s.memory := by
  induction fuel with
  | zero =>
    intro s _
    refine ⟨rfl, fun s' h => ?_⟩
    cases h
  | succ fuel ih =>
    intro s h
    obtain ⟨hline, hready, hmemory⟩ := fill_line arrive h false
    unfold Input.waitInput Line.wait
    dsimp only
    by_cases hempty : (s.fillInputBuf arrive addr false).npending = 0
    · have hnil := (npending_eq_zero hready.bounded).1 hempty
      obtain ⟨hwait, hrest⟩ := ih hready
      rw [if_pos hempty, if_pos (hline ▸ hnil), ← hline]
      refine ⟨hwait, fun s' hs' => ?_⟩
      obtain ⟨hready', hsome, hmemory'⟩ := hrest s' hs'
      exact ⟨hready', hsome, hmemory'.trans hmemory⟩
    · have hsome : (s.fillInputBuf arrive addr false).line.pending ≠ [] := fun hnil => hempty ((npending_eq_zero hready.bounded).2 hnil)
      rw [if_neg hempty, if_neg (hline ▸ hsome), ← hline]
      refine ⟨rfl, fun s' hs' => ?_⟩
      cases hs'
      exact ⟨hready, hsome, hmemory⟩

/-- The first byte is taken from the buffer. -/
theorem shift_line (h : s.Ready addr) (hsome : s.line.pending ≠ []) :
    (s.inputBuf 0).signExtend 32 = (s.line.pending.headD 0).signExtend 32 ∧
      (Input.memmove addr { s with npending := s.npending - 1 } 0 1 (s.npending - 1)).line =
        { s.line with pending := s.line.pending.tail } ∧
      (Input.memmove addr { s with npending := s.npending - 1 } 0 1 (s.npending - 1)).Ready addr := by
  have hlow := h.bounded.low
  have hhigh := h.bounded.high
  have hpos : s.npending ≠ 0 := fun hzero => hsome ((npending_eq_zero h.bounded).1 hzero)
  obtain ⟨rest, hrest⟩ := Int.eq_ofNat_of_zero_le (show 0 ≤ s.npending - 1 by omega)
  have htotal : s.npending.toNat = rest + 1 := by omega
  have hmovable : Input.Movable addr { s with npending := rest } := h.movable.congr rfl
  have hmove := memmove_eq hmovable 0 1 (show 0 + rest ≤ 8 by omega)
  have hpending : s.line.pending = s.inputBuf 0 :: slice s.inputBuf 1 rest := by
    rw [show s.line.pending = slice s.inputBuf 0 s.npending.toNat from rfl, htotal, Memory.slice_succ]
  rw [hrest, hmove, hpending]
  refine ⟨rfl, ?_, ⟨⟨?_, ?_⟩, h.movable.congr rfl⟩⟩
  · unfold Input.line Input.pending
    dsimp only
    congr 1
    rw [Int.toNat_natCast, List.tail_cons, Memory.slice_eq_iff]
    intro i hi
    rw [if_pos ⟨by omega, by omega⟩, Nat.zero_add, Nat.sub_zero]
  · dsimp only
    omega
  · dsimp only
    omega

theorem getkey_line (arrive : Nat → List Byte) (h : s.Ready addr) (fuel : Nat) :
    (s.getkey arrive addr fuel).map (fun r => (r.1, r.2.line)) = s.line.getkey arrive fuel ∧
      ∀ r, s.getkey arrive addr fuel = some r → r.2.Ready addr := by
  obtain ⟨hwait, hready⟩ := wait_line arrive fuel h
  unfold Input.getkey Line.getkey
  rw [← hwait]
  cases hs' : s.waitInput arrive addr fuel with
  | none => exact ⟨rfl, fun r hr => by cases hr⟩
  | some s' =>
    obtain ⟨hready', hsome, -⟩ := hready s' hs'
    obtain ⟨hkey, hline, hready''⟩ := shift_line hready' hsome
    refine ⟨?_, fun r hr => ?_⟩
    · simp only [Option.map_some, hkey, hline]
    · cases hr
      exact hready''

theorem checkkey_line (arrive : Nat → List Byte) (h : s.Ready addr) : (s.checkkey arrive addr).1 = (s.line.checkkey arrive).1 ∧
    (s.checkkey arrive addr).2.line = (s.line.checkkey arrive).2 ∧ (s.checkkey arrive addr).2.Ready addr := by
  obtain ⟨hline, hready, -⟩ := fill_line arrive h true
  refine ⟨?_, hline, hready⟩
  unfold Input.checkkey Line.checkkey
  rw [← hline]
  dsimp only
  by_cases hempty : (s.fillInputBuf arrive addr true).npending = 0
  · rw [if_neg (not_not.2 hempty), if_neg (not_not.2 ((npending_eq_zero hready.bounded).1 hempty))]
  · have hsome : (s.fillInputBuf arrive addr true).line.pending ≠ [] := fun hnil => hempty ((npending_eq_zero hready.bounded).2 hnil)
    rw [if_pos hempty, if_pos hsome]
    exact (shift_line hready hsome).1

end Refinement

end TrustedGrub.Serial
