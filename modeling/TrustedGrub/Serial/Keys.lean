import TrustedGrub.Serial.Queue

/-!
# The keys are the bytes that came in

A run of calls hands out the bytes in order, some sequences folded into their keys, and
`serial_checkkey` shows what the next `serial_getkey` returns.
-/

namespace TrustedGrub.Serial
open Fips180 (Byte)
open CharIo (Word Memory wontFit)
open Memory (slice)

/-! ## What has been handed out -/

/-- The keys are those of the bytes, one after the other, some sequences folded. -/
inductive Spelled : List Byte → List Word → Prop
  | nil : Spelled [] []
  | byte {done : List Byte} {keys : List Word} (c : Byte) : Spelled done keys → Spelled (done ++ [c]) (keys ++ [c.signExtend 32])
  | sequence {done : List Byte} {keys : List Word} {code : List Byte × Byte} (known : code ∈ sequences) :
      Spelled done keys → Spelled (done ++ code.1) (keys ++ [code.2.signExtend 32])

/-- The bytes that wait in the buffer; a sequence at their head may have been folded already. -/
def Waiting (rest bytes : List Byte) : Prop :=
  bytes = rest ∨ ∃ code ∈ sequences, ∃ tail, rest = code.1 ++ tail ∧ bytes = code.2 :: tail

/-- What has come in before poll `clock`. -/
def arrived (arrive : Nat → List Byte) (clock : Nat) : List Byte := (List.range clock).flatMap arrive

/-- The bytes that have come in are those of the keys, then those in the buffer, then those in the device. -/
def Ordered (arrive : Nat → List Byte) (keys : List Word) (l : Line) : Prop :=
  ∃ done rest, done ++ rest ++ l.device = arrived arrive l.clock ∧ Spelled done keys ∧ Waiting rest l.pending

section Order
variable {arrive : Nat → List Byte} {keys : List Word} {l : Line} {rest bytes : List Byte} {c : Byte}

theorem arrived_succ (arrive : Nat → List Byte) (n : Nat) : arrived arrive (n + 1) = arrived arrive n ++ arrive n := by
  unfold arrived
  rw [List.range_succ, List.flatMap_append, List.flatMap_singleton]

theorem sequences_find {code : List Byte × Byte} (h : sequences.find? (fun code => code.1.isPrefixOf bytes) = some code) :
    code ∈ sequences ∧ ∃ tail, bytes = code.1 ++ tail := by
  have hbegins := List.find?_some h
  obtain ⟨tail, htail⟩ := List.isPrefixOf_iff_prefix.1 hbegins
  exact ⟨List.mem_of_find?_eq_some h, tail, htail.symm⟩

/-- The key of a sequence does not begin one. -/
theorem folded_key {code : List Byte × Byte} (hcode : code ∈ sequences) (tail : List Byte) : folded (code.2 :: tail) = code.2 :: tail := by
  have hkeys : ∀ code ∈ sequences, code.2 ≠ 0x1B := by decide
  have hnone : sequences.find? (fun other => other.1.isPrefixOf (code.2 :: tail)) = none := by
    rw [List.find?_eq_none]
    intro other hother hbegins
    obtain ⟨begin, hbegin, -⟩ := sequences_begin other hother
    obtain ⟨_, heq⟩ := List.isPrefixOf_iff_prefix.1 hbegins
    rw [hbegin, List.cons_append] at heq
    exact hkeys code hcode (List.cons.inj heq).1.symm
  unfold folded
  rw [hnone]

theorem Waiting.folded (h : Waiting rest bytes) : Waiting rest (folded bytes) := by
  rcases h with rfl | ⟨code, hcode, tail, hrest, rfl⟩
  · unfold Serial.folded
    cases hfind : sequences.find? (fun code => code.1.isPrefixOf bytes) with
    | none => exact .inl rfl
    | some code =>
      obtain ⟨hcode, tail, rfl⟩ := sequences_find hfind
      refine .inr ⟨code, hcode, tail, rfl, ?_⟩
      dsimp only
      rw [List.drop_left]
  · rw [folded_key hcode]
    exact .inr ⟨code, hcode, tail, hrest, rfl⟩

theorem Waiting.concat (h : Waiting rest bytes) (c : Byte) : Waiting (rest ++ [c]) (bytes ++ [c]) := by
  rcases h with rfl | ⟨code, hcode, tail, rfl, rfl⟩
  · exact .inl rfl
  · exact .inr ⟨code, hcode, tail ++ [c], List.append_assoc .., rfl⟩

theorem Ordered.fetch (h : Ordered arrive keys l) : Ordered arrive keys (l.fetch arrive).2 := by
  obtain ⟨done, rest, harrived, hspelled, hwaiting⟩ := h
  unfold Line.fetch
  cases hline : l.device ++ arrive l.clock with
  | nil =>
    refine ⟨done, rest, ?_, hspelled, hwaiting⟩
    rw [arrived_succ, ← harrived, List.append_assoc (done ++ rest), hline]
  | cons c device =>
    refine ⟨done, rest ++ [c], ?_, hspelled, hwaiting.concat c⟩
    rw [arrived_succ, ← harrived, List.append_assoc (done ++ rest), hline]
    simp

theorem Ordered.gather (nowait : Bool) (i : Nat) (l : Line) (h : Ordered arrive keys l) :
    Ordered arrive keys (l.gather arrive nowait i) := by
  fun_induction Line.gather arrive nowait i l with
  | case1 => exact h.fetch
  | case2 _ _ _ _ _ ih => exact ih h.fetch
  | case3 => exact h.fetch
  | case4 _ _ _ _ _ ih => exact ih h.fetch
  | case5 => exact h

theorem Ordered.fill (h : Ordered arrive keys l) (nowait : Bool) : Ordered arrive keys (l.fill arrive nowait) := by
  obtain ⟨done, rest, harrived, hspelled, hwaiting⟩ := h.gather nowait 0
  exact ⟨done, rest, harrived, hspelled, hwaiting.folded⟩

theorem Ordered.wait {fuel : Nat} : ∀ {l l' : Line}, Ordered arrive keys l → l.wait arrive fuel = some l' →
    Ordered arrive keys l' ∧ l'.pending ≠ [] := by
  induction fuel with
  | zero =>
    intro l l' _ hwait
    cases hwait
  | succ fuel ih =>
    intro l l' h hwait
    unfold Line.wait at hwait
    split at hwait
    · exact ih (h.fill false) hwait
    next hsome =>
      cases hwait
      exact ⟨h.fill false, hsome⟩

/-- A key that is taken is that of the first byte that waits, or of a sequence. -/
theorem Ordered.taken (h : Ordered arrive keys l) (hsome : l.pending ≠ []) :
    Ordered arrive (keys ++ [(l.pending.headD 0).signExtend 32]) { l with pending := l.pending.tail } := by
  obtain ⟨done, rest, harrived, hspelled, hwaiting⟩ := h
  obtain ⟨c, tail, hpending⟩ := List.exists_cons_of_ne_nil hsome
  rw [hpending] at hwaiting ⊢
  rcases hwaiting with hrest | ⟨code, hcode, tail', hrest, heq⟩
  · subst hrest
    refine ⟨done ++ [c], tail, ?_, hspelled.byte c, .inl rfl⟩
    rw [← harrived]
    simp
  · obtain ⟨rfl, rfl⟩ := List.cons.inj heq
    refine ⟨done ++ code.1, tail, ?_, hspelled.sequence hcode, .inl rfl⟩
    rw [← harrived, hrest]
    simp

theorem Ordered.getkey {fuel : Nat} {key : Word} {l' : Line} (h : Ordered arrive keys l) (hget : l.getkey arrive fuel = some (key, l')) :
    Ordered arrive (keys ++ [key]) l' := by
  unfold Line.getkey at hget
  obtain ⟨l₁, hwait, heq⟩ := Option.map_eq_some_iff.1 hget
  obtain ⟨hordered, hsome⟩ := h.wait hwait
  cases heq
  exact hordered.taken hsome

end Order

/-! ## What the next key is -/

/-- No further byte comes in. -/
def silent : Nat → List Byte := fun _ => []

/-- If the bytes that are pending and those that the device has begin with a sequence, one poll completes it. -/
def Settled (arrive : Nat → List Byte) (l : Line) : Prop :=
  ∀ code ∈ sequences, code.1 <+: l.pending ++ (l.device ++ arrive l.clock) → code.1.length ≤ l.pending.length + 1

section Next
variable {arrive : Nat → List Byte} {l : Line} {bytes : List Byte}

theorem folded_nil_iff : folded bytes = [] ↔ bytes = [] := by
  unfold folded
  cases hfind : sequences.find? (fun code => code.1.isPrefixOf bytes) with
  | none => exact Iff.rfl
  | some code =>
    obtain ⟨hcode, tail, rfl⟩ := sequences_find hfind
    obtain ⟨rest, hbegin, -⟩ := sequences_begin code hcode
    rw [hbegin]
    simp

theorem folded_eq (h : ∀ code ∈ sequences, ¬ code.1 <+: bytes) : folded bytes = bytes := by
  have hnone : sequences.find? (fun code => code.1.isPrefixOf bytes) = none := by
    rw [List.find?_eq_none]
    exact fun code hcode hbegins => h code hcode (List.isPrefixOf_iff_prefix.1 hbegins)
  unfold folded
  rw [hnone]

/-- Once the head is folded, no sequence begins there. -/
theorem folded_settled (bytes : List Byte) : (∃ code ∈ sequences, ∃ tail, folded bytes = code.2 :: tail) ∨
    folded bytes = bytes ∧ ∀ code ∈ sequences, ¬ code.1 <+: bytes := by
  unfold folded
  cases hfind : sequences.find? (fun code => code.1.isPrefixOf bytes) with
  | none =>
    refine .inr ⟨rfl, fun code hcode hbegins => ?_⟩
    exact List.find?_eq_none.1 hfind code hcode (List.isPrefixOf_iff_prefix.2 hbegins)
  | some code => exact .inl ⟨code, List.mem_of_find?_eq_some hfind, _, rfl⟩

theorem sequences_length : ∀ code ∈ sequences, code.1.length ≤ 4 := by decide

/-- One poll, unless the buffer is full. -/
theorem gather_once (l : Line) : l.gather arrive true 0 = if l.pending.length < 8 then (l.fetch arrive).2 else l := by
  unfold Line.gather
  by_cases hroom : l.pending.length < 8
  · rw [if_pos ⟨by decide, hroom⟩, if_pos hroom]
    split <;> rfl
  · rw [if_neg fun h => hroom h.2, if_neg hroom]

theorem fetch_total (l : Line) : (l.fetch arrive).2.pending ++ (l.fetch arrive).2.device = l.pending ++ (l.device ++ arrive l.clock) := by
  unfold Line.fetch
  cases l.device ++ arrive l.clock with
  | nil => rfl
  | cons c device => exact List.append_assoc ..

theorem fetch_settled (arrive : Nat → List Byte) (l : Line) :
    (l.fetch arrive).2.device = [] ∨ (l.fetch arrive).2.pending.length = l.pending.length + 1 := by
  unfold Line.fetch
  cases l.device ++ arrive l.clock with
  | nil => exact .inl rfl
  | cons c device => exact .inr (by simp)

/-- Behind one poll, no sequence is completed by the bytes that the device still has. -/
theorem gather_settled (h : Settled arrive l) {code : List Byte × Byte} (hcode : code ∈ sequences)
    (hbegins : code.1 <+: (l.gather arrive true 0).pending ++ (l.gather arrive true 0).device) :
    code.1 <+: (l.gather arrive true 0).pending := by
  rw [gather_once] at hbegins ⊢
  have hlong := sequences_length code hcode
  split at hbegins
  next hroom =>
    rw [if_pos hroom]
    rcases fetch_settled arrive l with hnil | hlen
    · rwa [hnil, List.append_nil] at hbegins
    · have hfits : code.1.length ≤ (l.fetch arrive).2.pending.length := by
        rw [hlen]
        exact h code hcode (fetch_total l ▸ hbegins)
      exact List.prefix_of_prefix_length_le hbegins (List.prefix_append _ _) hfits
  next hfull =>
    rw [if_neg hfull]
    exact List.prefix_of_prefix_length_le hbegins (List.prefix_append _ _) (by omega)

/-- The head stays as it is, whatever is fetched behind it. -/
theorem fill_head (h : Settled arrive l) {more : List Byte} (hmore : more <+: (l.fill arrive true).device) :
    folded ((l.fill arrive true).pending ++ more) = (l.fill arrive true).pending ++ more := by
  have hfold := folded_settled (l.gather arrive true 0).pending
  have hpending : (l.fill arrive true).pending = folded (l.gather arrive true 0).pending := rfl
  have hdevice : (l.fill arrive true).device = (l.gather arrive true 0).device := rfl
  rw [hpending]
  rcases hfold with ⟨code, hcode, tail, heq⟩ | ⟨heq, hnone⟩
  · rw [heq, List.cons_append, folded_key hcode]
  · rw [heq]
    refine folded_eq fun code hcode hbegins => ?_
    have hlong : code.1 <+: (l.gather arrive true 0).pending ++ (l.gather arrive true 0).device :=
      hbegins.trans ((List.prefix_append_right_inj _).2 (hdevice ▸ hmore))
    exact hnone code hcode (gather_settled h hcode hlong)

theorem fetch_silent (l : Line) :
    ∃ more, (l.fetch silent).2.pending = l.pending ++ more ∧ l.device = more ++ (l.fetch silent).2.device := by
  unfold Line.fetch silent
  rw [List.append_nil]
  cases l.device with
  | nil => exact ⟨[], (List.append_nil _).symm, rfl⟩
  | cons c device => exact ⟨[c], rfl, rfl⟩

/-- Without further bytes, those of the device come in. -/
theorem gather_silent (nowait : Bool) (i : Nat) (l : Line) :
    ∃ more, (l.gather silent nowait i).pending = l.pending ++ more ∧ l.device = more ++ (l.gather silent nowait i).device := by
  have hstep {l l' : Line} (h : ∃ more, l'.pending = (l.fetch silent).2.pending ++ more ∧ (l.fetch silent).2.device = more ++ l'.device) :
      ∃ more, l'.pending = l.pending ++ more ∧ l.device = more ++ l'.device := by
    obtain ⟨first, hpending, hdevice⟩ := fetch_silent l
    obtain ⟨more, hpending', hdevice'⟩ := h
    refine ⟨first ++ more, ?_, ?_⟩
    · rw [hpending', hpending, List.append_assoc]
    · rw [hdevice, hdevice', List.append_assoc]
  fun_induction Line.gather silent nowait i l with
  | case1 => exact fetch_silent _
  | case2 _ _ _ _ _ ih => exact hstep ih
  | case3 => exact fetch_silent _
  | case4 _ _ _ _ _ ih => exact hstep ih
  | case5 => exact ⟨[], (List.append_nil _).symm, rfl⟩

/-- A key that is there without further bytes is the one that has been shown. -/
theorem getkey_shown (h : Settled arrive l) (hsome : (l.fill arrive true).pending ≠ []) (fuel : Nat) :
    ∃ l', (l.fill arrive true).getkey silent (fuel + 1) = some ((l.checkkey arrive).1, l') := by
  obtain ⟨more, hpending, hdevice⟩ := gather_silent false 0 (l.fill arrive true)
  have hbegins : more <+: (l.fill arrive true).device := hdevice ▸ List.prefix_append _ _
  obtain ⟨c, tail, hcons⟩ := List.exists_cons_of_ne_nil hsome
  have hnext : ((l.fill arrive true).fill silent false).pending = (l.fill arrive true).pending ++ more := by
    show folded ((l.fill arrive true).gather silent false 0).pending = _
    rw [hpending, fill_head h hbegins]
  have hhead : ((l.fill arrive true).fill silent false).pending = c :: (tail ++ more) := by
    rw [hnext, hcons, List.cons_append]
  have hkey : (((l.fill arrive true).fill silent false).pending.headD 0).signExtend 32 = (l.checkkey arrive).1 := by
    rw [hhead, Line.checkkey, if_pos hsome, hcons]
    rfl
  unfold Line.getkey Line.wait
  rw [if_neg (by rw [hhead]; exact List.cons_ne_nil _ _)]
  simp only [Option.map_some, hkey]
  exact ⟨_, rfl⟩

/-- If there is none, no key comes without further bytes. -/
theorem getkey_never (h : l.pending = [] ∧ l.device = []) (fuel : Nat) : l.getkey silent fuel = none := by
  have hgather (l : Line) (h : l.pending = [] ∧ l.device = []) :
      (l.gather silent false 0).pending = [] ∧ (l.gather silent false 0).device = [] := by
    obtain ⟨more, hpending, hdevice⟩ := gather_silent false 0 l
    rw [h.2] at hdevice
    obtain ⟨hmore, hnil⟩ := List.append_eq_nil_iff.1 hdevice.symm
    exact ⟨by rw [hpending, h.1, hmore, List.append_nil], hnil⟩
  have hwait : l.wait silent fuel = none := by
    induction fuel generalizing l with
    | zero => rfl
    | succ fuel ih =>
      have hnext := hgather l h
      have hfill : (l.fill silent false).pending = [] := folded_nil_iff.2 hnext.1
      unfold Line.wait
      rw [if_pos hfill]
      exact ih ⟨hfill, hnext.2⟩
  unfold Line.getkey
  rw [hwait]
  rfl

/-- Nothing in the buffer after a poll, nothing in the device. -/
theorem fill_nothing (h : (l.fill arrive true).pending = []) : (l.fill arrive true).device = [] := by
  have hgather : (l.gather arrive true 0).pending = [] := folded_nil_iff.1 h
  show (l.gather arrive true 0).device = []
  rw [gather_once] at hgather ⊢
  split at hgather
  next hroom =>
    rw [if_pos hroom]
    rcases fetch_settled arrive l with hnil | hlen
    · exact hnil
    · rw [hgather] at hlen
      cases hlen
  next hfull =>
    rw [hgather] at hfull
    exact absurd (by decide) hfull

end Next

/-! ## Runs of calls -/

/-- The input, and the keys that `serial_getkey` has returned. -/
structure Session where
  input : Input
  keys : List Word

/-- A call, or that other code leaves another `errnum`, or another size of the memory. -/
inductive Call where
  | checkkey
  | getkey
  | other (memory : Memory)

section Runs
variable (arrive : Nat → List Byte) (addr : Word)

/-- What a call does, if it returns. -/
def Session.act (fuel : Nat) (call : Call) (s : Session) : Option Session :=
  match call with
  | .checkkey => some { s with input := (s.input.checkkey arrive addr).2 }
  | .getkey => (s.input.getkey arrive addr fuel).map fun r => ⟨r.2, s.keys ++ [r.1]⟩
  | .other memory => some { s with input := { s.input with memory := memory } }

/-- Nothing is pending when GRUB starts. -/
def Session.start (memory : Memory) : Session := ⟨⟨fun _ => 0, 0, memory, [], 0⟩, []⟩

/-- The states that a run comes to whose calls are all made where `ok` holds of them. -/
inductive Reached (ok : Input → Call → Prop) (memory : Memory) : Session → Prop
  | start : Reached ok memory (.start memory)
  | call {s s' : Session} {call : Call} {fuel : Nat} : Reached ok memory s → ok s.input call → s.act arrive addr fuel call = some s' →
      Reached ok memory s'

/-- The buffer can be moved, and `serial_checkkey` fetches the last byte of a sequence at the latest. -/
def Fine (s : Input) : Call → Prop
  | .checkkey => s.Movable addr ∧ Settled arrive s.line
  | .getkey => s.Movable addr
  | .other _ => True

/-- Two states differ in what lies in the buffer behind the pending bytes. -/
structure Stale (s t : Input) : Prop where
  npending : t.npending = s.npending
  memory : t.memory = s.memory
  device : t.device = s.device
  clock : t.clock = s.clock
  inputBuf : ∀ k < s.npending.toNat, t.inputBuf k = s.inputBuf k

/-- What `serial_checkkey` returns is the next key, if no further byte comes in. -/
structure Shown (key : Word) (s : Input) : Prop where
  none : s.npending = 0 → key = -1 ∧ ∀ fuel, s.getkey silent addr fuel = none
  some : s.npending ≠ 0 → ∀ fuel, ∃ s', s.getkey silent addr (fuel + 1) = some (key, s')

/-- What a call comes to does not depend on stale bytes, and a key that is shown is the next one. -/
def CallRight (s : Input) : Call → Prop
  | .checkkey => Shown addr (s.checkkey arrive addr).1 (s.checkkey arrive addr).2 ∧
      ∀ t, Stale s t → (t.checkkey arrive addr).1 = (s.checkkey arrive addr).1 ∧
        (t.checkkey arrive addr).2.line = (s.checkkey arrive addr).2.line
  | .getkey => ∀ t, Stale s t → ∀ fuel,
      (t.getkey arrive addr fuel).map (fun r => (r.1, r.2.line)) = (s.getkey arrive addr fuel).map fun r => (r.1, r.2.line)
  | .other _ => True

/-- The state of a session is in order. -/
structure Session.Right (s : Session) : Prop where
  bounded : 0 ≤ s.input.npending ∧ s.input.npending ≤ 8
  ordered : Ordered arrive s.keys s.input.line
  calls : ∀ call, Fine arrive addr s.input call → CallRight arrive addr s.input call

end Runs

section Results
variable {arrive : Nat → List Byte} {addr : Word} {memory : Memory} {s : Input} {t : Input}

theorem Stale.line (h : Stale s t) : t.line = s.line := by
  have hpending : t.pending = s.pending := by
    unfold Input.pending
    rw [h.npending]
    refine Memory.slice_congr fun x _ hx => h.inputBuf x ?_
    rwa [Nat.zero_add] at hx
  unfold Input.line
  rw [hpending, h.device, h.clock]

theorem Stale.ready (h : Stale s t) (hs : s.Ready addr) : t.Ready addr :=
  ⟨⟨h.npending ▸ hs.bounded.low, h.npending ▸ hs.bounded.high⟩, hs.movable.congr h.memory⟩

theorem checkkey_shown (h : s.Ready addr) (hsettled : Settled arrive s.line) :
    Shown addr (s.checkkey arrive addr).1 (s.checkkey arrive addr).2 := by
  obtain ⟨hkey, hline, hready⟩ := checkkey_line arrive h
  constructor
  · intro hzero
    have hnil : (s.line.fill arrive true).pending = [] := by
      have hempty := (npending_eq_zero hready.bounded).1 hzero
      rwa [hline] at hempty
    refine ⟨?_, fun fuel => ?_⟩
    · rw [hkey, Line.checkkey, if_neg (not_not.2 hnil)]
    · have hnever : (s.checkkey arrive addr).2.line.getkey silent fuel = none := by
        rw [hline]
        exact getkey_never ⟨hnil, fill_nothing hnil⟩ fuel
      rw [← (getkey_line silent hready fuel).1] at hnever
      exact Option.map_eq_none_iff.1 hnever
  · intro hpos fuel
    have hsome : (s.line.fill arrive true).pending ≠ [] := by
      intro hnil
      exact hpos ((npending_eq_zero hready.bounded).2 (hline ▸ hnil))
    obtain ⟨l', hget⟩ := getkey_shown hsettled hsome fuel
    have hsame := (getkey_line silent hready (fuel + 1)).1
    rw [hline, show (s.line.checkkey arrive).2 = s.line.fill arrive true from rfl, hget] at hsame
    obtain ⟨r, hr, heq⟩ := Option.map_eq_some_iff.1 hsame
    refine ⟨r.2, ?_⟩
    rw [hr, hkey, ← (Prod.mk.inj heq).1]

theorem call_right (h : s.Bounded) (call : Call) (hfine : Fine arrive addr s call) : CallRight arrive addr s call := by
  cases call with
  | checkkey =>
    have hready : s.Ready addr := ⟨h, hfine.1⟩
    refine ⟨checkkey_shown hready hfine.2, fun t ht => ?_⟩
    obtain ⟨hkey, hline, -⟩ := checkkey_line arrive hready
    obtain ⟨hkey', hline', -⟩ := checkkey_line arrive (ht.ready hready)
    rw [ht.line] at hkey' hline'
    exact ⟨hkey'.trans hkey.symm, hline'.trans hline.symm⟩
  | getkey =>
    have hready : s.Ready addr := ⟨h, hfine⟩
    intro t ht fuel
    rw [(getkey_line arrive (ht.ready hready) fuel).1, (getkey_line arrive hready fuel).1, ht.line]
  | other => trivial

/-- What a call keeps. -/
theorem act_keeps {fuel : Nat} {call : Call} {s s' : Session} (hb : s.input.Bounded) (ho : Ordered arrive s.keys s.input.line)
    (hfine : Fine arrive addr s.input call) (h : s.act arrive addr fuel call = some s') :
    s'.input.Bounded ∧ Ordered arrive s'.keys s'.input.line := by
  cases call with
  | checkkey =>
    cases h
    obtain ⟨-, hline, hready⟩ := checkkey_line arrive ⟨hb, hfine.1⟩
    refine ⟨hready.bounded, ?_⟩
    dsimp only
    rw [hline]
    exact ho.fill true
  | getkey =>
    obtain ⟨r, hget, heq⟩ := Option.map_eq_some_iff.1 h
    obtain ⟨hline, hready⟩ := getkey_line arrive ⟨hb, hfine⟩ fuel
    rw [hget, Option.map_some] at hline
    cases heq
    exact ⟨(hready r hget).bounded, ho.getkey hline.symm⟩
  | other =>
    cases h
    exact ⟨⟨hb.low, hb.high⟩, ho⟩

/-- **The keys of a session are its bytes, in order**, where every call finds `errnum` clear and no
`serial_checkkey` leaves bytes in the device that complete a sequence. -/
theorem session_right {s : Session} (h : Reached arrive addr (Fine arrive addr) memory s) : s.Right arrive addr := by
  have hkept : s.input.Bounded ∧ Ordered arrive s.keys s.input.line := by
    induction h with
    | start => exact ⟨⟨Int.le_refl 0, show (0 : Int) ≤ 8 by decide⟩, [], [], rfl, .nil, .inl rfl⟩
    | call _ hfine hact ih => exact act_keeps ih.1 ih.2 hfine hact
  exact ⟨⟨hkept.1.low, hkept.1.high⟩, hkept.2, call_right hkept.1⟩

end Results

/-! ## An error that is pending -/

/-- Eight bytes come in before the first poll. -/
def burst (n : Nat) : List Byte := if n = 0 then [0x61, 0x62, 0x63, 0x64, 0x65, 0x66, 0x67, 0x68] else []

theorem start_movable : (Session.start ⟨.none, 640, 0x10000⟩).input.Movable 0x8000 := by
  refine ⟨rfl, fun off n hfits => ?_⟩
  rw [← Bool.not_eq_true, CharIo.wontFit_iff,
    show CharIo.Memory.lowerLimit (Session.start ⟨.none, 640, 0x10000⟩).input.memory = 655360 from rfl,
    BitVec.toNat_add, BitVec.toNat_ofNat, BitVec.toNat_ofNat, show (0x8000 : Word).toNat = 0x8000 from rfl]
  omega

/-- C-p as the terminal sends it, and five letters. -/
def arrow (n : Nat) : List Byte := if n = 0 then [0x1B, 0x5B, 0x41, 0x64, 0x65, 0x66, 0x67, 0x68] else []

theorem arrow_getkey : Line.getkey arrow 1 ⟨[], [], 0⟩ = some (16, ⟨[0x64, 0x65, 0x66, 0x67, 0x68], [], 8⟩) := by
  have hgather : Line.gather arrow false 0 ⟨[], [], 0⟩ = ⟨[0x1B, 0x5B, 0x41, 0x64, 0x65, 0x66, 0x67, 0x68], [], 8⟩ := by
    simp [Line.gather, Line.fetch, arrow]
  unfold Line.getkey Line.wait Line.fill
  rw [hgather]
  rfl

/-- The key of the sequence is returned, and the letter behind it is shown. -/
theorem session_right_arrow : ∃ s, Reached arrow 0x8000 (Fine arrow 0x8000) ⟨.none, 640, 0x10000⟩ s ∧
    s.keys = [16] ∧ s.input.line = ⟨[0x64, 0x65, 0x66, 0x67, 0x68], [], 9⟩ ∧ s.Right arrow 0x8000 := by
  have hready : (Session.start ⟨.none, 640, 0x10000⟩).input.Ready 0x8000 :=
    ⟨⟨Int.le_refl 0, show (0 : Int) ≤ 8 by decide⟩, start_movable⟩
  obtain ⟨hget, hready'⟩ := getkey_line arrow hready 1
  rw [show (Session.start ⟨.none, 640, 0x10000⟩).input.line = ⟨[], [], 0⟩ from rfl, arrow_getkey] at hget
  obtain ⟨⟨key, s⟩, hcall, heq⟩ := Option.map_eq_some_iff.1 hget
  obtain ⟨rfl, hline⟩ := Prod.mk.inj heq
  have hmovable := (hready' _ hcall).movable
  have hact : (Session.start ⟨.none, 640, 0x10000⟩).act arrow 0x8000 1 .getkey = some ⟨s, [16]⟩ := by
    unfold Session.act
    rw [hcall]
    rfl
  have hfine : Fine arrow 0x8000 s .checkkey := by
    refine ⟨hmovable, ?_⟩
    unfold Settled
    rw [hline]
    decide
  have hshown : (⟨s, [16]⟩ : Session).act arrow 0x8000 0 .checkkey = some ⟨(s.checkkey arrow 0x8000).2, [16]⟩ := rfl
  have hreached := Reached.call (.call .start start_movable hact) hfine hshown
  refine ⟨_, hreached, rfl, ?_, session_right hreached⟩
  rw [(checkkey_line arrow (hready' _ hcall)).2.1, hline]
  unfold Line.checkkey Line.fill
  rw [gather_once]
  rfl

theorem burst_gather : Line.gather burst false 0 ⟨[], [], 0⟩ = ⟨[0x61, 0x62, 0x63, 0x64, 0x65, 0x66, 0x67, 0x68], [], 8⟩ := by
  simp [Line.gather, Line.fetch, burst]

theorem spelled_nil {done : List Byte} {keys : List Word} (h : Spelled done keys) (hnil : keys = []) : done = [] := by
  cases h with
  | nil => rfl
  | byte => simp at hnil
  | sequence => simp at hnil

/-- One key is that of one byte, or of one sequence. -/
theorem spelled_one {done : List Byte} {keys : List Word} {key : Word} (h : Spelled done keys) (hone : keys = [] ++ [key]) :
    (∃ c, done = [c]) ∨ ∃ code ∈ sequences, done = code.1 := by
  cases h with
  | nil => cases hone
  | byte c h =>
    refine .inl ⟨c, ?_⟩
    rw [spelled_nil h (List.append_singleton_inj.1 hone).1, List.nil_append]
  | sequence known h =>
    refine .inr ⟨_, known, ?_⟩
    rw [spelled_nil h (List.append_singleton_inj.1 hone).1, List.nil_append]

/-- While an error is pending, `grub_memmove` moves nothing. -/
theorem memmove_error {addr : Word} {s : Input} (h : s.memory.errnum ≠ .none) (dst src : Nat) (len : Int) :
    (s.memmove addr dst src len).line = s.line := by
  have hcheck : (CharIo.memcheck s.memory (addr + .ofNat 32 dst) (.ofInt 32 len)).1 = false := by
    unfold CharIo.memcheck
    cases wontFit s.memory (addr + .ofNat 32 dst) (.ofInt 32 len) with
    | true => simp
    | false => simpa using h
  unfold Input.memmove
  dsimp only
  rw [hcheck, if_neg Bool.false_ne_true]
  rfl

/-- The buffer while `serial_getkey` waits. -/
theorem burst_line : ((Session.start ⟨.badFilename, 640, 0x10000⟩).input.fillLoop burst false 0).line =
    ⟨[0x61, 0x62, 0x63, 0x64, 0x65, 0x66, 0x67, 0x68], [], 8⟩ := by
  have hstart : (Session.start ⟨.badFilename, 640, 0x10000⟩).input.Bounded := ⟨Int.le_refl 0, show (0 : Int) ≤ 8 by decide⟩
  rw [(fillLoop_line burst false 0 _ hstart).1]
  exact burst_gather

/-- With an error pending the buffer is not moved: the first byte is still there, and the last is not. -/
theorem burst_getkey : ∃ s, (Session.start ⟨.badFilename, 640, 0x10000⟩).act burst 0x8000 1 .getkey = some s ∧
    s.keys = [0x61] ∧ s.input.line = ⟨[0x61, 0x62, 0x63, 0x64, 0x65, 0x66, 0x67], [], 8⟩ := by
  have hstart : (Session.start ⟨.badFilename, 640, 0x10000⟩).input.Bounded := ⟨Int.le_refl 0, show (0 : Int) ≤ 8 by decide⟩
  obtain ⟨-, hbounded, hmemory⟩ := fillLoop_line burst false 0 _ hstart
  have hline := burst_line
  generalize hfilled : (Session.start ⟨.badFilename, 640, 0x10000⟩).input.fillLoop burst false 0 = filled at hbounded hmemory hline
  have hnpending : filled.npending = 8 := by
    have hlength := congrArg (fun l => l.pending.length) hline
    have hlow := hbounded.low
    rw [show filled.line.pending = filled.pending from rfl, pending_length] at hlength
    simp only [List.length_cons, List.length_nil] at hlength
    omega
  have hpending : slice filled.inputBuf 0 8 = [0x61, 0x62, 0x63, 0x64, 0x65, 0x66, 0x67, 0x68] := by
    have hslice := congrArg Line.pending hline
    rwa [show filled.line.pending = slice filled.inputBuf 0 filled.npending.toNat from rfl, hnpending] at hslice
  have hfirst : filled.inputBuf 0 = 0x61 := by
    rw [Memory.slice_succ] at hpending
    exact (List.cons.inj hpending).1
  have htranslate : filled.translateKeySequence 0x8000 = filled := by
    unfold Input.translateKeySequence
    rw [if_pos]
    rw [hfirst]
    exact fun h => absurd h.1 (by decide)
  have hwait : (Session.start ⟨.badFilename, 640, 0x10000⟩).input.waitInput burst 0x8000 1 = some filled := by
    unfold Input.waitInput Input.fillInputBuf
    rw [hfilled, htranslate, if_neg (by rw [hnpending]; decide)]
  have herror : ({ filled with npending := filled.npending - 1 } : Input).memory.errnum ≠ .none := by
    dsimp only
    rw [hmemory]
    decide
  refine ⟨⟨Input.memmove 0x8000 { filled with npending := filled.npending - 1 } 0 1 (filled.npending - 1),
    [filled.inputBuf 0 |>.signExtend 32]⟩, ?_, ?_, ?_⟩
  · unfold Session.act Input.getkey
    rw [hwait]
    rfl
  · dsimp only
    rw [hfirst]
    rfl
  · dsimp only
    rw [memmove_error herror]
    unfold Input.line Input.pending
    dsimp only
    rw [hnpending]
    have hsplit : slice filled.inputBuf 0 7 ++ slice filled.inputBuf 7 1 = [0x61, 0x62, 0x63, 0x64, 0x65, 0x66, 0x67] ++ [0x68] :=
      (Memory.slice_add filled.inputBuf 0 7 1).symm.trans hpending
    have hseven := List.append_inj_left hsplit (Memory.slice_length ..)
    have hdevice : filled.device = [] := congrArg Line.device hline
    have hclock : filled.clock = 8 := congrArg Line.clock hline
    rw [hdevice, hclock]
    exact congrArg (fun bytes => Line.mk bytes [] 8) hseven

/-- The first key stays in the buffer, and the last byte is lost. -/
theorem keys_repeated :
    ∃ s, Reached burst 0x8000 (fun _ _ => True) ⟨.badFilename, 640, 0x10000⟩ s ∧ ¬ Ordered burst s.keys s.input.line := by
  obtain ⟨s, hact, hkeys, hline⟩ := burst_getkey
  refine ⟨s, .call .start trivial hact, ?_⟩
  rw [hkeys, hline]
  rintro ⟨done, rest, harrived, hspelled, hwaiting⟩
  have hkeys : ∀ code ∈ sequences, code.2 ≠ 0x61 := by decide
  have hburst : done ++ rest = [0x61, 0x62, 0x63, 0x64, 0x65, 0x66, 0x67, 0x68] := by
    rw [List.append_nil] at harrived
    rw [harrived]
    decide
  have hrest : rest = [0x61, 0x62, 0x63, 0x64, 0x65, 0x66, 0x67] := by
    rcases hwaiting with hrest | ⟨code, hcode, tail, -, heq⟩
    · exact hrest.symm
    · exact absurd (List.cons.inj heq).1.symm (hkeys code hcode)
  rcases spelled_one hspelled rfl with ⟨c, rfl⟩ | ⟨code, hcode, rfl⟩
  · rw [hrest] at hburst
    exact absurd (List.cons.inj (List.cons.inj hburst).2).1 (by decide)
  · obtain ⟨tail, hbegin, -⟩ := sequences_begin code hcode
    rw [hbegin] at hburst
    exact absurd (List.cons.inj hburst).1 (by decide)

end TrustedGrub.Serial
