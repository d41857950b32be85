import TrustedGrub.Lib.StringEdit
import TrustedGrub.Md5.Crypt

/-!
# Making crypted passwords

`md5_password` when it is not to check, and `md5crypt`, which calls it so. What it makes is what it accepts for the same key.
-/

namespace TrustedGrub.Md5
open Fips180 (Byte Word)
open Memory (slice store)
open StringPool (Holds)

/-! ## The code -/

/-- The characters of a word are put at the pointer. -/
def putWord : Nat → Word → (Nat → Byte) × Nat → (Nat → Byte) × Nat
  | 0, _, p => p
  | n + 1, w, p => putWord n (w >>> 6) (store p.1 p.2 [b64t.getD (w &&& 0x3f#32).toNat 0], p.2 + 1)

/-- The length of the salt: up to a dollar sign among the first eight characters. -/
def saltLength (m : Nat → Byte) : Nat :=
  let salt := (slice m 3 8).takeWhile fun c => c ≠ 0
  if salt.any fun c => c = dollar then (salt.takeWhile fun c => c ≠ dollar).length else 8

/-- `md5_password (key, crypted, 0)`: the memory from `crypted` on. -/
def makeMd5Password (ctx : Context) (key : List Byte) (m : Nat → Byte) : Option ((Nat → Byte) × Context) :=
  let saltlen := saltLength m
  let m := store m (3 + saltlen) [dollar]
  (passwordDigest ctx key (.text (slice m 0 (3 + saltlen))) (.text (slice m 3 saltlen))).map fun ctx =>
    let p := (output ctx.state.bytes).foldl (fun p w => putWord w.1 w.2 p) (m, 3 + saltlen + 1)
    (store p.1 p.2 [0], ctx)

def seedchars : List Byte := "./0123456789ABCDEFGHIJKLMNOPQRSTUVWXYZabcdefghijklmnopqrstuvwxyz".toList.map fun c => BitVec.ofNat 8 c.toNat

/-- `for (i = 0; i < 8 && seed; i++)` -/
def seedSalt : Nat → Word → List Byte
  | 0, _ => []
  | n + 1, seed => if seed ≠ 0 then seedchars.getD (seed &&& 0x3f#32).toNat 0 :: seedSalt n (seed >>> 6) else []

/-- The magical prefix. -/
def magic : List Byte := [dollar, 0x31, dollar]

/-- `md5crypt_func`, from the clock and for the key that is entered: the memory from its variable `crypted`, at this address, on. -/
def md5cryptFunc (ctx : Context) (addr : Nat) (currticks : Word) (key : List Byte) (m : Nat → Byte) : Option ((Nat → Byte) × Context) :=
  let (ok, ctx) := ctx.memcheck addr 36
  let m := if ok then store m 0 (List.replicate 36 0) else m
  let (ok, ctx) := ctx.memcheck addr 3
  let m := if ok then store m 0 magic else m
  let salt := seedSalt 8 currticks
  let m := store m 3 salt
  let m := store m (3 + salt.length) [dollar]
  makeMd5Password ctx key m

/-! ## What is put -/

variable {m : Nat → Byte} {key header salt : List Byte}

theorem putWord_eq (n : Nat) (w : Word) (m : Nat → Byte) (p : Nat) : putWord n w (m, p) = (store m p (chars n w), p + n) := by
  induction n generalizing w m p with
  | zero =>
    have hnil : store m p [] = m := by
      funext x
      by_cases hx : x < p
      · exact Memory.store_of_lt hx
      · exact Memory.store_of_ge (Nat.le_of_not_lt hx)
    rw [putWord, chars, hnil]
    rfl
  | succ n ih =>
    have hsplit : store m p (chars (n + 1) w) = store (store m p [b64t.getD (w &&& 0x3f#32).toNat 0]) (p + 1) (chars n (w >>> 6)) := by
      rw [chars, ← List.singleton_append, Memory.store_append, List.length_singleton]
    rw [putWord, ih, hsplit]
    congr 1
    omega

theorem putOutput_eq (ws : List (Nat × Word)) (m : Nat → Byte) (p : Nat) : ws.foldl (fun p w => putWord w.1 w.2 p) (m, p) =
    (store m p (ws.flatMap fun w => chars w.1 w.2), p + (ws.flatMap fun w => chars w.1 w.2).length) := by
  induction ws generalizing m p with
  | nil => exact putWord_eq 0 0 m p
  | cons w ws ih =>
    rw [List.foldl_cons, putWord_eq, ih, List.flatMap_cons, Memory.store_append, List.length_append, chars_length, Nat.add_assoc]

/-! ## What is made -/

/-- The memory begins with a header, a salt and a dollar sign. -/
structure Salted (m : Nat → Byte) (header salt : List Byte) : Prop where
  three : header.length = 3
  eight : salt.length ≤ 8
  nonzero : (0 : Byte) ∉ header ++ salt
  undelimited : dollar ∉ salt
  cells : slice m 0 (3 + salt.length + 1) = header ++ salt ++ [dollar]

theorem Salted.parts (h : Salted m header salt) : slice m 0 3 = header ∧ slice m 3 (salt.length + 1) = salt ++ [dollar] := by
  have hcells := h.cells
  rw [Nat.add_assoc, Memory.slice_add, List.append_assoc] at hcells
  exact List.append_inj hcells ((Memory.slice_length _ _ _).trans h.three.symm)

theorem Salted.slice_salt (h : Salted m header salt) : slice m 3 salt.length = salt := by
  have hbehind := h.parts.2
  rw [Memory.slice_add] at hbehind
  exact (List.append_inj' hbehind rfl).1

theorem Salted.saltLength (h : Salted m header salt) : saltLength m = salt.length := by
  have height := h.eight
  have hzero : (0 : Byte) ∉ salt := fun hin => h.nonzero (List.mem_append_right _ hin)
  have hall : ∀ c ∈ salt, decide (c ≠ 0) = true := fun c hc => decide_eq_true fun hz => hzero (hz ▸ hc)
  unfold Md5.saltLength
  dsimp only
  obtain hlt | heq := Nat.lt_or_eq_of_le height
  · obtain ⟨k, hk⟩ : ∃ k, 8 = salt.length + 1 + k := ⟨8 - (salt.length + 1), by omega⟩
    have hslice : slice m 3 8 = salt ++ dollar :: slice m (3 + (salt.length + 1)) k := by
      rw [hk, Memory.slice_add, h.parts.2, List.append_assoc, List.singleton_append]
    have htake : (slice m 3 8).takeWhile (fun c => decide (c ≠ 0)) =
        salt ++ dollar :: (slice m (3 + (salt.length + 1)) k).takeWhile fun c => decide (c ≠ 0) := by
      rw [hslice, List.takeWhile_append_of_pos hall, List.takeWhile_cons_of_pos (by decide)]
    have hsign : ∀ c ∈ salt, decide (c ≠ dollar) = true := fun c hc => decide_eq_true fun hd => h.undelimited (hd ▸ hc)
    rw [htake, if_pos (List.any_eq_true.2 ⟨dollar, List.mem_append_right _ List.mem_cons_self, decide_eq_true rfl⟩),
      List.takeWhile_append_of_pos hsign, List.takeWhile_cons_of_neg (by decide),
      List.append_nil]
  · have hslice := h.slice_salt
    rw [heq] at hslice
    have hnone : ¬ salt.any (fun c => c = dollar) = true := by
      rw [List.any_eq_true]
      rintro ⟨c, hin, hd⟩
      exact h.undelimited (of_decide_eq_true hd ▸ hin)
    rw [hslice, List.takeWhile_eq_self_iff.2 hall, if_neg hnone, heq]

/-- **What is made**: the crypted password that belongs to the header and the salt. Nothing is stored behind it. -/
theorem Salted.made (h : Salted m header salt) {ctx : Context} (hready : ctx.Ready) (key : List Byte) :
    ∃ m' ctx', makeMd5Password ctx key m = some (m', ctx') ∧ Holds 0 m' 0 (crypted wrappedDigest key header salt) ∧
      ∀ x, 3 + salt.length + 24 ≤ x → m' x = m x := by
  obtain ⟨hheader, hbehind⟩ := h.parts
  have hstored : store m (3 + salt.length) [dollar] = m := by
    have hsign : m (3 + salt.length) = dollar := by
      rw [Memory.slice_add] at hbehind
      exact (List.cons.inj (List.append_inj' hbehind rfl).2).1
    funext x
    obtain hlt | rfl | hgt := Nat.lt_trichotomy x (3 + salt.length)
    · exact Memory.store_of_lt hlt
    · rw [hsign]
      exact Memory.store_at (m := m) (i := 0) (show 0 < [dollar].length from Nat.zero_lt_one)
    · exact Memory.store_of_ge hgt
  have hsalted : slice m 0 (3 + salt.length) = header ++ salt := by
    rw [Memory.slice_add, hheader, Nat.zero_add, h.slice_salt]
  obtain ⟨ctx', hrun, hstate, -⟩ := passwordDigest_state hready key header salt
  have hmade : makeMd5Password ctx key m =
      some (store m (3 + salt.length + 1) (encode (cryptBy wrappedDigest key header salt) ++ [0]), ctx') := by
    unfold makeMd5Password
    dsimp only
    rw [h.saltLength, hstored, hsalted, h.slice_salt, hrun, Option.map_some, putOutput_eq, hstate, Memory.store_append]
    rfl
  have hlen := encode_length (cryptBy wrappedDigest key header salt)
  refine ⟨_, ctx', hmade, ?_, ?_⟩
  · have hfront : slice (store m (3 + salt.length + 1) (encode (cryptBy wrappedDigest key header salt) ++ [0])) 0
      (header ++ salt ++ [dollar]).length =
        header ++ salt ++ [dollar] := by
      have hlength : (header ++ salt ++ [dollar]).length = 3 + salt.length + 1 := by
        rw [List.length_append, List.length_append, h.three]
        rfl
      rw [hlength, Memory.slice_store_disjoint (.inl (by omega)), h.cells]
    have hchars : (0 : Byte) ∉ header ++ salt ++ [dollar] := fun hin =>
      (List.mem_append.1 hin).elim h.nonzero fun hd => absurd (List.mem_singleton.1 hd) (by decide)
    have hplace : 0 + (header ++ salt ++ [dollar]).length = 3 + salt.length + 1 := by
      rw [Nat.zero_add, List.length_append, List.length_append, h.three]
      rfl
    have hend := StringPool.holds_store m (3 + salt.length + 1) (encode_ne_zero (cryptBy wrappedDigest key header salt))
    have hcrypted :
        crypted wrappedDigest key header salt = header ++ salt ++ [dollar] ++ encode (cryptBy wrappedDigest key header salt) := by
      rw [crypted, List.append_assoc (header ++ salt), List.singleton_append]
    rw [← hplace] at hend hfront ⊢
    rw [hcrypted]
    exact StringPool.holds_append hfront hchars hend
  · intro x hx
    apply Memory.store_of_ge
    rw [List.length_append, hlen, List.length_singleton]
    omega

/-- The check accepts it, wherever it is stored. -/
theorem Salted.accepted (h : Salted m header salt) {ctx : Context} (hready : ctx.Ready) (key : List Byte) {mem : Nat → Byte} {a : Nat}
    (hholds : Holds 0 mem a (crypted wrappedDigest key header salt)) : ∃ c, md5Password ctx mem key a = some (0, c) := by
  have hmatch : MatchesBy wrappedDigest key (crypted wrappedDigest key header salt) := ⟨header, salt, h.three, h.undelimited, rfl⟩
  have hlength : (crypted wrappedDigest key header salt).length < 2 ^ 32 := by
    have height := h.eight
    have hheader := h.three
    rw [crypted, List.length_append, List.length_append, List.length_cons, encode_length]
    omega
  obtain ⟨r, c, hrun, hzero, -⟩ := password_closed hready key hholds hlength hmatch.dollar.1 hmatch.dollar.2
  obtain rfl := hzero.2 hmatch
  exact ⟨c, hrun⟩

/-! ## The salt of `md5crypt` -/

theorem seedSalt_short (n : Nat) (seed : Word) : (seedSalt n seed).length ≤ n := by
  induction n generalizing seed with
  | zero => exact Nat.le_refl 0
  | succ n ih =>
    rw [seedSalt]
    split
    · exact Nat.succ_le_succ (ih _)
    · exact Nat.zero_le _

theorem seedSalt_chars (n : Nat) (seed : Word) : ∀ c ∈ seedSalt n seed, c ≠ 0 ∧ c ≠ dollar := by
  have hall : ∀ i < 64, seedchars.getD i 0 ≠ 0 ∧ seedchars.getD i 0 ≠ dollar := by decide +kernel
  induction n generalizing seed with
  | zero => exact fun c hc => absurd hc List.not_mem_nil
  | succ n ih =>
    rw [seedSalt]
    split
    · intro c hc
      obtain rfl | hc := List.mem_cons.1 hc
      · apply hall
        rw [Sha1.low_six_bits]
        exact Nat.mod_lt _ (by decide)
      · exact ih _ c hc
    · exact fun c hc => absurd hc List.not_mem_nil

theorem md5cryptFunc_salted (currticks : Word) (m : Nat → Byte) :
    Salted (store (store (store (store m 0 (List.replicate 36 0)) 0 magic) 3 (seedSalt 8 currticks)) (3 + (seedSalt 8 currticks).length)
      [dollar])
      magic (seedSalt 8 currticks) := by
  have hchars := seedSalt_chars 8 currticks
  refine ⟨rfl, seedSalt_short 8 currticks, fun hin => ?_, fun hin => (hchars _ hin).2 rfl, ?_⟩
  · obtain hin | hin := List.mem_append.1 hin
    · exact absurd hin (by decide)
    · exact (hchars _ hin).1 rfl
  · have hstore : store (store (store (store m 0 (List.replicate 36 0)) 0 magic) 3 (seedSalt 8 currticks))
      (3 + (seedSalt 8 currticks).length) [dollar] =
        store (store m 0 (List.replicate 36 0)) 0 (magic ++ seedSalt 8 currticks ++ [dollar]) := by
      rw [Memory.store_append, Memory.store_append, List.length_append, Nat.zero_add, Nat.zero_add]
      rfl
    rw [hstore]
    apply Memory.slice_store
    rw [List.length_append, List.length_append]
    rfl

/-! ## Agreement -/

/-- The stored string is what is made for its own header and salt. -/
def Recomputed (key stored : List Byte) : Prop := MatchesBy wrappedDigest key stored

/-- What is made with a salt of up to eight characters is accepted, and so is what `md5crypt` makes. -/
structure Made (ctx ctx' : Context) (key : List Byte) : Prop where
  salted : ∀ m header salt, Salted m header salt → ∃ m' c, makeMd5Password ctx key m = some (m', c) ∧
    ∃ t, Holds 0 m' 0 t ∧ ∀ mem a, Holds 0 mem a t → ∃ c', md5Password ctx' mem key a = some (0, c')
  md5crypt : ∀ addr currticks m, 0x1000 ≤ addr → addr + 36 ≤ 0x100000 → CharIo.wontFit ctx.memory (.ofNat 32 addr) 36 = false →
    ∃ m' c, md5cryptFunc ctx addr currticks key m = some (m', c) ∧
      ∃ t, Holds 0 m' 0 t ∧ (∀ x, 36 ≤ x → m' x = m x) ∧ ∀ mem a, Holds 0 mem a t → ∃ c', md5Password ctx' mem key a = some (0, c')

theorem made {ctx ctx' : Context} (h : ctx.Ready) (h' : ctx'.Ready) (key : List Byte) : Made ctx ctx' key where
  salted m header salt hsalted := by
    obtain ⟨m', c, hrun, hholds, -⟩ := hsalted.made h key
    exact ⟨m', c, hrun, _, hholds, fun mem a hmem => hsalted.accepted h' key hmem⟩
  md5crypt addr currticks m hfirst hlast hfits := by
    have hsalted := md5cryptFunc_salted currticks m
    have hshort := seedSalt_short 8 currticks
    have hprefix : CharIo.wontFit ctx.memory (.ofNat 32 addr) 3 = false :=
      wontFit_part (n := 36) (i := 0) (k := 3) hfits hfirst hlast (by decide)
    obtain ⟨m', c, hrun, hholds, hbehind⟩ := hsalted.made h key
    refine ⟨m', c, ?_, _, hholds, fun x hx => (hbehind x (by omega)).trans ?_, fun mem a hmem => hsalted.accepted h' key hmem⟩
    · unfold md5cryptFunc
      rw [memcheck_fits h.errnum hfits]
      dsimp only
      rw [memcheck_fits h.errnum hprefix]
      exact hrun
    · rw [Memory.store_of_ge, Memory.store_of_ge, Memory.store_of_ge, Memory.store_of_ge]
      · rw [List.length_replicate]
        omega
      · show 0 + 3 ≤ x
        omega
      · omega
      · rw [List.length_singleton]
        omega

/-- **Agreement** of the two ways of `md5_password`, with no error pending. What is made is accepted, and a check comes back, with
zero exactly for what is made from its own header and salt: if the salt ends, or else if no digest lies at the addresses that a
null pointer leads to. -/
theorem md5crypt_agrees (key : List Byte) :
    (∀ ctx ctx' : Context, ctx.Ready → ctx'.Ready → Made ctx ctx' key) ∧
      ∀ (ctx : Context) mem a stored, Checkable ctx mem stored → Holds 0 mem a stored → stored.length < 2 ^ 32 →
        0x68000 ≤ a ∧ a + 3 ≤ 2 ^ 31 →
        ∃ r c, md5Password ctx mem key a = some (r, c) ∧ (r = 0 ↔ Recomputed key stored) := by
  refine ⟨fun ctx ctx' h h' => made h h' key, fun ctx mem a stored h hholds hlength hplace => ?_⟩
  obtain ⟨r, c, hrun, hzero, -⟩ := password_check h key hholds hlength hplace
  exact ⟨r, c, hrun, hzero⟩

theorem zeroed_ready : Context.zeroed.Ready := ⟨⟨rfl, by decide, by decide⟩, by decide⟩

/-- What is made for the key `a` without a salt. -/
theorem md5crypt_agrees_unsalted :
    Made .zeroed .zeroed [0x61] ∧
      ∃ r c, md5Password .zeroed (store (fun _ => 0) 0x78000 (crypted wrappedDigest [0x61] magic [] ++ [0])) [0x61] 0x78000 = some (r, c) ∧
        (r = 0 ↔ Recomputed [0x61] (crypted wrappedDigest [0x61] magic [])) := by
  have hmatch : Recomputed [0x61] (crypted wrappedDigest [0x61] magic []) := ⟨magic, [], rfl, List.not_mem_nil, rfl⟩
  have hlength : (crypted wrappedDigest [0x61] magic []).length = 26 := by
    rw [crypted, List.length_append, List.length_cons, encode_length]
    rfl
  have hchars : (0 : Byte) ∉ crypted wrappedDigest [0x61] magic [] := by
    rw [crypted, List.mem_append, List.mem_cons]
    exact fun h => h.elim (by decide) fun h => h.elim (by decide) (encode_ne_zero _)
  exact ⟨(md5crypt_agrees [0x61]).1 .zeroed .zeroed zeroed_ready zeroed_ready,
    (md5crypt_agrees [0x61]).2 .zeroed _ 0x78000 _ ⟨by decide, fun _ => zeroed_ready, fun _ h => absurd hmatch.dollar.2 h⟩
      (StringPool.holds_store _ _ hchars) (by rw [hlength]; decide) (by decide)⟩

/-- `$1$ab` has no dollar sign behind its header. -/
def unclosed : List Byte := [dollar, 0x31, dollar, 0x61, 0x62]

/-- It is accepted where the digest that is computed lies, in characters, from address 1 on. -/
theorem unclosed_accepted : ∃ mem, Holds 0 mem 0x78000 unclosed ∧ (∃ c, md5Password .zeroed mem [0x61] 0x78000 = some (0, c)) ∧
    ¬ Recomputed [0x61] unclosed := by
  have hharmless : (Piece.negative (-.ofNat 32 0x78000)).Harmless ∧ (Piece.negative (-.ofNat 32 0x78003)).Harmless := by
    constructor
    all_goals
      show 2 ^ 31 ≤ BitVec.toNat _ ∧ BitVec.toNat _ + 0x68000 ≤ 2 ^ 32
      decide
  have hlower : Context.zeroed.memory.lowerEnd ≤ 0x100000 := by decide
  obtain ⟨ctx, hrun, -⟩ := passwordDigest_fixed hlower [0x61] hharmless.1 hharmless.2
  have hvectors := StringPool.holds_store (store (fun _ => 0) 0x78000 (unclosed ++ [0])) 1 (encode_ne_zero ctx.state)
  have hholds : Holds 0 (store (store (fun _ => 0) 0x78000 (unclosed ++ [0])) 1 (encode ctx.state ++ [0])) 0x78000 unclosed := by
    apply (StringPool.holds_store (fun _ => 0) 0x78000 (by decide)).outside
    rw [List.length_append, encode_length]
    exact .inl (by decide)
  refine ⟨_, hholds, ⟨ctx, ?_⟩, fun hmatch => absurd hmatch.dollar.2 (by decide)⟩
  have hread := hholds.read (n := 2 ^ 32) (by decide)
  unfold md5Password
  rw [hread]
  dsimp only
  rw [if_neg (by decide), show checkSalt unclosed 0x78000 = (.negative (-.ofNat 32 0x78003), .negative (-.ofNat 32 0x78000), 1) from rfl]
  dsimp only
  rw [hrun, Option.map_some, compareDigest_eq_zero.2 hvectors]

end TrustedGrub.Md5
