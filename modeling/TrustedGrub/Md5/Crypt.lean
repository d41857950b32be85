import Mathlib.Data.List.TakeWhile
import Mathlib.Data.Nat.Bits
import TrustedGrub.Lib.Packed
import TrustedGrub.Lib.StringEdit
import TrustedGrub.Md5.Update

/-!
# `md5_password`

The check of a key against a crypted password, which is a header of three characters, the salt up to a dollar sign, and
twenty-two characters of the digest. `crypt` is the scheme on whole messages, and `password_check` says that the check
succeeds on exactly the passwords of that scheme.
-/

namespace TrustedGrub.Md5
open Fips180 (Byte Word)
open Memory (slice store)
open StringPool (Holds)

def b64t : List Byte := "./0123456789ABCDEFGHIJKLMNOPQRSTUVWXYZabcdefghijklmnopqrstuvwxyz".toList.map fun c => BitVec.ofNat 8 c.toNat

def dollar : Byte := 0x24

/-! ## The code -/

/-- What `md5_update` gets: a text, or a length that is negative as an `int`. -/
inductive Piece where
  | text (input : List Byte)
  | negative (inputlen : Word)

/-- `md5_update`. The copy of a negative length runs over all of memory, unless it is refused. -/
def Context.feed (ctx : Context) : Piece → Option Context
  | .text input => some (md5Update ctx input)
  | .negative inputlen =>
    let buflen := (ctx.length &&& 63#32).toNat
    let (ok, ctx) := { ctx with length := ctx.length + inputlen }.memcheck (ctx.places.buffer + buflen) inputlen
    if ok then none else some ctx

/-- `md5_init`, the updates with these pieces, and `md5_final`. -/
def digested (ctx : Context) (pieces : List Piece) : Option Context := (pieces.foldlM Context.feed (md5Init ctx)).map md5Final

/-- `memcpy (alt_result, digest, 16)` -/
def Context.keepDigest (ctx : Context) : Context :=
  let (ok, ctx) := ctx.memcheck ctx.places.altResult 16
  if ok then { ctx with altResult := ctx.state } else ctx

/-- `for (i = keylen; i > 16; i -= 16)`, and the update behind it. -/
def altPieces (alt : List Byte) : Nat → Nat → List (List Byte)
  | 0, i => [alt.take i]
  | fuel + 1, i => if 16 < i then alt :: altPieces alt fuel (i - 16) else [alt.take i]

/-- `for (i = keylen; i > 0; i >>= 1)`: the character behind the key or its first one. -/
def lengthPieces (key : List Byte) : Nat → Nat → List (List Byte)
  | 0, _ => []
  | fuel + 1, i => if 0 < i then [if i % 2 = 1 then 0 else key.headD 0] :: lengthPieces key fuel (i / 2) else []

/-- The updates of pass `i` of the thousand. -/
def turnPieces {α : Type} (key salt alt : α) (i : Nat) : List α :=
  [if i % 2 ≠ 0 then key else alt] ++ (if i % 3 ≠ 0 then [salt] else []) ++ (if i % 7 ≠ 0 then [key] else []) ++
    [if i % 2 ≠ 0 then alt else key]

/-- Three bytes of the digest, the last one lowest. -/
def threeBytes (digest : List Byte) (i : Nat) : Word :=
  (digest.getD (if i = 4 then 5 else 12 + i) 0).setWidth 32 ||| (digest.getD (6 + i) 0).setWidth 32 <<< 8 |||
    (digest.getD i 0).setWidth 32 <<< 16

/-- The words that are put out, each with the number of its characters. -/
def output (digest : List Byte) : List (Nat × Word) :=
  (List.range 5).map (fun i => (4, threeBytes digest i)) ++ [(2, (digest.getD 11 0).setWidth 32)]

/-- `if (*p++ != b64t[w & 0x3f]) return 1`, for the characters of a word: what follows them at `p`. -/
def checkWord : Nat → Word → List Byte → Option (List Byte)
  | 0, _, p => some p
  | n + 1, w, p => if p.headD 0 = b64t.getD (w &&& 0x3f#32).toNat 0 then checkWord n (w >>> 6) p.tail else none

/-- A pass of the thousand. -/
def passwordTurn (key : List Byte) (salt : Piece) (ctx : Context) (i : Nat) : Option Context :=
  let ctx := ctx.keepDigest
  digested ctx (turnPieces (.text key) salt (.text ctx.altResult.bytes) i)

/-- The digests of `md5_password`, with the salt and with the header and the salt. -/
def passwordDigest (ctx : Context) (key : List Byte) (salted salt : Piece) : Option Context :=
  (digested ctx [.text key, salt, .text key]).bind fun ctx =>
    let ctx := ctx.keepDigest
    (digested ctx ([.text key, salted] ++
        (altPieces ctx.altResult.bytes key.length key.length ++ lengthPieces key key.length key.length).map .text)).bind fun ctx =>
      (List.range 1000).foldlM (passwordTurn key salt) ctx

/-- The salt, the header with the salt, and `p = salt + saltlen + 1`. Without a dollar sign `strstr` returns null, and
`strstr (salt, "$") - salt` is the negative of the address. -/
def checkSalt (stored : List Byte) (crypted : Nat) : Piece × Piece × Nat :=
  let salt := stored.drop 3
  if dollar ∈ salt then
    let saltlen := (salt.takeWhile fun c => c ≠ dollar).length
    (.text (salt.take saltlen), .text (stored.take (3 + saltlen)), crypted + 3 + saltlen + 1)
  else (.negative (-.ofNat 32 (crypted + 3)), .negative (-.ofNat 32 crypted), 1)

/-- The characters of the digest against those at `p`: what is returned. -/
def compareDigest (m : Nat → Byte) (p : Nat) (digest : List Byte) : Int :=
  match (output digest).foldlM (fun p w => checkWord w.1 w.2 p) (slice m p 23) with
  | none => 1
  | some p => (p.headD 0).toInt

/-- `md5_password (key, crypted, 1)` -/
def md5Password (ctx : Context) (m : Nat → Byte) (key : List Byte) (crypted : Nat) : Option (Int × Context) :=
  let stored := StringPool.read 0 m (2 ^ 32) crypted
  if stored.length ≤ 3 then some (1, ctx)
  else
    let (salt, salted, p) := checkSalt stored crypted
    (passwordDigest ctx key salted salt).map fun ctx => (compareDigest m p ctx.state.bytes, ctx)

/-! ## The scheme -/

/-- The first `n` bytes of a digest that is repeated. -/
def cycle (alt : List Byte) (n : Nat) : List Byte := (List.range n).map fun j => alt.getD (j % 16) 0

/-- A character for each binary digit of the length of the key, the lowest first. -/
def lengthChars (key : List Byte) : List Byte := key.length.bits.map fun b => if b then 0 else key.headD 0

/-- The message of turn `i`. -/
def turn (key salt alt : List Byte) (i : Nat) : List Byte := (turnPieces key salt alt i).flatten

/-- The digest of a key under a header and a salt. -/
def crypt (key header salt : List Byte) : Words :=
  let alt := (digest (key ++ salt ++ key)).bytes
  (List.range 1000).foldl (fun d i => digest (turn key salt d.bytes i))
    (digest (key ++ (header ++ salt) ++ cycle alt key.length ++ lengthChars key))

/-- The characters of a word, six bits each, the lowest first. -/
def chars : Nat → Word → List Byte
  | 0, _ => []
  | n + 1, w => b64t.getD (w &&& 0x3f#32).toNat 0 :: chars n (w >>> 6)

/-- The digest in characters. -/
def encode (d : Words) : List Byte := (output d.bytes).flatMap fun w => chars w.1 w.2

/-- The digest of a key under a header and a salt, for some digest of messages. -/
def cryptBy (D : List Byte → Words) (key header salt : List Byte) : Words :=
  let alt := (D (key ++ salt ++ key)).bytes
  (List.range 1000).foldl (fun d i => D (turn key salt d.bytes i))
    (D (key ++ (header ++ salt) ++ cycle alt key.length ++ lengthChars key))

/-- The crypted password that belongs to a header and a salt. -/
def crypted (D : List Byte → Words) (key header salt : List Byte) : List Byte :=
  header ++ salt ++ dollar :: encode (cryptBy D key header salt)

/-- The crypted password is one of the key. -/
def Matches (key crypted : List Byte) : Prop :=
  ∃ header salt, header.length = 3 ∧ dollar ∉ salt ∧ crypted = header ++ salt ++ dollar :: encode (crypt key header salt)

/-! ## The statics hold the messages of the scheme -/

/-- All that `md5_password` copies to may be written, and no error is pending. -/
structure Places.Ready (places : Places) (memory : CharIo.Memory) : Prop extends places.Clear memory where
  altResult : CharIo.wontFit memory (.ofNat 32 places.altResult) 16 = false

abbrev Context.Ready (ctx : Context) : Prop := ctx.places.Ready ctx.memory

/-- `memcheck` answers as before. -/
def Context.Alike (ctx ctx' : Context) : Prop := ctx'.memory = ctx.memory ∧ ctx'.places = ctx.places

variable {ctx ctx' : Context} {m key header salt alt : List Byte}

theorem Context.Ready.alike (h : ctx.Ready) (hsame : ctx.Alike ctx') : ctx'.Ready := by
  rw [Context.Ready, hsame.1, hsame.2]
  exact h

theorem Context.Alike.trans {ctx'' : Context} (h : ctx.Alike ctx') (h' : ctx'.Alike ctx'') : ctx.Alike ctx'' :=
  ⟨h'.1.trans h.1, h'.2.trans h.2⟩

theorem keepDigest_eq (h : ctx.Ready) : ctx.keepDigest = { ctx with altResult := ctx.state } := by
  unfold Context.keepDigest
  rw [memcheck_fits h.errnum h.altResult]
  rfl

theorem texts_represent {places : Places} {memory : CharIo.Memory} (h : Represents places memory ctx m) (pieces : List (List Byte)) :
    ∃ ctx', (pieces.map Piece.text).foldlM Context.feed ctx = some ctx' ∧ Represents places memory ctx' (m ++ pieces.flatten) := by
  induction pieces generalizing ctx m with
  | nil =>
    rw [List.flatten_nil, List.append_nil]
    exact ⟨ctx, rfl, h⟩
  | cons piece pieces ih =>
    rw [List.flatten_cons, ← List.append_assoc]
    exact ih (update_represents h piece)

/-- Whatever the statics held before. -/
theorem digested_texts (h : ctx.Ready) (pieces : List (List Byte)) :
    ∃ ctx', digested ctx (pieces.map .text) = some ctx' ∧ ctx'.state = wrappedDigest pieces.flatten ∧ ctx.Alike ctx' := by
  obtain ⟨ctx', hrun, hrep⟩ := texts_represent (init_represents h.toClear) pieces
  obtain ⟨hstate, hsame⟩ := final_wrapped hrep
  refine ⟨md5Final ctx', ?_, hstate, hsame⟩
  rw [digested, hrun]
  rfl

theorem altPieces_flatten (halt : alt.length = 16) {fuel i : Nat} (hfuel : i ≤ fuel) : (altPieces alt fuel i).flatten = cycle alt i := by
  have hshort {i : Nat} (hi : i ≤ 16) : [alt.take i].flatten = cycle alt i := by
    rw [List.flatten_singleton, cycle]
    apply List.ext_getElem
    · simp only [List.length_take, List.length_map, List.length_range, halt, Nat.min_eq_left hi]
    · intro j hj hj'
      have hlt : j < i := by simpa using hj'
      have hin : j < alt.length := by omega
      rw [List.getElem_take, List.getElem_map, List.getElem_range, Nat.mod_eq_of_lt (by omega), List.getD_eq_getElem?_getD,
        List.getElem?_eq_getElem hin, Option.getD_some]
  induction fuel generalizing i with
  | zero => exact hshort (by omega)
  | succ fuel ih =>
    rw [altPieces]
    split
    next hlt =>
      have hwhole : alt = (List.range 16).map fun j => alt.getD (j % 16) 0 := by
        have htake := hshort (Nat.le_refl 16)
        rwa [List.flatten_singleton, ← halt, List.take_length, halt] at htake
      have hsum : i = 16 + (i - 16) := by omega
      rw [List.flatten_cons, ih (by omega)]
      conv_rhs => rw [cycle, hsum, List.range_add, List.map_append, ← hwhole, List.map_map]
      congr 1
      apply List.map_congr_left
      intro j _
      rw [Function.comp_apply, Nat.add_mod_left]
    next hle => exact hshort (by omega)

theorem lengthPieces_flatten (key : List Byte) {fuel i : Nat} (hfuel : i ≤ fuel) :
    (lengthPieces key fuel i).flatten = i.bits.map fun b => if b then 0 else key.headD 0 := by
  induction fuel generalizing i with
  | zero =>
    obtain rfl := Nat.le_zero.1 hfuel
    rw [Nat.zero_bits]
    rfl
  | succ fuel ih =>
    rw [lengthPieces]
    split
    next hpos =>
      rw [List.flatten_cons, ih (by omega)]
      rcases Nat.mod_two_eq_zero_or_one i with heven | hodd
      · have hbits := Nat.bit0_bits (i / 2) (by omega)
        rw [show 2 * (i / 2) = i by omega] at hbits
        rw [hbits, heven]
        rfl
      · have hbits := Nat.bit1_bits (i / 2)
        rw [show 2 * (i / 2) + 1 = i by omega] at hbits
        rw [hbits, hodd]
        rfl
    next hzero =>
      obtain rfl := Nat.eq_zero_of_not_pos hzero
      rw [Nat.zero_bits]
      rfl

/-! ## The characters -/

theorem b64t_ne_zero (w : Word) : b64t.getD (w &&& 0x3f#32).toNat 0 ≠ 0 := by
  have hall : ∀ i < 64, b64t.getD i 0 ≠ 0 := by decide +kernel
  apply hall
  rw [Sha1.low_six_bits]
  exact Nat.mod_lt _ (by decide)

theorem b64t_mem (w : Word) : b64t.getD (w &&& 0x3f#32).toNat 0 ∈ b64t := by
  have hall : ∀ i < 64, b64t.getD i 0 ∈ b64t := by decide +kernel
  apply hall
  rw [Sha1.low_six_bits]
  exact Nat.mod_lt _ (by decide)

theorem chars_mem (n : Nat) (w : Word) : ∀ c ∈ chars n w, c ∈ b64t := by
  induction n generalizing w with
  | zero => exact fun c hc => absurd hc List.not_mem_nil
  | succ n ih =>
    intro c hc
    rw [chars, List.mem_cons] at hc
    obtain rfl | hc := hc
    · exact b64t_mem w
    · exact ih _ c hc

theorem chars_length (n : Nat) (w : Word) : (chars n w).length = n := by
  induction n generalizing w with
  | zero => rfl
  | succ n ih => rw [chars, List.length_cons, ih]

theorem encode_mem {d : Words} {c : Byte} (h : c ∈ encode d) : c ∈ b64t := by
  obtain ⟨w, -, hc⟩ := List.mem_flatMap.1 h
  exact chars_mem w.1 w.2 c hc

theorem encode_ne_zero (d : Words) : (0 : Byte) ∉ encode d := fun hin => absurd (encode_mem hin) (by decide)

theorem encode_length (d : Words) : (encode d).length = 22 := by
  rw [encode, List.length_flatMap]
  simp only [chars_length]
  rfl

theorem checkWord_eq {n : Nat} {w : Word} {p q : List Byte} : checkWord n w p = some q ↔ p = chars n w ++ q := by
  induction n generalizing w p with
  | zero => rw [checkWord, chars, List.nil_append, Option.some.injEq]
  | succ n ih =>
    rw [checkWord, chars, List.cons_append]
    cases p with
    | nil =>
      rw [List.headD_nil, if_neg (b64t_ne_zero w).symm]
      exact iff_of_false nofun nofun
    | cons c p =>
      rw [List.headD_cons, List.tail_cons, List.cons.injEq]
      split
      next hc => rw [ih, and_iff_right hc]
      next hc => exact iff_of_false nofun fun h => hc h.1

theorem checkOutput_eq {ws : List (Nat × Word)} {p q : List Byte} :
    ws.foldlM (fun p w => checkWord w.1 w.2 p) p = some q ↔ p = ws.flatMap (fun w => chars w.1 w.2) ++ q := by
  induction ws generalizing p with
  | nil => exact Option.some_inj
  | cons w ws ih =>
    rw [List.foldlM_cons, List.flatMap_cons, List.append_assoc, Option.bind_eq_bind, Option.bind_eq_some_iff]
    simp only [checkWord_eq, ih]
    constructor
    · rintro ⟨a, rfl, rfl⟩
      rfl
    · rintro rfl
      exact ⟨_, rfl, rfl⟩

/-! ## The digest of the key -/

theorem cycle_length (alt : List Byte) (n : Nat) : (cycle alt n).length = n := by
  rw [cycle, List.length_map, List.length_range]

theorem lengthPieces_length (key : List Byte) (fuel i : Nat) : (lengthPieces key fuel i).flatten.length ≤ fuel := by
  induction fuel generalizing i with
  | zero => exact Nat.le_refl 0
  | succ fuel ih =>
    rw [lengthPieces]
    split
    · rw [List.flatten_cons, List.length_append, List.length_singleton, Nat.add_comm]
      exact Nat.succ_le_succ (ih (i / 2))
    · exact Nat.zero_le _

theorem turn_length (key salt alt : List Byte) (i : Nat) : (turn key salt alt i).length ≤ 2 * key.length + salt.length + alt.length := by
  have hends : (if i % 2 ≠ 0 then key else alt).length + (if i % 2 ≠ 0 then alt else key).length = key.length + alt.length := by
    split
    · rfl
    · exact Nat.add_comm _ _
  have hsalt : (if i % 3 ≠ 0 then [salt] else []).flatten.length ≤ salt.length := by
    split
    · rw [List.flatten_singleton]
    · exact Nat.zero_le _
  have hkey : (if i % 7 ≠ 0 then [key] else []).flatten.length ≤ key.length := by
    split
    · rw [List.flatten_singleton]
    · exact Nat.zero_le _
  rw [turn, turnPieces]
  simp only [List.flatten_append, List.flatten_singleton, List.length_append]
  omega

theorem turnPieces_map {α β : Type} (f : α → β) (key salt alt : α) (i : Nat) :
    (turnPieces key salt alt i).map f = turnPieces (f key) (f salt) (f alt) i := by
  unfold turnPieces
  split_ifs <;> rfl

/-- A pass of the thousand. -/
theorem turn_state (h : ctx.Ready) (key salt : List Byte) (i : Nat) :
    ∃ ctx', passwordTurn key (.text salt) ctx i = some ctx' ∧ ctx'.state = wrappedDigest (turn key salt ctx.state.bytes i) ∧
      ctx.Alike ctx' := by
  have hready : ({ ctx with altResult := ctx.state } : Context).Ready := h
  obtain ⟨ctx', hrun, hstate, hsame⟩ := digested_texts hready (turnPieces key salt ctx.state.bytes i)
  refine ⟨ctx', ?_, hstate, hsame⟩
  rw [passwordTurn, keepDigest_eq h, ← turnPieces_map]
  exact hrun

/-- The thousand passes. -/
theorem turns_state (is : List Nat) (h : ctx.Ready) (key salt : List Byte) :
    ∃ ctx', is.foldlM (passwordTurn key (.text salt)) ctx = some ctx' ∧
      ctx'.state = is.foldl (fun d i => wrappedDigest (turn key salt d.bytes i)) ctx.state ∧ ctx.Alike ctx' := by
  induction is generalizing ctx with
  | nil => exact ⟨ctx, rfl, rfl, rfl, rfl⟩
  | cons i is ih =>
    obtain ⟨ctx₁, hturn, hstate₁, hsame₁⟩ := turn_state h key salt i
    obtain ⟨ctx₂, hrun, hstate₂, hsame₂⟩ := ih (h.alike hsame₁)
    refine ⟨ctx₂, ?_, ?_, hsame₁.trans hsame₂⟩
    · rw [List.foldlM_cons, hturn]
      exact hrun
    · rw [hstate₂, hstate₁]
      rfl

/-- **The digest of the key**, whatever the statics held. -/
theorem passwordDigest_state (h : ctx.Ready) (key header salt : List Byte) :
    ∃ ctx', passwordDigest ctx key (.text (header ++ salt)) (.text salt) = some ctx' ∧
      ctx'.state = cryptBy wrappedDigest key header salt ∧ ctx.Alike ctx' := by
  obtain ⟨ctx₁, hfirst, hstate₁, hsame₁⟩ := digested_texts h [key, salt, key]
  have hflat₁ : [key, salt, key].flatten = key ++ salt ++ key := by
    simp only [List.flatten_cons, List.flatten_nil, List.append_nil, List.append_assoc]
  rw [hflat₁] at hstate₁
  have hready : ({ ctx₁ with altResult := ctx₁.state } : Context).Ready := h.alike hsame₁
  obtain ⟨ctx₂, hsecond, hstate₂, hsame₂⟩ := digested_texts hready ([key, header ++ salt] ++
    (altPieces ctx₁.state.bytes key.length key.length ++ lengthPieces key key.length key.length))
  have hflat₂ :
      ([key, header ++ salt] ++ (altPieces ctx₁.state.bytes key.length key.length ++ lengthPieces key key.length key.length)).flatten =
      key ++ (header ++ salt) ++ cycle ctx₁.state.bytes key.length ++ lengthChars key := by
    rw [List.flatten_append, List.flatten_append, altPieces_flatten (Words.bytes_length _) (Nat.le_refl _),
      lengthPieces_flatten key (Nat.le_refl _), lengthChars]
    simp only [List.flatten_cons, List.flatten_nil, List.append_nil, List.append_assoc]
  rw [hflat₂] at hstate₂
  obtain ⟨ctx₃, hturns, hstate₃, hsame₃⟩ := turns_state (List.range 1000) (h.alike (hsame₁.trans hsame₂)) key salt
  refine ⟨ctx₃, ?_, ?_, (hsame₁.trans hsame₂).trans hsame₃⟩
  · rw [List.map_append] at hsecond
    rw [passwordDigest, show [Piece.text key, .text salt, .text key] = [key, salt, key].map Piece.text from rfl, hfirst, Option.bind_some]
    dsimp only
    rw [keepDigest_eq (h.alike hsame₁), show [Piece.text key, .text (header ++ salt)] = [key, header ++ salt].map Piece.text from rfl,
      hsecond, Option.bind_some, hturns]
  · rw [hstate₃, hstate₂, hstate₁]
    rfl

/-- The messages of short keys and salts are digested as they are. -/
theorem cryptBy_wrapped {header : List Byte} (hkey : key.length < 2 ^ 16) (hheader : header.length < 2 ^ 16)
    (hsalt : salt.length < 2 ^ 16) :
    cryptBy wrappedDigest key header salt = crypt key header salt := by
  have hchars : (lengthChars key).length ≤ key.length := by
    have hpieces := lengthPieces_length key key.length key.length
    rwa [lengthPieces_flatten key (Nat.le_refl _)] at hpieces
  have hfirst : wrappedDigest (key ++ salt ++ key) = digest (key ++ salt ++ key) := by
    apply wrappedDigest_eq
    simp only [List.length_append]
    omega
  have hturns (is : List Nat) (d : Words) :
      is.foldl (fun d i => wrappedDigest (turn key salt d.bytes i)) d = is.foldl (fun d i => digest (turn key salt d.bytes i)) d := by
    have hturn : (fun (d : Words) i => wrappedDigest (turn key salt d.bytes i)) = fun d i => digest (turn key salt d.bytes i) := by
      funext d i
      have hlen := turn_length key salt d.bytes i
      rw [Words.bytes_length] at hlen
      exact wrappedDigest_eq (Nat.lt_of_le_of_lt hlen (by omega))
    rw [hturn]
  unfold cryptBy crypt
  dsimp only
  rw [hturns, hfirst, wrappedDigest_eq]
  simp only [List.length_append, cycle_length]
  omega

/-- Where the header is followed by a dollar sign, the text falls apart at the first one. -/
theorem split_salt {t : List Byte} (h : dollar ∈ t) :
    ∃ p, t = (t.takeWhile fun c => decide (c ≠ dollar)) ++ dollar :: p ∧ dollar ∉ t.takeWhile fun c => decide (c ≠ dollar) := by
  have hsplit := List.takeWhile_append_dropWhile (p := fun c => decide (c ≠ dollar)) (l := t)
  have hnot : dollar ∉ t.takeWhile fun c => decide (c ≠ dollar) := by
    intro hin
    have hne := List.mem_takeWhile_imp hin
    exact absurd rfl (of_decide_eq_true hne)
  cases hrest : t.dropWhile (fun c => decide (c ≠ dollar)) with
  | nil =>
    rw [hrest, List.append_nil] at hsplit
    exact absurd (hsplit.symm ▸ h) hnot
  | cons c p =>
    have hhead := List.head?_dropWhile_not (fun c => decide (c ≠ dollar)) t
    rw [hrest] at hhead hsplit
    obtain rfl : c = dollar := by simpa using hhead
    exact ⟨p, hsplit.symm, hnot⟩

/-- A text falls apart in one way. -/
theorem split_unique {a b p q : List Byte} (ha : dollar ∉ a) (hb : dollar ∉ b) (h : a ++ dollar :: p = b ++ dollar :: q) :
    a = b ∧ p = q := by
  have hab := (Packed.text_line ha p).symm.trans ((congrArg (Packed.text dollar) h).trans (Packed.text_line hb q))
  subst hab
  exact ⟨rfl, (List.cons.inj (List.append_cancel_left h)).2⟩

/-! ## A salt that does not end -/

/-- What none of the functions changes. -/
def Context.fixed (ctx : Context) : Word × Places := (ctx.memory.memLower, ctx.places)

/-- A text, or a length that is the negative of an address behind `FSYS_BUF`. -/
def Piece.Harmless : Piece → Prop
  | .text _ => True
  | .negative n => 2 ^ 31 ≤ n.toNat ∧ n.toNat + 0x68000 ≤ 2 ^ 32

theorem fixed_lowerEnd (h : ctx'.fixed = ctx.fixed) : ctx'.memory.lowerEnd = ctx.memory.lowerEnd :=
  congrArg (fun fixed => fixed.1.toNat * 1024) h

@[simp] theorem memcheck_memLower (ctx : Context) (addr : Nat) (len : Word) :
    (ctx.memcheck addr len).2.memory.memLower = ctx.memory.memLower := by
  unfold Context.memcheck CharIo.memcheck
  cases CharIo.wontFit ctx.memory (.ofNat 32 addr) len <;> rfl

@[simp] theorem memcheck_places (ctx : Context) (addr : Nat) (len : Word) : (ctx.memcheck addr len).2.places = ctx.places := rfl

@[simp] theorem copyToBuffer_memLower (ctx : Context) (i : Nat) (bytes : List Byte) :
    (ctx.copyToBuffer i bytes).memory.memLower = ctx.memory.memLower := by
  unfold Context.copyToBuffer
  dsimp only
  split <;> simp

@[simp] theorem copyToBuffer_places (ctx : Context) (i : Nat) (bytes : List Byte) : (ctx.copyToBuffer i bytes).places = ctx.places := by
  unfold Context.copyToBuffer
  dsimp only
  split <;> simp

theorem md5Init_fixed (ctx : Context) : (md5Init ctx).fixed = ctx.fixed := by simp [md5Init, Context.fixed]

theorem keepDigest_fixed (ctx : Context) : ctx.keepDigest.fixed = ctx.fixed := by
  unfold Context.keepDigest Context.fixed
  dsimp only
  split <;> simp

theorem md5Update_fixed (ctx : Context) (input : List Byte) : (md5Update ctx input).fixed = ctx.fixed := by
  unfold md5Update Context.fixed
  dsimp only
  split <;> simp

theorem md5Final_fixed (ctx : Context) : (md5Final ctx).fixed = ctx.fixed := by
  unfold md5Final Context.fixed
  dsimp only
  split <;> simp

/-- With no memory above one megabyte, the copy of such a length is refused. -/
theorem feed_fixed (hlower : ctx.memory.lowerEnd ≤ 0x100000) {piece : Piece} (h : piece.Harmless) :
    ∃ ctx', ctx.feed piece = some ctx' ∧ ctx'.fixed = ctx.fixed := by
  cases piece with
  | text input => exact ⟨_, rfl, md5Update_fixed ctx input⟩
  | negative n =>
    obtain ⟨hnegative, hfar⟩ := h
    have hbuflen : (ctx.length &&& 63#32).toNat < 64 := by
      rw [Sha1.low_six_bits]
      exact Nat.mod_lt _ (by decide)
    have hrefused : CharIo.wontFit ctx.memory (.ofNat 32 (ctx.places.buffer + (ctx.length &&& 63#32).toNat)) n = true := by
      have hfirst := ctx.places.first
      have hlast := ctx.places.last
      have hlimit := ctx.memory.lowerLimit_le
      rw [CharIo.wontFit_iff, BitVec.toNat_ofNat]
      omega
    have hno : ({ ctx with length := ctx.length + n }.memcheck (ctx.places.buffer + (ctx.length &&& 63#32).toNat) n).1 = false := by
      unfold Context.memcheck CharIo.memcheck
      dsimp only
      rw [hrefused]
      rfl
    refine ⟨({ ctx with length := ctx.length + n }.memcheck (ctx.places.buffer + (ctx.length &&& 63#32).toNat) n).2,
      ?_, by simp [Context.fixed]⟩
    unfold Context.feed
    dsimp only
    rw [if_neg (by rw [hno]; exact Bool.false_ne_true)]

theorem digested_fixed (hlower : ctx.memory.lowerEnd ≤ 0x100000) (pieces : List Piece) (h : ∀ p ∈ pieces, p.Harmless) :
    ∃ ctx', digested ctx pieces = some ctx' ∧ ctx'.fixed = ctx.fixed := by
  have hinit := md5Init_fixed ctx
  have hfeeds (ctx : Context) (hlower : ctx.memory.lowerEnd ≤ 0x100000) :
      ∃ ctx', pieces.foldlM Context.feed ctx = some ctx' ∧ ctx'.fixed = ctx.fixed := by
    induction pieces generalizing ctx with
    | nil => exact ⟨ctx, rfl, rfl⟩
    | cons p pieces ih =>
      obtain ⟨ctx₁, hfeed, hfixed₁⟩ := feed_fixed hlower (h p List.mem_cons_self)
      obtain ⟨ctx₂, hrun, hfixed₂⟩ := ih (fun p hp => h p (List.mem_cons_of_mem _ hp)) ctx₁ (by rwa [fixed_lowerEnd hfixed₁])
      refine ⟨ctx₂, ?_, hfixed₂.trans hfixed₁⟩
      rw [List.foldlM_cons, hfeed]
      exact hrun
  obtain ⟨ctx', hrun, hfixed⟩ := hfeeds (md5Init ctx) (by rwa [fixed_lowerEnd hinit])
  refine ⟨md5Final ctx', ?_, (md5Final_fixed ctx').trans (hfixed.trans hinit)⟩
  rw [digested, hrun]
  rfl

theorem mem_turnPieces {α : Type} {key salt alt x : α} {i : Nat} (h : x ∈ turnPieces key salt alt i) : x = key ∨ x = salt ∨ x = alt := by
  unfold turnPieces at h
  split_ifs at h <;> simp only [List.mem_append, List.mem_singleton, List.not_mem_nil] at h <;> tauto

/-- The digests come to an end. -/
theorem passwordDigest_fixed (hlower : ctx.memory.lowerEnd ≤ 0x100000) (key : List Byte) {salted salt : Piece} (hsalted : salted.Harmless)
    (hsalt : salt.Harmless) : ∃ ctx', passwordDigest ctx key salted salt = some ctx' ∧ ctx'.fixed = ctx.fixed := by
  have hturns (is : List Nat) (ctx : Context) (hlower : ctx.memory.lowerEnd ≤ 0x100000) :
      ∃ ctx', is.foldlM (passwordTurn key salt) ctx = some ctx' ∧ ctx'.fixed = ctx.fixed := by
    induction is generalizing ctx with
    | nil => exact ⟨ctx, rfl, rfl⟩
    | cons i is ih =>
      have hpieces : ∀ p ∈ turnPieces (.text key) salt (.text ctx.keepDigest.altResult.bytes) i, p.Harmless := by
        intro p hp
        obtain rfl | rfl | rfl := mem_turnPieces hp
        · trivial
        · exact hsalt
        · trivial
      have hkeep := keepDigest_fixed ctx
      obtain ⟨ctx₁, hturn, hfixed₁⟩ := digested_fixed (by rwa [fixed_lowerEnd hkeep]) _ hpieces
      obtain ⟨ctx₂, hrun, hfixed₂⟩ := ih ctx₁ (by rwa [fixed_lowerEnd (hfixed₁.trans hkeep)])
      refine ⟨ctx₂, ?_, hfixed₂.trans (hfixed₁.trans hkeep)⟩
      rw [List.foldlM_cons, passwordTurn, hturn]
      exact hrun
  have htexts (pieces : List (List Byte)) : ∀ p ∈ pieces.map Piece.text, p.Harmless := by
    intro p hp
    obtain ⟨piece, -, rfl⟩ := List.mem_map.1 hp
    trivial
  obtain ⟨ctx₁, hfirst, hfixed₁⟩ := digested_fixed hlower [.text key, salt, .text key] (by
    intro p hp
    simp only [List.mem_cons, List.not_mem_nil, or_false] at hp
    obtain rfl | rfl | rfl := hp
    · trivial
    · exact hsalt
    · trivial)
  have hkeep := (keepDigest_fixed ctx₁).trans hfixed₁
  have hlower₁ : ctx₁.keepDigest.memory.lowerEnd ≤ 0x100000 := by rwa [fixed_lowerEnd hkeep]
  obtain ⟨ctx₂, hsecond, hfixed₂⟩ := digested_fixed hlower₁
    ([.text key, salted] ++ (altPieces ctx₁.keepDigest.altResult.bytes key.length key.length ++ lengthPieces key key.length key.length).map
      .text) (by
    intro p hp
    rw [List.mem_append, List.mem_pair] at hp
    obtain (rfl | rfl) | hp := hp
    · trivial
    · exact hsalted
    · exact htexts _ p hp)
  have hlower₂ : ctx₂.memory.lowerEnd ≤ 0x100000 := by
    rw [fixed_lowerEnd hfixed₂]
    exact hlower₁
  obtain ⟨ctx₃, hrun, hfixed₃⟩ := hturns (List.range 1000) ctx₂ hlower₂
  refine ⟨ctx₃, ?_, hfixed₃.trans (hfixed₂.trans hkeep)⟩
  rw [passwordDigest, hfirst, Option.bind_some]
  dsimp only
  rw [hsecond, Option.bind_some, hrun]

/-! ## The check -/

/-- The comparison comes out equal when the characters of the digest lie there, and end. -/
theorem compareDigest_eq_zero {mem : Nat → Byte} {p : Nat} {d : Words} : compareDigest mem p d.bytes = 0 ↔ Holds 0 mem p (encode d) := by
  have hlen := encode_length d
  have hcells : Holds 0 mem p (encode d) ↔ slice mem p 23 = encode d ++ [0] := by
    constructor
    · intro h
      have hcells := h.cells
      rwa [hlen] at hcells
    · intro h
      refine ⟨encode_ne_zero d, ?_⟩
      rwa [hlen]
  unfold compareDigest
  rw [hcells]
  cases hrun : (output d.bytes).foldlM (fun p w => checkWord w.1 w.2 p) (slice mem p 23) with
  | none =>
    refine iff_of_false one_ne_zero fun heq => ?_
    rw [checkOutput_eq.2 heq] at hrun
    cases hrun
  | some q =>
    have hq := checkOutput_eq.1 hrun
    change slice mem p 23 = encode d ++ q at hq
    have hone : q.length = 1 := by
      have hlength := congrArg List.length hq
      rw [Memory.slice_length, List.length_append, hlen] at hlength
      omega
    obtain ⟨c, rfl⟩ := List.length_eq_one_iff.1 hone
    rw [hq, List.append_cancel_left_eq, List.singleton_inj]
    constructor
    · exact fun hz => BitVec.eq_of_toInt_eq hz
    · rintro rfl
      rfl

/-- The crypted password is one of the key, for some digest of messages. -/
def MatchesBy (D : List Byte → Words) (key stored : List Byte) : Prop :=
  ∃ header salt, header.length = 3 ∧ dollar ∉ salt ∧ stored = crypted D key header salt

theorem MatchesBy.dollar {D : List Byte → Words} {stored : List Byte} (h : MatchesBy D key stored) :
    3 < stored.length ∧ dollar ∈ stored.drop 3 := by
  obtain ⟨header, salt, hheader, -, rfl⟩ := h
  rw [crypted, List.append_assoc]
  constructor
  · simp only [List.length_append, List.length_cons, hheader]
    omega
  · rw [← hheader, List.drop_left]
    exact List.mem_append_right _ List.mem_cons_self

/-- What the check of a stored string goes by. The salt is copied if it ends. If it does not, the copy is refused, and
what is compared with the digest lies from address 1 on. -/
structure Checkable (ctx : Context) (mem : Nat → Byte) (stored : List Byte) : Prop where
  lower : ctx.memory.lowerEnd ≤ 0x100000
  closed : dollar ∈ stored.drop 3 → ctx.Ready
  unclosed : 3 < stored.length → dollar ∉ stored.drop 3 → ∃ x, 0 < x ∧ x < 23 ∧ mem x ∉ b64t

variable {mem : Nat → Byte} {a : Nat} {stored : List Byte}

theorem Checkable.congr (h : Checkable ctx mem stored) {mem' : Nat → Byte} (hsame : ∀ x < 23, mem' x = mem x) :
    Checkable ctx mem' stored := by
  refine ⟨h.lower, h.closed, fun hlong hdollar => ?_⟩
  obtain ⟨x, hpos, hlt, hnot⟩ := h.unclosed hlong hdollar
  refine ⟨x, hpos, hlt, ?_⟩
  rwa [hsame x hlt]

/-- A salt that ends. -/
theorem password_closed (h : ctx.Ready) (key : List Byte) (hholds : Holds 0 mem a stored) (hlength : stored.length < 2 ^ 32)
    (hlong : 3 < stored.length) (hdollar : dollar ∈ stored.drop 3) :
    ∃ r ctx', md5Password ctx mem key a = some (r, ctx') ∧ (r = 0 ↔ MatchesBy wrappedDigest key stored) ∧ ctx.Alike ctx' := by
  obtain ⟨p, hp, hsalt⟩ := split_salt hdollar
  have hread := hholds.read hlength
  have hcheck : checkSalt stored a = (.text ((stored.drop 3).take ((stored.drop 3).takeWhile fun c => decide (c ≠ dollar)).length),
      .text (stored.take (3 + ((stored.drop 3).takeWhile fun c => decide (c ≠ dollar)).length)),
      a + 3 + ((stored.drop 3).takeWhile fun c => decide (c ≠ dollar)).length + 1) := if_pos hdollar
  unfold md5Password
  rw [hread]
  dsimp only
  rw [if_neg (Nat.not_le.2 hlong), hcheck]
  dsimp only
  generalize (stored.drop 3).takeWhile (fun c => decide (c ≠ dollar)) = salt at hp hsalt ⊢
  obtain ⟨header, hheader, rfl⟩ : ∃ header, header.length = 3 ∧ stored = header ++ (salt ++ dollar :: p) := by
    refine ⟨stored.take 3, ?_, ?_⟩
    · rw [List.length_take]
      omega
    · rw [← hp, List.take_append_drop]
  have htake : (header ++ (salt ++ dollar :: p)).take (3 + salt.length) = header ++ salt := by
    rw [← hheader, ← List.length_append, ← List.append_assoc, List.take_left]
  have hplace : a + (header ++ salt ++ [dollar]).length = a + 3 + salt.length + 1 := by
    simp only [List.length_append, List.length_singleton, hheader, Nat.add_assoc]
  have hrest : Holds 0 mem (a + 3 + salt.length + 1) p := by
    have hassoc : header ++ (salt ++ dollar :: p) = header ++ salt ++ [dollar] ++ p := by
      simp only [List.append_assoc, List.cons_append, List.nil_append]
    rw [hassoc] at hholds
    rw [← hplace]
    exact hholds.drop
  have hmatches : MatchesBy wrappedDigest key (header ++ (salt ++ dollar :: p)) ↔ p = encode (cryptBy wrappedDigest key header salt) := by
    constructor
    · rintro ⟨header', salt', hheader', hsalt', heq⟩
      rw [crypted, List.append_assoc] at heq
      obtain ⟨rfl, htail⟩ := List.append_inj heq (hheader.trans hheader'.symm)
      obtain ⟨rfl, hp⟩ := split_unique hsalt hsalt' htail
      exact hp
    · rintro rfl
      exact ⟨header, salt, hheader, hsalt, (List.append_assoc _ _ _).symm⟩
  obtain ⟨ctx', hrun, hstate, hsame⟩ := passwordDigest_state h key header salt
  rw [← hheader, List.drop_left, hheader, List.take_left, htake, hrun, Option.map_some]
  refine ⟨_, ctx', rfl, ?_, hsame⟩
  rw [hmatches, hstate, compareDigest_eq_zero]
  exact ⟨fun hencode => hrest.eq hencode, fun heq => heq ▸ hrest⟩

/-- A salt that does not end, whether or not an error is pending: the password is refused. -/
theorem password_unclosed (hlower : ctx.memory.lowerEnd ≤ 0x100000) (key : List Byte) (hholds : Holds 0 mem a stored)
    (hlength : stored.length < 2 ^ 32) (hlong : 3 < stored.length) (hdollar : dollar ∉ stored.drop 3)
    (hplace : 0x68000 ≤ a ∧ a + 3 ≤ 2 ^ 31)
    (hvectors : ∃ x, 0 < x ∧ x < 23 ∧ mem x ∉ b64t) :
    ∃ r ctx', md5Password ctx mem key a = some (r, ctx') ∧ r ≠ 0 ∧ ctx'.fixed = ctx.fixed := by
  have hread := hholds.read hlength
  have hcheck : checkSalt stored a = (.negative (-.ofNat 32 (a + 3)), .negative (-.ofNat 32 a), 1) := if_neg hdollar
  have hnegative {n : Nat} (hn : 0x68000 ≤ n) (hn' : n ≤ 2 ^ 31) : (Piece.negative (-.ofNat 32 n)).Harmless := by
    have hvalue : (-BitVec.ofNat 32 n).toNat = 2 ^ 32 - n := by
      rw [BitVec.toNat_neg, BitVec.toNat_ofNat]
      omega
    show 2 ^ 31 ≤ (-BitVec.ofNat 32 n).toNat ∧ (-BitVec.ofNat 32 n).toNat + 0x68000 ≤ 2 ^ 32
    rw [hvalue]
    omega
  obtain ⟨ctx', hrun, hfixed⟩ :=
    passwordDigest_fixed hlower key (hnegative (n := a) (by omega) (by omega)) (hnegative (n := a + 3) (by omega) (by omega))
  unfold md5Password
  rw [hread]
  dsimp only
  rw [if_neg (Nat.not_le.2 hlong), hcheck]
  dsimp only
  rw [hrun, Option.map_some]
  refine ⟨_, ctx', rfl, ?_, hfixed⟩
  rw [Ne, compareDigest_eq_zero]
  intro hencode
  obtain ⟨x, hpos, hlt, hnot⟩ := hvectors
  have hin : x - 1 < (encode ctx'.state).length := by
    rw [encode_length]
    omega
  have hcell := hencode.getElem hin
  rw [Nat.add_sub_cancel' hpos] at hcell
  rw [hcell] at hnot
  exact hnot (encode_mem (List.getElem_mem hin))

/-- **The check** succeeds on the strings that are recomputed from their header and salt, whatever the statics held. -/
theorem password_check (h : Checkable ctx mem stored) (key : List Byte) (hholds : Holds 0 mem a stored) (hlength : stored.length < 2 ^ 32)
    (hplace : 0x68000 ≤ a ∧ a + 3 ≤ 2 ^ 31) :
    ∃ r ctx', md5Password ctx mem key a = some (r, ctx') ∧ (r = 0 ↔ MatchesBy wrappedDigest key stored) ∧ Checkable ctx' mem stored := by
  by_cases hlong : 3 < stored.length
  · by_cases hdollar : dollar ∈ stored.drop 3
    · obtain ⟨r, ctx', hrun, hzero, hsame⟩ := password_closed (h.closed hdollar) key hholds hlength hlong hdollar
      refine ⟨r, ctx', hrun, hzero, ?_, fun hd => (h.closed hd).alike hsame, h.unclosed⟩
      rw [hsame.1]
      exact h.lower
    · obtain ⟨r, ctx', hrun, hzero, hfixed⟩ := password_unclosed h.lower key hholds hlength hlong hdollar hplace (h.unclosed hlong hdollar)
      refine ⟨r, ctx', hrun, iff_of_false hzero fun hmatch => hdollar hmatch.dollar.2, ?_, fun hd => absurd hd hdollar, h.unclosed⟩
      rw [fixed_lowerEnd hfixed]
      exact h.lower
  · have hread := hholds.read hlength
    refine ⟨1, ctx, ?_, iff_of_false one_ne_zero fun hmatch => hlong hmatch.dollar.1, h⟩
    unfold md5Password
    rw [hread]
    exact if_pos (Nat.le_of_not_lt hlong)

/-- The recomputation is the scheme on messages of which the length in bits is not cut off. -/
theorem matchesBy_iff (hkey : key.length < 2 ^ 16) (hstored : stored.length < 2 ^ 16) :
    MatchesBy wrappedDigest key stored ↔ Matches key stored := by
  apply exists_congr
  intro header
  apply exists_congr
  intro salt
  refine and_congr_right fun hheader => and_congr_right fun _ => ?_
  have hlen (d : Words) : (header ++ salt ++ dollar :: encode d).length < 2 ^ 16 → salt.length < 2 ^ 16 := by
    intro hlt
    simp only [List.length_append] at hlt
    omega
  rw [Md5.crypted]
  constructor
  all_goals
    intro heq
    have hsalt := hlen _ (heq ▸ hstored)
    rw [cryptBy_wrapped hkey (by omega) hsalt] at *
    exact heq

end TrustedGrub.Md5
