import TrustedGrub.Line.Cmdline
import TrustedGrub.Md5.Crypt
import TrustedGrub.Menu.History
import TrustedGrub.Menu.Stanzas

/-!
# The password prompt

The `password` command of a configuration stores its argument behind `PASSWORD_BUF`, and the key `p` of the menu asks for
it. Each attempt splits the argument in place. A loop that leaves the array it writes to comes to nothing.
-/

namespace TrustedGrub.Menu
open Fips180 (Byte)
open Memory (slice store)
open StringPool (Holds)
open Builtins (skipTo)
open Disk (GrubError isspace)
open TrustedGrub.Line (addressSpace str)

def passwordBuf : Nat := 0x78000
def passwordBuflen : Nat := 0x200

/-- `password_t` -/
inductive PasswordType where
  | plain
  | md5
  | unsupported
  deriving DecidableEq

/-- The globals of the prompt, with the statics of the digest. -/
structure Lock where
  mem : Nat → Byte
  /-- The memory from `config_file` on. -/
  configFile : Nat → Byte
  password : Option Nat
  passwordType : PasswordType
  auth : Bool
  md5 : Md5.Context

/-- `while (f (*p)) p++` -/
def scan (f : Byte → Bool) (m : Nat → Byte) : Nat → Nat → Nat
  | 0, p => p
  | n + 1, p => if f (m p) then scan f m n (p + 1) else p

/-! ## The command -/

/-- `check_password`, with the address of the password that is expected. -/
def checkPassword (md5 : Md5.Context) (m : Nat → Byte) (entered : List Byte) (expected : Nat) : PasswordType → Option (Int × Md5.Context)
  | .plain =>
    match grubStrcmp entered (str m expected) with
    | .lt => some (-1, md5)
    | .eq => some (0, md5)
    | .gt => some (1, md5)
  | .md5 => Md5.md5Password md5 m entered expected
  | .unsupported => some (1, md5)

/-! ## The prompt -/

/-- How `run_menu` goes on: it shows the menu again, or it returns to `cmain`, which loads `config_file`. -/
inductive After where
  | restart
  | load
  deriving DecidableEq

/-- What a password that was entered right does. -/
def Lock.unlock (s : Lock) (pptr : Nat) : Option (After × Lock) :=
  let pptr := scan isspace s.mem addressSpace pptr
  if s.mem pptr ≠ 0 then
    let file := str s.mem pptr
    if file.length < configFileLen then some (.load, { s with configFile := store s.configFile 0 (file ++ [0]), auth := false }) else none
  else some (.restart, { s with auth := true })

/-- What is entered at the prompt, against the password at this address. -/
def Lock.promptAt (s : Lock) (password : Nat) (entered : List Byte) : Option (After × Lock) :=
  let pptr := scan (fun c => !isspace c && c ≠ 0) s.mem addressSpace password
  let s : Lock := { s with mem := store s.mem pptr [0] }
  match checkPassword s.md5 s.mem entered password s.passwordType with
  | none => none
  | some (differs, md5) =>
    let s : Lock := { s with md5 }
    if differs = 0 then s.unlock (pptr + 1) else some (.restart, s)

/-- The key `p`, with what is entered at the prompt. Without a password there is none. -/
def Lock.prompt (s : Lock) (entered : List Byte) : Option (After × Lock) :=
  match s.password with
  | none => some (.restart, s)
  | some password => s.promptAt password entered

/-- Attempts, for as long as the prompt is there: the user has no privileges, and the menu is not left. -/
def Lock.attempts : Lock → List (List Byte) → Option (After × Lock)
  | s, [] => some (.restart, s)
  | s, entered :: es =>
    match s.prompt entered with
    | none => none
    | some (.load, s) => some (.load, s)
    | some (.restart, s) => if s.auth then some (.restart, s) else s.attempts es

/-! ## What the argument says -/

/-- A text that is typed at the prompt: `entered` has room for thirty-one characters. -/
structure Entered where
  text : List Byte
  fits : text.length < 32
  chars : 0 ∉ text

def firstWord (arg : List Byte) : List Byte := arg.takeWhile fun c => !isspace c

/-- What follows the first word and the blanks behind it. -/
def further (arg : List Byte) : List Byte := (arg.drop (firstWord arg).length).dropWhile isspace

/-- The text is the password. -/
def Fits : PasswordType → List Byte → List Byte → Prop
  | .plain, entered, word => entered = word
  | .md5, entered, word => Md5.Matches entered word
  | .unsupported, _, _ => False

/-- The file that the user gets to has room in `config_file`. -/
def Roomy (type : PasswordType) (arg entered : List Byte) : Prop := Fits type entered (firstWord arg) → (further arg).length < configFileLen

/-! ## The buffer -/

/-- What the attempts leave of the argument: the first word with its end, and what follows. -/
structure Stored (type : PasswordType) (arg : List Byte) (s : Lock) : Prop where
  password : s.password = some passwordBuf
  type : s.passwordType = type
  locked : s.auth = false
  chars : 0 ∉ arg
  fits : arg.length + 2 ≤ passwordBuflen
  word : slice s.mem passwordBuf (firstWord arg).length = firstWord arg
  stop : isspace (s.mem (passwordBuf + (firstWord arg).length)) = true ∨ s.mem (passwordBuf + (firstWord arg).length) = 0
  rest : Holds 0 s.mem (passwordBuf + ((firstWord arg).length + 1)) (arg.drop ((firstWord arg).length + 1))
  checkable : s.passwordType = .md5 → Md5.Checkable s.md5 s.mem (firstWord arg)

variable {type : PasswordType} {arg : List Byte} {s : Lock} {m : Nat → Byte} {w : List Byte} {p n : Nat}

theorem scan_eq {f : Byte → Bool} (hw : slice m p w.length = w) (hall : ∀ c ∈ w, f c = true) (hstop : f (m (p + w.length)) = false)
    (hn : w.length < n) : scan f m n p = p + w.length := by
  induction w generalizing p n with
  | nil =>
    cases n with
    | zero => rfl
    | succ n =>
      rw [scan]
      show (if f (m (p + 0)) = true then _ else _) = _
      rw [show f (m (p + 0)) = false from hstop]
      rfl
  | cons c w ih =>
    cases n with
    | zero => exact absurd hn (Nat.not_lt_zero _)
    | succ n =>
      rw [List.length_cons, Memory.slice_succ] at hw
      obtain ⟨hc, hw⟩ := List.cons.inj hw
      have hplace : p + (w.length + 1) = p + 1 + w.length := by omega
      rw [List.length_cons, hplace] at hstop
      rw [scan, hc, if_pos (hall c List.mem_cons_self), List.length_cons, hplace]
      exact ih hw (fun d hd => hall d (List.mem_cons_of_mem c hd)) hstop (Nat.lt_of_succ_lt_succ hn)

/-! ### Words -/

theorem firstWord_chars {c : Byte} (hc : c ∈ firstWord arg) : isspace c = false := by
  have hword := List.mem_takeWhile_imp hc
  simpa only [Bool.not_eq_true'] using hword

/-- Behind the first word there is nothing, or a blank. -/
theorem firstWord_end (arg : List Byte) : arg.drop (firstWord arg).length = [] ∨
    ∃ b, isspace b = true ∧ arg.drop (firstWord arg).length = b :: arg.drop ((firstWord arg).length + 1) := by
  have hsplit := List.takeWhile_append_dropWhile (p := fun c => !isspace c) (l := arg)
  have hdrop := congrArg (List.drop (firstWord arg).length) hsplit
  rw [firstWord, List.drop_left] at hdrop
  rw [firstWord, ← List.drop_drop, ← hdrop]
  cases hrest : arg.dropWhile fun c => !isspace c with
  | nil => exact .inl rfl
  | cons b t =>
    have hhead := List.head?_dropWhile_not (fun c => !isspace c) arg
    rw [hrest] at hhead
    refine .inr ⟨b, ?_, rfl⟩
    simpa using hhead

theorem further_eq (arg : List Byte) : further arg = (arg.drop ((firstWord arg).length + 1)).dropWhile isspace := by
  rcases firstWord_end arg with hnil | ⟨b, hb, hcons⟩
  · rw [further, ← List.drop_drop, hnil]
    rfl
  · rw [further, hcons, List.dropWhile_cons_of_pos hb]

theorem firstWord_length (arg : List Byte) : (firstWord arg).length ≤ arg.length := (List.takeWhile_sublist _).length_le

/-- The end mark behind the first word. -/
theorem Stored.mark (h : Stored type arg s) {md5 : Md5.Context} (hcheck : s.passwordType = .md5 → Md5.Checkable md5 s.mem (firstWord arg)) :
    Stored type arg { s with mem := store s.mem (passwordBuf + (firstWord arg).length) [0], md5 } := by
  have hmark : store s.mem (passwordBuf + (firstWord arg).length) [0] (passwordBuf + (firstWord arg).length) = (0 : Byte) :=
    Memory.store_at (i := 0) (show 0 < [(0 : Byte)].length from Nat.zero_lt_one)
  refine { h with word := ?_, stop := .inr hmark, rest := ?_, checkable := fun htype => (hcheck htype).congr fun x hx => ?_ }
  · rw [Memory.slice_store_disjoint (.inl (Nat.le_refl _))]
    exact h.word
  · apply h.rest.outside
    rw [List.length_singleton]
    omega
  · apply Memory.store_of_lt
    unfold passwordBuf
    omega

/-- The word that the text is compared with. -/
theorem Stored.expected (h : Stored type arg s) (hend : s.mem (passwordBuf + (firstWord arg).length) = 0) :
    Holds 0 s.mem passwordBuf (firstWord arg) := by
  refine ⟨fun hin => h.chars ((List.takeWhile_sublist _).subset hin), ?_⟩
  rw [Memory.slice_add, h.word, Memory.slice_succ, hend]
  rfl

/-- The first word ends where the prompt looks for its end. -/
theorem Stored.scan_word (h : Stored type arg s) :
    scan (fun c => !isspace c && c ≠ 0) s.mem addressSpace passwordBuf = passwordBuf + (firstWord arg).length := by
  have hlength := (List.takeWhile_sublist (fun c => !isspace c) (l := arg)).length_le
  have hfits := h.fits
  apply scan_eq h.word
  · intro c hc
    have hzero : c ≠ 0 := fun heq => h.chars (heq ▸ (List.takeWhile_sublist _).subset hc)
    rw [firstWord_chars hc, Bool.not_false, Bool.true_and, decide_eq_true hzero]
  · rcases h.stop with hblank | hend
    · rw [hblank, Bool.not_true, Bool.false_and]
    · rw [hend]
      rfl
  · rw [firstWord, addressSpace]
    unfold passwordBuflen at hfits
    omega

theorem grubStrcmp_self (t : List Byte) : grubStrcmp t t = .eq := by
  induction t with
  | nil => rfl
  | cons c t ih =>
    rw [grubStrcmp, if_neg (lt_irrefl _), if_neg (lt_irrefl _)]
    exact ih

/-- The check says whether the text is the password. -/
theorem checkPassword_spec {md5 : Md5.Context} (e : Entered) {word : List Byte} (hholds : Holds 0 m passwordBuf word)
    (hlen : word.length < 2 ^ 16)
    (hcheck : type = .md5 → Md5.Checkable md5 m word) :
    ∃ differs md5', checkPassword md5 m e.text passwordBuf type = some (differs, md5') ∧ (differs = 0 ↔ Fits type e.text word) ∧
      (type = .md5 → Md5.Checkable md5' m word) := by
  have hlength : word.length < 2 ^ 32 := by omega
  cases type with
  | plain =>
    have hread : str m passwordBuf = word := hholds.read hlength
    rw [checkPassword, hread]
    cases hcmp : grubStrcmp e.text word with
    | eq => exact ⟨0, md5, rfl, iff_of_true rfl (grubStrcmp_eq hcmp), nofun⟩
    | lt =>
      refine ⟨-1, md5, rfl, iff_of_false (by decide) ?_, nofun⟩
      intro heq
      rw [show e.text = word from heq, grubStrcmp_self] at hcmp
      cases hcmp
    | gt =>
      refine ⟨1, md5, rfl, iff_of_false (by decide) ?_, nofun⟩
      intro heq
      rw [show e.text = word from heq, grubStrcmp_self] at hcmp
      cases hcmp
  | md5 =>
    have hkey : e.text.length < 2 ^ 16 := Nat.lt_of_lt_of_le e.fits (by decide)
    obtain ⟨differs, md5', hrun, hdiffers, hkept⟩ := Md5.password_check (hcheck rfl) e.text hholds hlength (by decide)
    exact ⟨differs, md5', hrun, hdiffers.trans (Md5.matchesBy_iff hkey hlen), fun _ => hkept⟩
  | unsupported => exact ⟨1, md5, rfl, iff_of_false (by decide) id, nofun⟩

/-- Behind the end mark the blanks are left out, and the rest is the file. -/
theorem unlock_eq {t : List Byte} (h : Holds 0 s.mem p t) (ht : t.length < addressSpace) : s.unlock p =
    if t.dropWhile isspace = [] then some (.restart, { s with auth := true })
    else if (t.dropWhile isspace).length < configFileLen then
      some (.load, { s with configFile := store s.configFile 0 (t.dropWhile isspace ++ [0]), auth := false })
    else none := by
  have hsplit := List.takeWhile_append_dropWhile (p := isspace) (l := t)
  have hlength := (List.takeWhile_sublist isspace (l := t)).length_le
  have hlength' := (List.dropWhile_sublist isspace (l := t)).length_le
  have hhead := List.head?_dropWhile_not isspace t
  have hblanks : ∀ c ∈ t.takeWhile isspace, isspace c = true := fun c hc => List.mem_takeWhile_imp hc
  generalize t.takeWhile isspace = blanks at hsplit hlength hblanks
  generalize t.dropWhile isspace = file at hsplit hlength' hhead ⊢
  rw [← hsplit] at h
  have hfile := h.drop
  have hplace : scan isspace s.mem addressSpace p = p + blanks.length := by
    refine scan_eq h.slice_left hblanks ?_ (Nat.lt_of_le_of_lt hlength ht)
    cases file with
    | nil =>
      rw [hfile.end_cell]
      rfl
    | cons c file =>
      rw [hfile.head.1]
      simpa using hhead
  have hstr : str s.mem (p + blanks.length) = file := hfile.read (Nat.lt_of_le_of_lt hlength' ht)
  rw [Lock.unlock, hplace]
  dsimp only
  rw [hstr]
  cases file with
  | nil => rw [if_neg (not_not_intro hfile.end_cell), if_pos rfl]
  | cons c file =>
    obtain ⟨hc, hzero, -⟩ := hfile.head
    rw [if_pos (by rwa [hc]), if_neg (List.cons_ne_nil c file)]

/-- **One attempt**, on what the attempts before it left of the argument. -/
theorem Stored.prompt_eq (h : Stored type arg s) (e : Entered) : ∃ mem, ∃ differs : Int, ∃ md5, Stored type arg { s with mem, md5 } ∧
    (differs = 0 ↔ Fits type e.text (firstWord arg)) ∧
    s.prompt e.text =
      if differs = 0 then
        if further arg = [] then some (.restart, { s with mem, md5, auth := true })
        else if (further arg).length < configFileLen then
          some (.load, { s with mem, md5, configFile := store s.configFile 0 (further arg ++ [0]), auth := false })
        else none
      else some (.restart, { s with mem, md5 }) := by
  obtain rfl := h.type
  have hfits := h.fits
  have hword := firstWord_length arg
  unfold passwordBuflen at hfits
  have hmark := h.mark h.checkable
  have hcell : store s.mem (passwordBuf + (firstWord arg).length) [0] (passwordBuf + (firstWord arg).length) = (0 : Byte) :=
    Memory.store_at (i := 0) (show 0 < [(0 : Byte)].length from Nat.zero_lt_one)
  obtain ⟨differs, md5, hcheck, hdiffers, hkept⟩ := checkPassword_spec e (hmark.expected hcell) (by omega) hmark.checkable
  have hstored : Stored s.passwordType arg { s with mem := store s.mem (passwordBuf + (firstWord arg).length) [0], md5 } :=
    { hmark with checkable := hkept }
  refine ⟨_, differs, md5, hstored, hdiffers, ?_⟩
  have hprompt : s.prompt e.text = match some passwordBuf with
    | none => some (.restart, s)
    | some password => s.promptAt password e.text := by rw [← h.password, Lock.prompt]
  have hlength : (arg.drop ((firstWord arg).length + 1)).length < addressSpace := by
    rw [List.length_drop, addressSpace]
    omega
  rw [hprompt]
  dsimp only
  rw [Lock.promptAt, h.scan_word]
  dsimp only
  rw [hcheck]
  dsimp only
  rw [Nat.add_assoc, unlock_eq hstored.rest hlength, ← further_eq]

/-- The text is not the password. -/
theorem Stored.prompt_differs (h : Stored type arg s) (e : Entered) (hnot : ¬ Fits type e.text (firstWord arg)) :
    ∃ mem md5, Stored type arg { s with mem, md5 } ∧ s.prompt e.text = some (.restart, { s with mem, md5 }) := by
  obtain ⟨mem, differs, md5, hstored, hdiffers, hprompt⟩ := h.prompt_eq e
  rw [if_neg fun hzero => hnot (hdiffers.1 hzero)] at hprompt
  exact ⟨mem, md5, hstored, hprompt⟩

/-- The text is the password. -/
theorem Stored.prompt_fits (h : Stored type arg s) (e : Entered) (hfits : Fits type e.text (firstWord arg)) :
    ∃ mem md5, s.prompt e.text =
      if further arg = [] then some (.restart, { s with mem, md5, auth := true })
      else if (further arg).length < configFileLen then
        some (.load, { s with mem, md5, configFile := store s.configFile 0 (further arg ++ [0]), auth := false })
      else none := by
  obtain ⟨mem, differs, md5, -, hdiffers, hprompt⟩ := h.prompt_eq e
  rw [if_pos (hdiffers.2 hfits)] at hprompt
  exact ⟨mem, md5, hprompt⟩

/-! ## Runs of attempts -/

/-- The step: an attempt after which the prompt is there again. -/
theorem Stored.again {s' : Lock} (h : Stored type arg s) {e : Entered} (hprompt : s.prompt e.text = some (.restart, s'))
    (hlocked : s'.auth = false) : Stored type arg s' ∧ s'.configFile = s.configFile := by
  by_cases hfits : Fits type e.text (firstWord arg)
  · obtain ⟨mem, md5, heq⟩ := h.prompt_fits e hfits
    rw [hprompt] at heq
    split at heq
    · obtain rfl := (Prod.mk.inj (Option.some.inj heq)).2
      cases hlocked
    · split at heq
      · cases (Prod.mk.inj (Option.some.inj heq)).1
      · cases heq
  · obtain ⟨mem, md5, hstored, heq⟩ := h.prompt_differs e hfits
    rw [hprompt] at heq
    obtain rfl := (Prod.mk.inj (Option.some.inj heq)).2
    exact ⟨hstored, rfl⟩

/-- The run: attempts after which the prompt is there again. -/
theorem Stored.attempts {s' : Lock} (h : Stored type arg s) {es : List Entered}
    (hrun : s.attempts (es.map Entered.text) = some (.restart, s'))
    (hlocked : s'.auth = false) : Stored type arg s' ∧ s'.configFile = s.configFile := by
  induction es generalizing s with
  | nil =>
    obtain rfl := (Prod.mk.inj (Option.some.inj hrun)).2
    exact ⟨h, rfl⟩
  | cons entered es ih =>
    rw [List.map_cons, Lock.attempts] at hrun
    split at hrun
    next => cases hrun
    next => cases (Prod.mk.inj (Option.some.inj hrun)).1
    next s₁ hprompt =>
      split at hrun
      next hauth =>
        obtain rfl := (Prod.mk.inj (Option.some.inj hrun)).2
        rw [hauth] at hlocked
        cases hlocked
      next hauth =>
        obtain ⟨hstored, hconfig⟩ := h.again hprompt (Bool.not_eq_true _ ▸ hauth)
        obtain ⟨hstored', hconfig'⟩ := ih hstored hrun
        exact ⟨hstored', hconfig'.trans hconfig⟩

/-- What an attempt comes to, for `run_menu` and for `cmain`. -/
def outcome (r : After × Lock) : After × Bool × (Nat → Byte) := (r.1, r.2.auth, r.2.configFile)

/-- The globals before a configuration sets a password. -/
def Lock.start : Lock where
  mem _ := 0
  configFile _ := 0
  password := none
  passwordType := .plain
  auth := false
  md5 := .zeroed

end TrustedGrub.Menu
