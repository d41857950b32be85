import TrustedGrub.Disk.BlockName
import TrustedGrub.Menu.Config

/-!
# `builtin_table`

The table of the builtins as it is compiled, and the search of `find_command` in it, which stops where the order of the table
says that nothing more can match. A line that is not in its place is never found.
-/

namespace TrustedGrub.Builtins
open Fips180 (Byte)
open Boot (cString)
open Disk (GrubError)
open Menu (Builtin grubStrcmp seekBuiltin builtinMenu builtinTitle)

/-! ## The table -/

def builtinCmdline : BitVec 32 := 0x1
def builtinScript : BitVec 32 := 0x8
def builtinNoEcho : BitVec 32 := 0x10
def builtinHelpList : BitVec 32 := 0x20

/-- The macros that decide which lines of the table are compiled. -/
structure Macros where
  supportNetboot : Bool
  grubUtil : Bool
  useMd5Passwords : Bool
  supportSerial : Bool
  supportHercules : Bool

/-- A builtin of the table and the condition around its line. -/
structure Line where
  compiled : Macros → Bool
  builtin : Builtin

/-- The characters of a string constant. -/
def ascii (s : String) : List Byte := s.toList.map fun c => BitVec.ofNat 8 c.toNat

def line (compiled : Macros → Bool) (name : String) (flags : BitVec 32) (named : ascii name ≠ [] := by decide) : Line :=
  ⟨compiled, ⟨ascii name, named, flags⟩⟩

def always (_ : Macros) : Bool := true
def supportNetboot (m : Macros) : Bool := m.supportNetboot
def grubUtil (m : Macros) : Bool := m.grubUtil
def useMd5Passwords (m : Macros) : Bool := m.useMd5Passwords
def supportSerial (m : Macros) : Bool := m.supportSerial
def serialOrHercules (m : Macros) : Bool := m.supportSerial || m.supportHercules

/-- The lines of `builtin_table` in the order of the text. -/
def lines : List Line := [
  line always "blocklist" (builtinCmdline ||| builtinHelpList),
  line always "boot" (builtinCmdline ||| builtinHelpList),
  line supportNetboot "bootp" (builtinCmdline ||| builtinMenu ||| builtinHelpList),
  line always "cat" (builtinCmdline ||| builtinHelpList),
  line always "chainloader" (builtinCmdline ||| builtinHelpList),
  line always "checkfile" builtinCmdline,
  line always "cmp" builtinCmdline,
  line always "color" (builtinCmdline ||| builtinMenu ||| builtinHelpList),
  line always "configfile" (builtinCmdline ||| builtinHelpList),
  line always "debug" builtinCmdline,
  line always "default" builtinMenu,
  line grubUtil "device" (builtinMenu ||| builtinCmdline ||| builtinHelpList),
  line supportNetboot "dhcp" (builtinCmdline ||| builtinMenu ||| builtinHelpList),
  line always "displayapm" (builtinCmdline ||| builtinHelpList),
  line always "displaymem" (builtinCmdline ||| builtinHelpList),
  line grubUtil "dump" builtinCmdline,
  line always "echo" (builtinCmdline ||| builtinMenu ||| builtinHelpList),
  line always "embed" builtinCmdline,
  line always "fallback" builtinMenu,
  line always "find" (builtinCmdline ||| builtinHelpList),
  line always "fstest" builtinCmdline,
  line always "geometry" (builtinCmdline ||| builtinHelpList),
  line always "halt" (builtinCmdline ||| builtinHelpList),
  line always "help" (builtinCmdline ||| builtinHelpList),
  line always "hiddenmenu" builtinMenu,
  line always "hide" (builtinCmdline ||| builtinMenu ||| builtinHelpList),
  line supportNetboot "ifconfig" (builtinCmdline ||| builtinMenu ||| builtinHelpList),
  line always "impsprobe" builtinCmdline,
  line always "initrd" (builtinCmdline ||| builtinHelpList),
  line always "install" builtinCmdline,
  line always "ioprobe" builtinCmdline,
  line always "kernel" (builtinCmdline ||| builtinHelpList),
  line always "lock" builtinCmdline,
  line always "makeactive" (builtinCmdline ||| builtinHelpList),
  line always "map" (builtinCmdline ||| builtinHelpList),
  line useMd5Passwords "md5crypt" (builtinCmdline ||| builtinHelpList),
  line always "modaddr" (builtinCmdline ||| builtinHelpList),
  line always "module" (builtinCmdline ||| builtinHelpList),
  line always "modulenounzip" (builtinCmdline ||| builtinHelpList),
  line always "pager" (builtinCmdline ||| builtinMenu ||| builtinHelpList),
  line always "partnew" (builtinCmdline ||| builtinMenu ||| builtinHelpList),
  line always "parttype" (builtinCmdline ||| builtinMenu ||| builtinHelpList),
  line always "password" (builtinMenu ||| builtinCmdline ||| builtinNoEcho),
  line always "pause" (builtinCmdline ||| builtinNoEcho),
  line always "print" (builtinCmdline ||| builtinMenu ||| builtinHelpList),
  line grubUtil "quit" (builtinCmdline ||| builtinHelpList),
  line supportNetboot "rarp" (builtinCmdline ||| builtinMenu ||| builtinHelpList),
  line always "read" builtinCmdline,
  line always "reboot" (builtinCmdline ||| builtinHelpList),
  line always "root" (builtinCmdline ||| builtinHelpList),
  line always "rootnoverify" (builtinCmdline ||| builtinHelpList),
  line always "savedefault" builtinCmdline,
  line supportSerial "serial" (builtinMenu ||| builtinCmdline ||| builtinHelpList),
  line always "set" (builtinCmdline ||| builtinMenu ||| builtinHelpList),
  line always "setkey" (builtinCmdline ||| builtinMenu ||| builtinHelpList),
  line always "setup" (builtinCmdline ||| builtinHelpList),
  line always "sha1" builtinCmdline,
  line serialOrHercules "terminal" (builtinMenu ||| builtinCmdline ||| builtinHelpList),
  line supportSerial "terminfo" (builtinMenu ||| builtinCmdline ||| builtinHelpList),
  line always "testload" builtinCmdline,
  line always "testvbe" (builtinCmdline ||| builtinHelpList),
  line supportNetboot "tftpserver" (builtinCmdline ||| builtinMenu ||| builtinHelpList),
  line always "timeout" builtinMenu,
  line always "title" builtinTitle,
  line always "toggle" (builtinCmdline ||| builtinMenu ||| builtinHelpList),
  line always "unhide" (builtinCmdline ||| builtinMenu ||| builtinHelpList),
  line always "uppermem" (builtinCmdline ||| builtinHelpList),
  line always "varexpand" (builtinCmdline ||| builtinMenu ||| builtinHelpList),
  line always "vbeprobe" (builtinCmdline ||| builtinHelpList),
  line always "vbeset" (builtinCmdline ||| builtinScript ||| builtinHelpList),
  line always "vbematch" (builtinCmdline ||| builtinScript ||| builtinHelpList)]

/-- `builtin_table` -/
def builtinTable (m : Macros) : List Builtin := (lines.filter fun l => l.compiled m).map Line.builtin

/-! ## `find_command` -/

/-- The end of the command name. -/
def nameEnd (c : Byte) : Bool := c = 0 ∨ c = 0x20 ∨ c = 0x09 ∨ c = 0x3D

/-- `find_command` on the memory from `command` on: the builtin, `errnum` and the memory after. The name is terminated for the time
of the search. -/
def findCommand (builtinTable : List Builtin) (command : List Byte) (errnum : GrubError) : Option Builtin × GrubError × List Byte :=
  let ptr := (command.takeWhile fun c => !nameEnd c).length
  let c := command.getD ptr 0
  let terminated := command.set ptr 0
  match seekBuiltin (cString terminated) builtinTable with
  | some builtin => (some builtin, errnum, terminated.set ptr c)
  | none => (none, .unrecognized, terminated.set ptr c)

/-! ## The search and the order -/

theorem strcmp_self (s : List Byte) : grubStrcmp s s = .eq := by
  induction s with
  | nil => rfl
  | cons c s ih =>
    rw [grubStrcmp, if_neg (lt_irrefl _), if_neg (lt_irrefl _)]
    exact ih

theorem strcmp_eq {s t : List Byte} (h : grubStrcmp s t = .eq) : s = t := by
  induction s generalizing t with
  | nil =>
    cases t with
    | nil => rfl
    | cons d t =>
      rw [grubStrcmp] at h
      split at h <;> cases h
  | cons c s ih =>
    cases t with
    | nil =>
      rw [grubStrcmp] at h
      split at h <;> cases h
    | cons d t =>
      rw [grubStrcmp] at h
      split at h
      · cases h
      next hle =>
        split at h
        · cases h
        next hge =>
          have hc : c = d := BitVec.eq_of_toInt_eq (by omega)
          rw [hc, ih h]

/-- Each name of the table compares as greater than those before it. -/
def Ordered (table : List Builtin) : Prop := table.Pairwise fun a b => grubStrcmp b.name a.name = .gt

/-- In a table in order the search that stops early finds what a search of the whole table finds. -/
theorem seek_ordered {table : List Builtin} (h : Ordered table) (command : List Byte) :
    seekBuiltin command table = table.find? fun b => b.name = command := by
  induction table with
  | nil => rfl
  | cons b table ih =>
    obtain ⟨hfirst, hrest⟩ := List.pairwise_cons.1 h
    rw [seekBuiltin, List.find?_cons]
    split
    next heq => rw [decide_eq_true (strcmp_eq heq).symm]
    next hlt =>
      have hother : b.name ≠ command := by
        rintro rfl
        rw [strcmp_self] at hlt
        cases hlt
      rw [decide_eq_false hother]
      apply Eq.symm
      apply List.find?_eq_none.2
      intro b' hb' heq
      rw [decide_eq_true_iff] at heq
      -- a name behind it would compare as greater
      have hgt := hfirst b' hb'
      rw [heq, hlt] at hgt
      cases hgt
    next hgt =>
      have hother : b.name ≠ command := by
        rintro rfl
        rw [strcmp_self] at hgt
        cases hgt
      rw [decide_eq_false hother]
      exact ih hrest

/-- What lies behind an entry that compares as greater than the command is not looked at. -/
theorem seek_stops {front behind : List Builtin} {b : Builtin} {command : List Byte} (hfront : ∀ a ∈ front, a.name ≠ command)
    (hb : grubStrcmp command b.name = .lt) : seekBuiltin command (front ++ b :: behind) = none := by
  induction front with
  | nil => rw [List.nil_append, seekBuiltin, hb]
  | cons a front ih =>
    rw [List.cons_append, seekBuiltin]
    split
    next heq => exact absurd (strcmp_eq heq).symm (hfront a List.mem_cons_self)
    · rfl
    · exact ih fun a ha => hfront a (List.mem_cons_of_mem _ ha)

/-- An entry at the end that is not looked for does not matter. -/
theorem seek_append_other {table : List Builtin} {b : Builtin} {command : List Byte} (hb : b.name ≠ command) :
    seekBuiltin command (table ++ [b]) = seekBuiltin command table := by
  induction table with
  | nil =>
    simp only [List.nil_append, seekBuiltin]
    split
    next heq => exact absurd (strcmp_eq heq).symm hb
    · rfl
    · rfl
  | cons a table ih => rw [List.cons_append, seekBuiltin, seekBuiltin, ih]

/-! ## The table and its order -/

def vbematch : Builtin := (line always "vbematch" (builtinCmdline ||| builtinScript ||| builtinHelpList)).builtin

/-- The lines before `vbeprobe`, and the two of `vbeprobe` and `vbeset`. -/
def front : List Line := lines.take 68
def vbe : List Line := [
  line always "vbeprobe" (builtinCmdline ||| builtinHelpList),
  line always "vbeset" (builtinCmdline ||| builtinScript ||| builtinHelpList)]

/-- The table as far as it is in order. -/
def inOrder (m : Macros) : List Builtin := ((front ++ vbe).filter fun l => l.compiled m).map Line.builtin

theorem table_eq (m : Macros) : builtinTable m = inOrder m ++ [vbematch] := by
  have hlines : lines = (front ++ vbe) ++ [line always "vbematch" (builtinCmdline ||| builtinScript ||| builtinHelpList)] := rfl
  rw [builtinTable, hlines, List.filter_append, List.map_append]
  rfl

theorem inOrder_ordered (m : Macros) : Ordered (inOrder m) := by
  have hall : (front ++ vbe).Pairwise fun a b => grubStrcmp b.builtin.name a.builtin.name = .gt := by decide +kernel
  exact List.pairwise_map.2 (hall.filter _)

theorem inOrder_names (m : Macros) : ∀ b ∈ inOrder m, b.name ≠ vbematch.name := by
  have hall : ∀ l ∈ front ++ vbe, l.builtin.name ≠ vbematch.name := by decide +kernel
  intro b hb
  obtain ⟨l, hl, rfl⟩ := List.mem_map.1 hb
  exact hall l (List.mem_filter.1 hl).1

/-- `vbematch` compares as less than `vbeprobe`, which lies before it. -/
theorem seek_vbematch (m : Macros) : seekBuiltin vbematch.name (builtinTable m) = none := by
  have hsplit : inOrder m = (front.filter fun l => l.compiled m).map Line.builtin ++ vbe.map Line.builtin := by
    rw [inOrder, List.filter_append, List.map_append]
    rfl
  have hnames := inOrder_names m
  rw [table_eq]
  rw [hsplit] at hnames ⊢
  rw [List.append_assoc]
  apply seek_stops (fun a ha => hnames a (List.mem_append_left _ ha))
  decide +kernel

/-- The search that goes on to the end of the table. -/
def exhaustive (builtinTable : List Builtin) (command : List Byte) : Option Builtin := builtinTable.find? fun b => b.name = command

theorem seek_iff (m : Macros) (command : List Byte) :
    seekBuiltin command (builtinTable m) = exhaustive (builtinTable m) command ↔ command ≠ vbematch.name := by
  constructor
  · rintro hsame rfl
    rw [seek_vbematch, exhaustive, table_eq, eq_comm, List.find?_eq_none] at hsame
    exact hsame vbematch (List.mem_append_right _ List.mem_cons_self) (decide_eq_true rfl)
  · intro hother
    rw [table_eq, seek_append_other hother.symm, seek_ordered (inOrder_ordered m), exhaustive, List.find?_append,
      List.find?_cons, decide_eq_false hother.symm, List.find?_nil, Option.or_none]

/-! ## Commands -/

/-- The first word of what is in memory from `command` on. -/
def firstWord (command : List Byte) : List Byte := command.takeWhile fun c => !nameEnd c

theorem firstWord_chars {command : List Byte} {c : Byte} (h : c ∈ firstWord command) : c ≠ 0 := by
  have hchar := List.mem_takeWhile_imp h
  rintro rfl
  exact absurd hchar (by decide)

/-- The byte behind the first word is overwritten, so that the string ends there. -/
theorem cString_terminated (command : List Byte) : cString (command.set (firstWord command).length 0) = firstWord command := by
  have hword : ∀ c ∈ firstWord command, decide (c ≠ 0) = true := fun c hc => decide_eq_true (firstWord_chars hc)
  have hsplit : command = firstWord command ++ command.dropWhile fun c => !nameEnd c := List.takeWhile_append_dropWhile.symm
  generalize firstWord command = word at hsplit hword
  rw [hsplit, List.set_append_right _ _ (Nat.le_refl _), Nat.sub_self, cString, List.takeWhile_append_of_pos hword]
  cases command.dropWhile fun c => !nameEnd c with
  | nil => exact List.append_nil word
  | cons c rest => exact List.append_nil word

/-- What was overwritten is put back. -/
theorem restored (command : List Byte) (ptr : Nat) : (command.set ptr 0).set ptr (command.getD ptr 0) = command := by
  rw [List.set_set]
  by_cases hptr : ptr < command.length
  · rw [List.getD_eq_getElem?_getD, List.getElem?_eq_getElem hptr, Option.getD_some, List.set_getElem_self]
  · exact List.set_eq_of_length_le (by omega)

theorem findCommand_eq (table : List Builtin) (command : List Byte) (errnum : GrubError) :
    findCommand table command errnum =
      match seekBuiltin (firstWord command) table with
      | some builtin => (some builtin, errnum, command)
      | none => (none, .unrecognized, command) := by
  show (match seekBuiltin (cString (command.set (firstWord command).length 0)) table with
    | some builtin => _
    | none => _) = _
  rw [cString_terminated, restored]

/-- What a lookup answers: the builtin, or an error; the command is as it was. -/
def answer (command : List Byte) (errnum : GrubError) : Option Builtin → Option Builtin × GrubError × List Byte
  | some builtin => (some builtin, errnum, command)
  | none => (none, .unrecognized, command)

/-- **The lookup** of a command agrees with an exhaustive search of the table exactly if the command is not `vbematch`. -/
theorem findCommand_iff (m : Macros) (command : List Byte) (errnum : GrubError) :
    findCommand (builtinTable m) command errnum = answer command errnum (exhaustive (builtinTable m) (firstWord command)) ↔
      firstWord command ≠ ascii "vbematch" := by
  have hanswer (o : Option Builtin) : (match o with
      | some builtin => (some builtin, errnum, command)
      | none => (none, .unrecognized, command)) = answer command errnum o := by cases o <;> rfl
  have hinjective {o o' : Option Builtin} (h : answer command errnum o = answer command errnum o') : o = o' := by
    have hfst := congrArg Prod.fst h
    cases o <;> cases o' <;> exact hfst
  rw [findCommand_eq, hanswer]
  apply Iff.trans _ (seek_iff m (firstWord command))
  constructor
  · exact hinjective
  · intro hsame
    rw [hsame]

/-- `vbematch` is in the table and is not found. -/
theorem vbematch_unrecognized :
    vbematch ∈ builtinTable ⟨false, false, true, true, true⟩ ∧
      findCommand (builtinTable ⟨false, false, true, true, true⟩) (ascii "vbematch 800 600") .none =
        (none, .unrecognized, ascii "vbematch 800 600") := by
  have hword : firstWord (ascii "vbematch 800 600") = vbematch.name := by decide +kernel
  rw [findCommand_eq, hword, seek_vbematch, table_eq]
  exact ⟨List.mem_append_right _ List.mem_cons_self, rfl⟩

end TrustedGrub.Builtins
