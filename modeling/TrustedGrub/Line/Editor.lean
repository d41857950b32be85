import TrustedGrub.Line.Cmdline

/-!
# An editor of lines

What the line editor is for: a text with a cursor, the text that has been killed, and the lines that have been
entered. Keys and completions are those of the line editor.
-/

namespace TrustedGrub.Line
open Fips180 (Byte)

structure Editor where
  text : List Byte
  cursor : Nat
  kill : List Byte
  history : List (List Byte)
  /-- The line of the history that has been fetched. -/
  place : Option Nat
  /-- The line that was there before the first one was fetched. -/
  saved : List Byte

namespace Editor

/-! ## Text -/

/-- Characters are put in before the cursor, if the line stays shorter than `max`. -/
def insert (e : Editor) (max : Int) (t : List Byte) : Editor :=
  if (e.text.length + t.length : Int) < max then
    { e with text := e.text.take e.cursor ++ (t ++ e.text.drop e.cursor), cursor := e.cursor + t.length }
  else e

/-- Characters behind the cursor are taken out. -/
def delete (e : Editor) (n : Nat) : Editor := { e with text := e.text.take e.cursor ++ e.text.drop (e.cursor + n) }

def backward (e : Editor) (n : Nat) : Editor := { e with cursor := e.cursor - n }

def forward (e : Editor) (n : Nat) : Editor := { e with cursor := e.cursor + n }

def killBackward (e : Editor) : Editor :=
  if e.cursor = 0 then e else { e with kill := e.text.take e.cursor, text := e.text.drop e.cursor, cursor := 0 }

def killForward (e : Editor) : Editor :=
  if e.cursor = e.text.length then e else { e with kill := e.text.drop e.cursor, text := e.text.take e.cursor }

def yank (e : Editor) (max : Int) : Editor := e.insert max e.kill

/-! ## History -/

/-- A line is put into the history, and the oldest one may drop out. -/
def remember (e : Editor) (line : List Byte) (no : Nat) : Editor :=
  { e with history := (e.history.take no ++ line :: e.history.drop no).take historySize }

def fetch (e : Editor) (place : Option Nat) (line : List Byte) : Editor := { e with place, text := line, cursor := line.length }

/-- A line that has been fetched and modified is a new one. -/
def keepModified (e : Editor) (i : Nat) : Editor := if e.history[i]? = some e.text then e else e.remember e.text i

def previous (e : Editor) : Editor :=
  let kept := e.place.elim { e with saved := e.text } e.keepModified
  let i := e.place.elim 0 (· + 1)
  (kept.history[i]?).elim kept (kept.fetch (some i))

def next (e : Editor) : Editor :=
  match e.place with
  | none => e
  | some 0 => (e.keepModified 0).fetch none e.saved
  | some (i + 1) => (e.keepModified (i + 1)).fetch (some i) ((e.keepModified (i + 1)).history.getD i [])

/-! ## Completion -/

/-- The start of the word before the cursor. A word is behind a space, or behind the equal character after the command. -/
def wordStart (text : List Byte) : Nat → Nat
  | 0 => 0
  | i + 1 => if text[i]? = some 0x20 ∨ equalPos text (commandEnd text) = some i then i + 1 else wordStart text i

/-- The word before the cursor. -/
def word (e : Editor) : List Byte := (e.text.take e.cursor).drop (wordStart e.text e.cursor)

/-- What there is to complete the word. -/
def completion (e : Editor) (completions : Completions) : Completion := completions (decide (commandEnd e.text < e.cursor)) e.word

/-- The word is replaced, if there is a completion and the line stays shorter than `max`. -/
def complete (e : Editor) (max : Int) (completions : Completions) : Editor :=
  let i := wordStart e.text e.cursor
  let c := e.completion completions
  if c.ret ≥ 0 ∧ (e.text.length - e.word.length + c.buffer.length : Int) < max then
    { e with text := e.text.take i ++ (c.buffer ++ e.text.drop e.cursor), cursor := i + c.buffer.length }
  else e

/-! ## Keys -/

inductive Outcome where
  | editing (e : Editor)
  | entered (line : List Byte) (e : Editor)
  | aborted (e : Editor)

def readlineKey (e : Editor) (max : Int) (k : Key) : Editor :=
  match k.c.toNat with
  | 9 => e.complete max k.completions
  | 1 => e.backward e.cursor
  | 5 => e.forward (e.text.length - e.cursor)
  | 6 => if e.cursor < e.text.length then e.forward 1 else e
  | 2 => if 0 < e.cursor then e.backward 1 else e
  | 21 => e.killBackward
  | 11 => e.killForward
  | 25 => e.yank max
  | 16 => e.previous
  | 14 => e.next
  | _ => e

/-- The line that is entered: without the spaces before it, unless it is a secret. -/
def line (e : Editor) (echoChar : Byte) : List Byte := if echoChar = 0 then e.text.dropWhile fun c => c = 0x20 else e.text

/-- A line is entered, and goes into the history if it is not empty. -/
def enter (e : Editor) (echoChar : Byte) (readline : Bool) : Editor :=
  if readline ∧ e.line echoChar ≠ [] then e.remember (e.line echoChar) 0 else e

def key (e : Editor) (max : Int) (echoChar : Byte) (readline : Bool) (k : Key) : Outcome :=
  if k.c.toNat = 10 ∨ k.c.toNat = 13 then .entered (e.line echoChar) (e.enter echoChar readline)
  else
    let e := if readline then e.readlineKey max k else e
    match k.c.toNat with
    | 27 => .aborted e
    | 4 => .editing (if e.cursor = e.text.length then e else e.delete 1)
    | 8 => .editing (if 0 < e.cursor then (e.backward 1).delete 1 else e)
    | c => .editing (if 0x20 ≤ c ∧ c ≤ 0x7E then e.insert max [k.c] else e)

def keys (e : Editor) (max : Int) (echoChar : Byte) (readline : Bool) : List Key → Outcome
  | [] => .editing e
  | k :: ks =>
    match e.key max echoChar readline k with
    | .editing e => e.keys max echoChar readline ks
    | o => o

end Editor

end TrustedGrub.Line
