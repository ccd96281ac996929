import MiniOs.Kernel.Trap

/-!
# The command line of the shell

`shell.c`, from the line to the vectors it hands to `execve`. A line is its bytes
before the terminator and a cursor is the rest of the line, so that `*cursor` is the
first byte of the rest, or the terminator where nothing is left.

A word is copied to a slot of `storage`, and `argv`, `input` and `output` point to
slots. Here a pointer is the number of the slot, and the slots in use are a list.
-/

namespace MiniOs.User

open MiniOs.Lib MiniOs.Fs MiniOs.Kernel

/-- `LINE_MAX`, `ARG_MAX` and the size of a slot. -/
def lineMax : Nat := 256
def argMax : Nat := 16
def slotSize : Nat := 128

def isSpace (character : UInt8) : Bool := character = 32 ∨ character = 9

/-- The bytes that end a word outside quotes: blanks, `<`, `>` and `&`. -/
def endsWord (character : UInt8) : Bool :=
  isSpace character ∨ character = 60 ∨ character = 62 ∨ character = 38

/-- The quotation marks `'` and `"`. -/
def singleQuote : UInt8 := 39
def doubleQuote : UInt8 := 34

/-- What `next_word` does about quotation marks, with `quote` the one that is open, or
0: the mark that is open behind `character`, and the cursor. The curly marks are three
bytes of UTF-8, of which the first two are the same. -/
def quoteMark (quote character : UInt8) (cursor : List UInt8) : Option (UInt8 × List UInt8) :=
  let curly := character = 0xe2 ∧ cursor.getD 0 0 = 0x80
  let next := cursor.getD 1 0
  if quote ≠ 0 then
    if curly ∧ (next = 0x9d ∧ quote = doubleQuote ∨ next = 0x99 ∧ quote = singleQuote) then
      some (0, cursor.drop 2)
    else if character = quote then some (0, cursor)
    else none
  else if curly ∧ next = 0x9c then some (doubleQuote, cursor.drop 2)
  else if curly ∧ next = 0x98 then some (singleQuote, cursor.drop 2)
  else if character = singleQuote ∨ character = doubleQuote then some (character, cursor)
  else none

/-- A backslash stands for the byte behind it, if there is one. -/
def escape (character : UInt8) : List UInt8 → UInt8 × List UInt8
  | [] => (character, [])
  | escaped :: rest => if character = 92 then (escaped, rest) else (character, escaped :: rest)

/-- The end of `next_word`: no open quotes, and not an empty word. -/
def wordEnd (quote : UInt8) (word cursor : List UInt8) : Option (List UInt8 × List UInt8) :=
  if quote ≠ 0 ∨ word = [] then none else some (word, cursor)

/-- The loop of `next_word`. A round takes a byte at least, so the length of the rest is
fuel enough. -/
def wordLoop (capacity : Nat) :
    Nat → UInt8 → List UInt8 → List UInt8 → Option (List UInt8 × List UInt8)
  | 0, quote, word, cursor => wordEnd quote word cursor
  | _ + 1, quote, word, [] => wordEnd quote word []
  | fuel + 1, quote, word, character :: cursor =>
    if quote = 0 ∧ endsWord character then wordEnd quote word (character :: cursor)
    else
      match quoteMark quote character cursor with
      | some (quote, cursor) => wordLoop capacity fuel quote word cursor
      | none =>
        match escape character cursor with
        | (character, cursor) =>
          if word.length + 1 ≥ capacity then none
          else wordLoop capacity fuel quote (word ++ [character]) cursor

/-- `next_word`: the word, and the cursor behind it. -/
def nextWord (cursor : List UInt8) (capacity : Nat) : Option (List UInt8 × List UInt8) :=
  wordLoop capacity cursor.length 0 [] cursor

/-- `struct command`. `stored` is the number of slots, and `argc` that of arguments. -/
structure Command where
  storage : List (List UInt8)
  argv : List Nat
  input : Option Nat
  output : Option Nat
  append : Bool
  background : Bool
  deriving DecidableEq, Repr

namespace Command

/-- What `memset` leaves. -/
def zero : Command := ⟨[], [], none, none, false, false⟩

/-- The string a pointer leads to. -/
def word (command : Command) (slot : Nat) : List UInt8 := command.storage.getD slot []

/-- The strings of `argv`. -/
def words (command : Command) : List (List UInt8) := command.argv.map command.word

end Command

/-- The redirections. -/
inductive Operator where
  | input
  | output
  | append
  deriving DecidableEq, Repr

/-- `<`, `>` or `>>`, with the cursor behind it. -/
def readOperator (character : UInt8) (cursor : List UInt8) : Operator × List UInt8 :=
  if character = 60 then (.input, cursor)
  else
    match cursor with
    | 62 :: rest => (.append, rest)
    | _ => (.output, cursor)

/-- A redirection to a word that has been stored; one of each kind is allowed. -/
def redirect (command : Command) (operator : Operator) (path : Nat) : Option Command :=
  match operator with
  | .input => if command.input ≠ none then none else some { command with input := some path }
  | .output =>
    if command.output ≠ none then none
    else some { command with output := some path, append := false }
  | .append =>
    if command.output ≠ none then none
    else some { command with output := some path, append := true }

/-- The loop of `parse_command`, where `none` is an error. -/
def parseLoop : Nat → Command → List UInt8 → Option Command
  | 0, command, _ => some command
  | fuel + 1, command, cursor =>
    match cursor.dropWhile isSpace with
    | [] => some command
    | character :: cursor =>
      if character = 38 then
        if cursor.dropWhile isSpace ≠ [] then none
        else some { command with background := true }
      else if character = 60 ∨ character = 62 then
        match readOperator character cursor with
        | (operator, cursor) =>
          if command.storage.length ≥ argMax + 2 then none
          else
            match nextWord (cursor.dropWhile isSpace) slotSize with
            | none => none
            | some (word, cursor) =>
              match redirect { command with storage := command.storage ++ [word] } operator
                command.storage.length with
              | none => none
              | some command => parseLoop fuel command cursor
      else if command.argv.length ≥ argMax ∨ command.storage.length ≥ argMax + 2 then none
      else
        match nextWord (character :: cursor) slotSize with
        | none => none
        | some (word, cursor) =>
          parseLoop fuel
            { command with
              storage := command.storage ++ [word]
              argv := command.argv ++ [command.storage.length] }
            cursor

/-- `parse_command`, where it does not return -1: the command, and 1 if it is empty. -/
def parseCommand (line : List UInt8) : Option (Command × Nat) :=
  (parseLoop line.length Command.zero line).map fun command =>
    (command, if command.argv.length = 0 then 1 else 0)

/-- The strings of the environment that do not change. -/
def pathEntry : List UInt8 := Machine.ascii "PATH=/bin:/tests"
def homeEntry : List UInt8 := Machine.ascii "HOME=/"

/-- `build_environment`, with what `getcwd` answers. Where it fails nothing follows
`PWD=`. -/
def buildEnvironment (cwd : Option (List UInt8)) : List (List UInt8) :=
  [pathEntry, homeEntry, Machine.ascii "PWD=" ++ cwd.getD []]

/-! ## The first instructions of a program

`crt0.S` up to the call of `main`. The kernel has left a number at the stack pointer and two
vectors behind it; `_start` finds the vectors by counting.
-/

/-- `ld`, from the memory of the process: the doubleword at an address, if all of it is there. -/
def ld (read : Nat → Option UInt8) (a : BitVec 64) : Option (BitVec 64) :=
  if (List.range 8).all fun i => (read (a.toNat + i)).isSome then
    some (BitVec.ofNat 64 (Region.dword (fun i => (read (a.toNat + i)).getD 0) 0))
  else none

/-- `_start`: what `a0`, `a1` and `a2` are when `main` is called. -/
def start (read : Nat → Option UInt8) (sp : BitVec 64) :
    Option (BitVec 64 × BitVec 64 × BitVec 64) :=
  match ld read sp with
  | none => none
  | some a0 =>
    let a1 := sp + 8
    let t0 := a0 <<< 3
    let t0 := a1 + t0
    let a2 := t0 + 8
    some (a0, a1, a2)

end MiniOs.User
