import Oxinit.Model.Text

/-!
# The `exec` string

`exec::parse`, which makes an argv of it in two passes: the specifiers are
substituted, and what they leave is split. No shell is involved.
-/

namespace Oxinit.Exec

/-- What the specifiers expand to. -/
structure Specifiers where
  name : List Char
  fullName : List Char
  hostname : List Char
  user : List Char

/-- A malformed `exec` string. -/
inductive ExecError
  | empty
  | notAbsolute (program : String)
  | unknownSpecifier (specifier : Char)
  | trailingPercent
  | unterminatedQuote
  | trailingBackslash
  deriving DecidableEq

/-- What is reported of it. -/
def ExecError.toString : ExecError → String
  | .empty => "empty"
  | .notAbsolute program =>
    "`" ++ program ++ "` is not an absolute path; there is no PATH lookup and no shell"
  | .unknownSpecifier specifier =>
    "unknown specifier `%" ++ .singleton specifier ++ "`: expected %n, %N, %H, %u, or %%"
  | .trailingPercent => "trailing `%`"
  | .unterminatedQuote => "unterminated quote"
  | .trailingBackslash => "trailing backslash"

/-- What stands for `%c`. The set is closed. -/
def Specifiers.value (s : Specifiers) (c : Char) : Except ExecError (List Char) :=
  if c = 'n' then .ok s.name
  else if c = 'N' then .ok s.fullName
  else if c = 'H' then .ok s.hostname
  else if c = 'u' then .ok s.user
  else if c = '%' then .ok ['%']
  else .error (.unknownSpecifier c)

/-- Substitute `%`-prefixed specifiers in what is left, `out` being expanded. -/
def expandFrom (s : Specifiers) (out : List Char) : List Char → Except ExecError (List Char)
  | [] => .ok out
  | [c] => if c = '%' then .error .trailingPercent else .ok (out ++ [c])
  | c :: d :: rest =>
    if c = '%' then
      match s.value d with
      | .ok text => expandFrom s (out ++ text) rest
      | .error e => .error e
    else expandFrom s (out ++ [c]) (d :: rest)

/-- Substitute the specifiers. -/
def expand (s : Specifiers) (input : List Char) : Except ExecError (List Char) := expandFrom s [] input

/-- Where the splitting is: the arguments so far, the one being read, whether
there is one, and the quote it is in. -/
structure Splitting where
  argv : List (List Char) := []
  current : List Char := []
  hasCurrent : Bool := false
  quote : Option Char := none
  deriving DecidableEq

/-- What escapes the next character. -/
def backslash : Char := '\\'

/-- The double quote and the single one. -/
def isQuote (c : Char) : Bool := c = '\x22' || c = '\x27'

namespace Splitting

/-- One more character of the current word. -/
def push (c : Char) (s : Splitting) : Splitting := { s with current := s.current ++ [c], hasCurrent := true }

/-- A character that no backslash stands before, and that is not one. -/
def next (c : Char) (s : Splitting) : Splitting :=
  if isQuote c && s.quote.isNone then { s with quote := some c, hasCurrent := true }
  else if s.quote = some c then { s with quote := none }
  else if Text.isWhitespace c && s.quote.isNone then
    if s.hasCurrent then { s with argv := s.argv ++ [s.current], current := [], hasCurrent := false } else s
  else s.push c

/-- A backslash escapes the next character anywhere, inside quotes too. -/
def run (s : Splitting) : List Char → Except ExecError Splitting
  | [] => .ok s
  | [c] => if c = backslash then .error .trailingBackslash else .ok (s.next c)
  | c :: d :: rest => if c = backslash then run (s.push d) rest else run (s.next c) (d :: rest)

/-- The words, unless a quote is still open. -/
def finish (s : Splitting) : Except ExecError (List (List Char)) :=
  if s.quote.isSome then .error .unterminatedQuote
  else .ok (if s.hasCurrent then s.argv ++ [s.current] else s.argv)

end Splitting

/-- Split on whitespace, honouring quotes and backslash escapes. -/
def split (input : List Char) : Except ExecError (List (List Char)) := do
  let s ← Splitting.run {} input
  s.finish

/-- Expand specifiers, then split into argv. -/
def parse (exec : List Char) (specifiers : Specifiers) : Except ExecError (List (List Char)) := do
  let expanded ← expand specifiers exec
  let argv ← split expanded
  match argv.head? with
  | none => .error .empty
  | some program => if program.head? = some '/' then .ok argv else .error (.notAbsolute (.ofList program))

end Oxinit.Exec
