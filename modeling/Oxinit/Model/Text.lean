import Mathlib.Algebra.GroupWithZero.Nat
import Mathlib.Data.List.Basic
import Oxinit.Framework.Lines

/-!
# Strings

What the parsers use of the strings and numbers of the source's language. A
string is the list of its characters here.
-/

namespace Oxinit.Text

/-- `char::is_whitespace`. -/
def isWhitespace (c : Char) : Bool :=
  (9 ≤ c.toNat && c.toNat ≤ 13) || c.toNat = 32 || c.toNat = 0x85 || c.toNat = 0xA0 || c.toNat = 0x1680
    || (0x2000 ≤ c.toNat && c.toNat ≤ 0x200A) || c.toNat = 0x2028 || c.toNat = 0x2029 || c.toNat = 0x202F
    || c.toNat = 0x205F || c.toNat = 0x3000

/-- `str::trim_start`. -/
def trimStart (text : List Char) : List Char := text.dropWhile isWhitespace

/-- `str::trim`. -/
def trim (text : List Char) : List Char := (trimStart (trimStart text).reverse).reverse

/-- A line without the carriage return of a `\r\n`. -/
def dropReturn (line : List Char) : List Char := if line.getLast? = some '\r' then line.dropLast else line

/-- `str::lines`. -/
def lines (text : List Char) : List (List Char) :=
  let (ended, last) := Framework.Lines.feed '\n' [] text
  ended.map dropReturn ++ Framework.Lines.rest last

/-- `str::split_once`. -/
def splitOnce (sep : Char) (text : List Char) : Option (List Char × List Char) :=
  match text.dropWhile (· ≠ sep) with
  | [] => none
  | _ :: value => some (text.takeWhile (· ≠ sep), value)

/-- `str::split_whitespace`. -/
def splitWhitespace (text : List Char) : List (List Char) := (text.splitOnP isWhitespace).filter fun word => !word.isEmpty

/-- The sign that `from_str` allows before an unsigned number. -/
def dropPlus : List Char → List Char
  | '+' :: digits => digits
  | digits => digits

/-- `from_str` of the unsigned integers of so many bits. -/
def fromStr (bits : Nat) (text : List Char) : Option Nat :=
  let digits := dropPlus text
  if digits.isEmpty || !digits.all Char.isDigit then none
  else if Nat.ofDigitChars 10 digits 0 < 2 ^ bits then some (Nat.ofDigitChars 10 digits 0)
  else none

end Oxinit.Text
