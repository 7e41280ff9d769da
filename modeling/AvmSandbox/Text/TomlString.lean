import AvmSandbox.Text.Toml

/-! # TOML strings — writing texts

    A text can stand between single or double quotes, one or three of them on
    each side.  Between three, line breaks stand for themselves and so do up to
    two quotes in a row; between double quotes, escapes are possible.

    * `Marks.holds`: whether a text can stand between some marks unescaped;
    * `Marks.choose`: the first marks that hold a text, and double quotes with
      escapes when there are none;
    * `writeString`: the text between the marks that are chosen. -/

namespace AvmSandbox.Toml

/-- What stands around a text: a kind of quote, once or, when `long`, three times. -/
structure Marks where
  quote : Char
  long : Bool
  deriving DecidableEq, Repr

namespace Marks

/-- All marks, those that are tried first in front. -/
def all : List Marks := [⟨'"', false⟩, ⟨'\'', false⟩, ⟨'"', true⟩, ⟨'\'', true⟩]

/-- The characters of the marks on one side. -/
def chars (m : Marks) : List Char := List.replicate (if m.long then 3 else 1) m.quote

/-- How many quotes of the same kind may follow each other between the marks. -/
def allowance (m : Marks) : Nat := if m.long then 2 else 0

/-- Whether one character other than a quote can stand between the marks.  A backslash would
    begin an escape between double quotes. -/
def admits (m : Marks) (c : Char) : Bool :=
  if c = '\n' then m.long
  else if c = '\\' then m.quote ≠ '"'
  else isPlain c

end Marks

/-- The length of the longest run of a character, when `run` of them stand right before the
    text and `longest` is the longest run so far. -/
def longestRun (q : Char) (run longest : Nat) : List Char → Nat
  | [] => longest
  | c :: cs =>
      if c = q then longestRun q (run + 1) (max longest (run + 1)) cs
      else longestRun q 0 longest cs

namespace Marks

/-- Whether a text can stand between the marks unescaped. -/
def holds (m : Marks) (cs : List Char) : Bool :=
  longestRun m.quote 0 0 cs ≤ m.allowance && cs.all m.admits

/-- The marks a text is written between. -/
def choose (cs : List Char) : Marks :=
  (all.find? fun m => m.holds cs).getD ⟨'"', cs.contains '\n'⟩

end Marks

/-- Four hexadecimal digits, in upper case. -/
def fourDigits (n : Nat) : List Char :=
  let digits := (Nat.toDigits 16 n).map Char.toUpper
  List.replicate (4 - digits.length) '0' ++ digits

/-- A character other than a quote between double quotes.  With `long`, line breaks stand for
    themselves. -/
def escaped (long : Bool) (c : Char) : List Char :=
  match c with
  | '\t' => ['\\', 't']
  | '\n' => if long then ['\n'] else ['\\', 'n']
  | '\r' => ['\\', 'r']
  | '\\' => ['\\', '\\']
  | c =>
      if c.toNat = 8 then ['\\', 'b']
      else if c.toNat = 12 then ['\\', 'f']
      else if isPlain c then [c]
      else '\\' :: 'u' :: fourDigits c.toNat

/-- A text between double quotes, when `run` quotes stand right before it.  The quote that
    would be one too many in a row is escaped, and the row begins anew behind it. -/
def escapeFrom (m : Marks) (run : Nat) : List Char → List Char
  | [] => []
  | c :: cs =>
      if c = '"' then
        if run < m.allowance then '"' :: escapeFrom m (run + 1) cs
        else '\\' :: '"' :: escapeFrom m 0 cs
      else escaped m.long c ++ escapeFrom m 0 cs

/-- What stands between the marks for a text. -/
def content (m : Marks) (cs : List Char) : List Char :=
  if m.quote = '"' then escapeFrom m 0 cs else cs

/-- The characters of a text as a TOML string.  A text of many lines begins below its marks. -/
def writeChars (cs : List Char) : List Char :=
  let m := Marks.choose cs
  let opening := if cs.contains '\n' then m.chars ++ ['\n'] else m.chars
  opening ++ content m cs ++ m.chars

def writeString (s : String) : String := String.ofList (writeChars s.toList)

end AvmSandbox.Toml
