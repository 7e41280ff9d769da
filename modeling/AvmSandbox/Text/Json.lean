/-! # JSON text — reading documents

    A document is read into a tree.  The order of members and repeated names
    are kept, and what a reader does not look at need not make sense: numbers
    are not evaluated, and a string whose escapes name half a surrogate pair is
    present but has no text. -/

namespace AvmSandbox

/-- A JSON document. -/
inductive Json where
  | null
  | bool (b : Bool)
  | number
  /-- A string; absent when its escapes make no text. -/
  | string (s : Option String)
  | array (items : List Json)
  | object (members : List (Option String × Json))

namespace Json

/-! ## Strings -/

/-- One element of a string. -/
inductive Piece where
  | char (c : Char)
  /-- A code unit written with four hexadecimal digits. -/
  | unit (n : Nat)

/-- The value of a hexadecimal digit. -/
def hexValue? (c : Char) : Option Nat :=
  if c.isDigit then some (c.toNat - 48)
  else if 'a' ≤ c ∧ c ≤ 'f' then some (c.toNat - 87)
  else if 'A' ≤ c ∧ c ≤ 'F' then some (c.toNat - 55)
  else none

/-- The value of four hexadecimal digits. -/
def codeUnit? (a b c d : Char) : Option Nat := do
  return (((← hexValue? a) * 16 + (← hexValue? b)) * 16 + (← hexValue? c)) * 16 + (← hexValue? d)

/-- The character a single-letter escape stands for. -/
def escape? (c : Char) : Option Char :=
  match c with
  | '"' => some '"'
  | '\\' => some '\\'
  | '/' => some '/'
  | 'b' => some (Char.ofNat 8)
  | 'f' => some (Char.ofNat 12)
  | 'n' => some '\n'
  | 'r' => some '\r'
  | 't' => some '\t'
  | _ => none

/-- Reads a string behind its opening quote, through the closing one; `done` holds the pieces
    before, last first. -/
def scanString (done : List Piece) : List Char → Option (List Piece × List Char)
  | [] => none
  | '"' :: rest => some (done.reverse, rest)
  | '\\' :: 'u' :: a :: b :: c :: d :: rest =>
      match codeUnit? a b c d with
      | some n => scanString (.unit n :: done) rest
      | none => none
  | '\\' :: e :: rest =>
      match escape? e with
      | some c => scanString (.char c :: done) rest
      | none => none
  | c :: rest => if c.toNat < 32 || c = '\\' then none else scanString (.char c :: done) rest

/-- The text of some pieces, if every surrogate has its partner. -/
def joinPieces : List Piece → Option (List Char)
  | [] => some []
  | .char c :: rest => (joinPieces rest).map (c :: ·)
  | .unit n :: rest =>
      if 0xD800 ≤ n ∧ n < 0xDC00 then
        match rest with
        | .unit m :: rest =>
            if 0xDC00 ≤ m ∧ m < 0xE000 then
              (joinPieces rest).map
                (Char.ofNat (0x10000 + (n - 0xD800) * 1024 + (m - 0xDC00)) :: ·)
            else none
        | _ => none
      else if 0xDC00 ≤ n ∧ n < 0xE000 then none
      else (joinPieces rest).map (Char.ofNat n :: ·)

/-- Reads a string behind its opening quote. -/
def parseString (cs : List Char) : Option (Option String × List Char) := do
  let (pieces, rest) ← scanString [] cs
  return ((joinPieces pieces).map String.ofList, rest)

/-! ## Numbers -/

/-- Leaves out at least one digit. -/
def skipDigits (cs : List Char) : Option (List Char) :=
  match cs with
  | c :: rest => if c.isDigit then some (rest.dropWhile Char.isDigit) else none
  | [] => none

/-- Leaves out a fraction, if there is one. -/
def skipFraction (cs : List Char) : Option (List Char) :=
  match cs with
  | '.' :: rest => skipDigits rest
  | _ => some cs

/-- Leaves out an exponent, if there is one. -/
def skipExponent (cs : List Char) : Option (List Char) :=
  match cs with
  | c :: rest =>
      if c = 'e' ∨ c = 'E' then
        match rest with
        | '+' :: rest | '-' :: rest => skipDigits rest
        | _ => skipDigits rest
      else some cs
  | [] => some []

/-- Leaves out a number without its sign.  It starts with a zero only if that is all of its
    integer part. -/
def skipNumber (cs : List Char) : Option (List Char) := do
  let rest ←
    match cs with
    | '0' :: rest => if (rest.head?.map Char.isDigit).getD false then none else some rest
    | _ => skipDigits cs
  skipExponent (← skipFraction rest)

/-! ## Documents -/

/-- Leaves out blanks. -/
def skipBlanks (cs : List Char) : List Char :=
  cs.dropWhile fun c => c = ' ' || c = '\n' || c = '\t' || c = '\r'

/-- What is left of a text after a literal. -/
def literal (word : String) (cs : List Char) : Option (List Char) :=
  if word.toList.isPrefixOf cs then some (cs.drop word.length) else none

/-- Whether a text, after blanks, starts with a character; if so, the rest. -/
def symbol? (c : Char) (cs : List Char) : Option (List Char) :=
  match skipBlanks cs with
  | d :: rest => if c = d then some rest else none
  | [] => none

mutual

/-- Reads a value; `fuel` bounds nesting and length. -/
def parseValue : Nat → List Char → Option (Json × List Char)
  | 0, _ => none
  | fuel + 1, cs =>
      match skipBlanks cs with
      | [] => none
      | '"' :: rest => (parseString rest).map fun (s, rest) => (.string s, rest)
      | '[' :: rest =>
          match symbol? ']' rest with
          | some rest => some (.array [], rest)
          | none => parseItems fuel [] rest
      | '\x7b' :: rest =>
          match symbol? '\x7d' rest with
          | some rest => some (.object [], rest)
          | none => parseMembers fuel [] rest
      | '-' :: rest => (skipNumber rest).map fun rest => (.number, rest)
      | c :: rest =>
          if c.isDigit then (skipNumber (c :: rest)).map fun rest => (.number, rest)
          else if c = 'n' then (literal "ull" rest).map fun rest => (.null, rest)
          else if c = 't' then (literal "rue" rest).map fun rest => (.bool true, rest)
          else if c = 'f' then (literal "alse" rest).map fun rest => (.bool false, rest)
          else none

/-- Reads the items of an array through its closing bracket. -/
def parseItems : Nat → List Json → List Char → Option (Json × List Char)
  | 0, _, _ => none
  | fuel + 1, done, cs =>
      match parseValue fuel cs with
      | none => none
      | some (v, rest) =>
          match skipBlanks rest with
          | ',' :: rest => parseItems fuel (v :: done) rest
          | ']' :: rest => some (.array (v :: done).reverse, rest)
          | _ => none

/-- Reads the members of an object through its closing brace. -/
def parseMembers : Nat → List (Option String × Json) → List Char → Option (Json × List Char)
  | 0, _, _ => none
  | fuel + 1, done, cs =>
      match (symbol? '"' cs).bind parseString with
      | none => none
      | some (name, rest) =>
          match (symbol? ':' rest).bind (parseValue fuel) with
          | none => none
          | some (v, rest) =>
              match skipBlanks rest with
              | ',' :: rest => parseMembers fuel ((name, v) :: done) rest
              | '\x7d' :: rest => some (.object ((name, v) :: done).reverse, rest)
              | _ => none

end

/-- Reads a whole text. -/
def parse (text : String) : Option Json :=
  let cs := text.toList
  match parseValue (cs.length + 1) cs with
  | some (v, rest) => if (skipBlanks rest).isEmpty then some v else none
  | none => none

/-! ## Records -/

def text? : Json → Option String
  | string s => s
  | _ => none

def items? : Json → Option (List Json)
  | array items => some items
  | _ => none

/-- A truth value. -/
def bool? : Json → Option Bool
  | bool b => some b
  | _ => none

def membersOf (name : String) (members : List (Option String × Json)) : List Json :=
  members.filterMap fun m => if m.1 = some name then some m.2 else none

/-- The fields of a record: an object whose known members are not repeated, or an array of
    the fields in order of which the last ones may be missing. -/
def fields? (names : List String) : Json → Option (List (Option Json))
  | object members =>
      if members.all (fun m => m.1.isSome)
          && names.all (fun name => (membersOf name members).length ≤ 1) then
        some (names.map fun name => (membersOf name members).head?)
      else none
  | array items =>
      if items.length ≤ names.length then
        some (items.map some ++ List.replicate (names.length - items.length) none)
      else none
  | _ => none

end Json

end AvmSandbox
