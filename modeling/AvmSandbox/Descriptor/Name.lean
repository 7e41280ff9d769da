import AvmSandbox.Descriptor.Basic

/-! # Type names — writing and reading descriptors as text

    The canonical name of a type is what method signatures are made of:
    `uint64[4]`, `(bool,string)`, `byte[]`.  A struct is named like its tuple.

    * `Descriptor.name` writes the name;
    * `Descriptor.parse` reads one.  Reading follows the grammar by recursive
      descent; a refusal carries the position at which reading stopped. -/

namespace AvmSandbox

namespace Descriptor

/-! ## Writing -/

/-- The decimal digits of a number. -/
def digits (n : Nat) : List Char := Nat.toDigits 10 n

/-- Names between parentheses, separated by commas. -/
def parenthesized (names : List (List Char)) : List Char :=
  '(' :: List.intercalate [','] names ++ [')']

mutual

/-- The characters of the canonical name. -/
def nameChars : Descriptor → List Char
  | bool => ['b', 'o', 'o', 'l']
  | uint bits => 'u' :: 'i' :: 'n' :: 't' :: digits bits
  | ufixed bits places =>
      'u' :: 'f' :: 'i' :: 'x' :: 'e' :: 'd' :: digits bits ++ 'x' :: digits places
  | byte => ['b', 'y', 't', 'e']
  | address => ['a', 'd', 'd', 'r', 'e', 's', 's']
  | string => ['s', 't', 'r', 'i', 'n', 'g']
  | dynamicBytes => ['b', 'y', 't', 'e', '[', ']']
  | staticBytes n => 'b' :: 'y' :: 't' :: 'e' :: '[' :: digits n ++ [']']
  | staticArray t n => nameChars t ++ '[' :: digits n ++ [']']
  | dynamicArray t => nameChars t ++ ['[', ']']
  | tuple ts => parenthesized (nameLists ts)
  | struct _ fs => parenthesized (fieldNameLists fs)
  | account => ['a', 'c', 'c', 'o', 'u', 'n', 't']
  | asset => ['a', 's', 's', 'e', 't']
  | application => ['a', 'p', 'p', 'l', 'i', 'c', 'a', 't', 'i', 'o', 'n']

/-- The names of a row of types. -/
def nameLists : List Descriptor → List (List Char)
  | [] => []
  | t :: ts => nameChars t :: nameLists ts

/-- The names of a row of named types. -/
def fieldNameLists : List (String × Descriptor) → List (List Char)
  | [] => []
  | (_, t) :: fs => nameChars t :: fieldNameLists fs

end

/-- The canonical name. -/
def name (t : Descriptor) : String := String.ofList t.nameChars

/-- Whether two types have the same canonical name, and so the same encodings. -/
def sameShape (a b : Descriptor) : Bool := decide (a = b) || a.name == b.name

/-! ## Reading -/

/-- Why reading a name stopped. -/
inductive Stop where
  /-- The text breaks off the grammar where this much of it is left. -/
  | grammar (error : TypeTextError) (left : List Char)
  /-- The type that is named does not exist. -/
  | refused (error : DescriptorError)

/-- The number written by decimal digits, if all characters are digits and there is one. -/
def number? (cs : List Char) : Option Nat :=
  if cs.isEmpty || cs.any (fun c => !c.isDigit) then none
  else some (cs.foldl (fun n c => n * 10 + (c.toNat - 48)) 0)

/-- A number that is written in decimal digits and at most `max`. -/
def numberUpTo? (max : Nat) (cs : List Char) : Option Nat :=
  (number? cs).filter fun n => n ≤ max

/-- What is left of a text after a given beginning. -/
def after? : List Char → List Char → Option (List Char)
  | [], cs => some cs
  | _ :: _, [] => none
  | p :: ps, c :: cs => if p = c then after? ps cs else none

/-- The type a single word names; `left` is the text that follows the word. -/
def ofWord (word left : List Char) : Except Stop Descriptor :=
  if word = nameChars bool then .ok bool
  else if word = nameChars byte then .ok byte
  else if word = nameChars address then .ok address
  else if word = nameChars string then .ok string
  else if word = nameChars account then .ok account
  else if word = nameChars asset then .ok asset
  else if word = nameChars application then .ok application
  else if word.isEmpty then .error (.grammar .typeName left)
  else match after? ['u', 'f', 'i', 'x', 'e', 'd'] word with
  | some rest =>
      if rest.all (· ≠ 'x') then .error (.grammar .ufixedForm left) else
        match numberUpTo? 65535 (rest.takeWhile (· ≠ 'x')) with
        | none => .error (.grammar .ufixedWidth left)
        | some bits =>
            match numberUpTo? 255 ((rest.dropWhile (· ≠ 'x')).drop 1) with
            | none => .error (.grammar .ufixedPrecision left)
            | some places => (ufixedOf bits places).mapError .refused
  | none =>
      match after? ['u', 'i', 'n', 't'] word with
      | some rest =>
          match numberUpTo? 65535 rest with
          | none => .error (.grammar .uintWidth left)
          | some bits => (uintOf bits).mapError .refused
      | none => .error (.refused (.unknown (String.ofList word)))

/-- The array type with the length written in `length`, none for a dynamic one; `left` is
    the text that follows. -/
def arrayOf (t : Descriptor) (length left : List Char) : Except Stop Descriptor :=
  if length.isEmpty then
    .ok (if t = byte then dynamicBytes else dynamicArray t)
  else match numberUpTo? (Limits.length - 1) length with
  | none => .error (.grammar .arrayLength left)
  | some n => .ok (if t = byte then staticBytes n else staticArray t n)

/-- Reads the bracketed lengths that follow an element type.  In `inside` are the digits
    since the last opening bracket, last first; it is absent outside brackets. -/
def parseSuffixes (t : Descriptor) (inside : Option (List Char)) :
    List Char → Except Stop (Descriptor × List Char)
  | [] =>
      match inside with
      | none => .ok (t, [])
      | some _ => .error (.grammar .closingBracket [])
  | c :: rest =>
      match inside with
      | none => if c = '[' then parseSuffixes t (some []) rest else .ok (t, c :: rest)
      | some ds =>
          if c.isDigit then parseSuffixes t (some (c :: ds)) rest
          else if c = ']' then
            match arrayOf t ds.reverse rest with
            | .error e => .error e
            | .ok u => parseSuffixes u none rest
          else .error (.grammar .closingBracket (c :: rest))

mutual

/-- Reads one type off the front; `fuel` bounds the nesting. -/
def parseType : Nat → List Char → Except Stop (Descriptor × List Char)
  | 0, cs => .error (.grammar .typeName cs)
  | fuel + 1, cs => do
      match cs with
      | '(' :: rest =>
          let (ts, rest) ← parseRow fuel rest
          parseSuffixes (tuple ts) none rest
      | cs =>
          let word := cs.takeWhile Char.isAlphanum
          let rest := cs.dropWhile Char.isAlphanum
          parseSuffixes (← ofWord word rest) none rest

/-- Reads what follows the opening parenthesis of a tuple, through the closing one. -/
def parseRow : Nat → List Char → Except Stop (List Descriptor × List Char)
  | 0, cs => .error (.grammar .typeName cs)
  | fuel + 1, cs => do
      match cs with
      | ')' :: rest => return ([], rest)
      | cs =>
          let (t, rest) ← parseType fuel cs
          parseMore fuel [t] rest

/-- Reads the further components of a tuple; `done` holds the ones read, last first. -/
def parseMore : Nat → List Descriptor → List Char → Except Stop (List Descriptor × List Char)
  | 0, _, cs => .error (.grammar .typeName cs)
  | fuel + 1, done, cs => do
      match cs with
      | ',' :: rest =>
          let (t, rest) ← parseType fuel rest
          parseMore fuel (t :: done) rest
      | ')' :: rest => return (done.reverse, rest)
      | cs => throw (.grammar .separator cs)

end

/-- Reads a whole text as a type name. -/
def parseChars (cs : List Char) : Except Stop Descriptor := do
  let (t, rest) ← parseType (2 * cs.length + 2) cs
  if rest.isEmpty then return t else throw (.grammar .trailing rest)

/-- Reads a type name.  Structs come back as tuples. -/
def parse (text : String) : Result Descriptor :=
  let cs := text.toList
  match parseChars cs with
  | .ok t => .ok t
  | .error (.refused e) => .error (.invalidType e)
  | .error (.grammar e left) => .error (.invalidType (.text e (cs.length - left.length) text))

end Descriptor

end AvmSandbox
