/-! # TOML text — reading documents

    A document is read line by line into a tree of tables.  Each table knows
    how it came about, because that decides what may still be added to it:

    * a table that was opened by a header takes keys only below that header;
    * a table that stands in the path of a header may be opened later, once;
    * a table that stands in the path of a dotted key is extended by further
      dotted keys, and never opened;
    * a table between braces is complete.

    Numbers other than integers, and dates, are checked and then forgotten. -/

namespace AvmSandbox

namespace Toml

/-- How a table came about. -/
inductive Origin where
  | opened
  | implied
  | dotted
  | closed
  deriving DecidableEq, Repr

end Toml

/-- A value in a TOML document. -/
inductive Toml where
  | string (s : String)
  | integer (n : Int)
  | float
  | bool (b : Bool)
  | date
  | array (items : List Toml)
  | table (origin : Toml.Origin) (entries : List (String × Toml))
  /-- The tables opened one after the other under the same name. -/
  | tables (items : List (List (String × Toml)))

namespace Toml

/-! ## Characters -/

/-- Whether a character is a blank within a line. -/
def isBlank (c : Char) : Bool := c = ' ' || c = '\t'

/-- Whether a character may stand in comments and, quotes and escapes apart, in strings. -/
def isPlain (c : Char) : Bool := c = '\t' || (32 ≤ c.toNat && c.toNat ≠ 127)

/-- Whether a character may stand in a key without quotes. -/
def isBare (c : Char) : Bool := c.isAlphanum || c = '-' || c = '_'

/-- Leaves out blanks. -/
def skipBlanks (cs : List Char) : List Char := cs.dropWhile isBlank

/-- What follows a line break. -/
def afterBreak? : List Char → Option (List Char)
  | '\n' :: rest => some rest
  | '\r' :: '\n' :: rest => some rest
  | _ => none

/-- Leaves out a comment, if there is one. -/
def skipComment : List Char → List Char
  | '#' :: rest => rest.dropWhile isPlain
  | cs => cs

/-- What follows the end of a line that holds nothing more but blanks and a comment. -/
def endLine? (cs : List Char) : Option (List Char) :=
  match skipComment (skipBlanks cs) with
  | [] => some []
  | rest => afterBreak? rest

/-- Leaves out blanks, line breaks, and comments that end with a line break; `fuel` bounds
    the number of lines. -/
def skipLines : Nat → List Char → List Char
  | 0, cs => cs
  | fuel + 1, cs =>
      let cs := skipBlanks cs
      match afterBreak? (skipComment cs) with
      | some rest => skipLines fuel rest
      | none => cs

/-! ## Strings -/

/-- The value of a hexadecimal digit. -/
def hexValue? (c : Char) : Option Nat :=
  if c.isDigit then some (c.toNat - 48)
  else if 'a' ≤ c ∧ c ≤ 'f' then some (c.toNat - 87)
  else if 'A' ≤ c ∧ c ≤ 'F' then some (c.toNat - 55)
  else none

/-- The character whose number is written by hexadecimal digits. -/
def codePoint? (digits : List Char) : Option Char := do
  let n ← digits.foldlM (fun n c => (hexValue? c).map (n * 16 + ·)) 0
  if n < 0xD800 ∨ (0xDFFF < n ∧ n < 0x110000) then some (Char.ofNat n) else none

/-- The character a single-letter escape stands for. -/
def escape? (c : Char) : Option Char :=
  match c with
  | 'b' => some (Char.ofNat 8)
  | 't' => some '\t'
  | 'n' => some '\n'
  | 'f' => some (Char.ofNat 12)
  | 'r' => some '\r'
  | '"' => some '"'
  | '\\' => some '\\'
  | _ => none

/-- What a scanned string is followed by, and its characters. -/
abbrev Scanned := Option (List Char × List Char)

/-- Reads a string in double quotes behind the opening one; `done` holds the characters
    before, last first. -/
def scanBasic (done : List Char) : List Char → Scanned
  | [] => none
  | '"' :: rest => some (done.reverse, rest)
  | '\\' :: 'u' :: a :: b :: c :: d :: rest =>
      match codePoint? [a, b, c, d] with
      | some x => scanBasic (x :: done) rest
      | none => none
  | '\\' :: 'U' :: a :: b :: c :: d :: e :: f :: g :: h :: rest =>
      match codePoint? [a, b, c, d, e, f, g, h] with
      | some x => scanBasic (x :: done) rest
      | none => none
  | '\\' :: e :: rest =>
      match escape? e with
      | some x => scanBasic (x :: done) rest
      | none => none
  | c :: rest => if isPlain c && c ≠ '\\' then scanBasic (c :: done) rest else none

/-- Reads a string in single quotes behind the opening one. -/
def scanLiteral (done : List Char) : List Char → Scanned
  | [] => none
  | '\'' :: rest => some (done.reverse, rest)
  | c :: rest => if isPlain c then scanLiteral (c :: done) rest else none

/-- Closes a string of many lines: up to two quotes before the closing three belong to it. -/
def closeLong (quote : Char) (done rest : List Char) : List Char × List Char :=
  let extra := (rest.take 2).takeWhile (· = quote)
  ((extra ++ done).reverse, rest.drop extra.length)

/-- Reads a string of many lines in double quotes behind the opening three.  After a line that
    ends in a backslash, `trimming` leaves out blanks and line breaks. -/
def scanLongBasic (trimming : Bool) (done : List Char) : List Char → Scanned
  | [] => none
  | '\n' :: rest => scanLongBasic trimming (if trimming then done else '\n' :: done) rest
  | '\r' :: '\n' :: rest => scanLongBasic trimming (if trimming then done else '\n' :: done) rest
  | '"' :: '"' :: '"' :: rest => some (closeLong '"' done rest)
  | '\\' :: 'u' :: a :: b :: c :: d :: rest =>
      match codePoint? [a, b, c, d] with
      | some x => scanLongBasic false (x :: done) rest
      | none => none
  | '\\' :: 'U' :: a :: b :: c :: d :: e :: f :: g :: h :: rest =>
      match codePoint? [a, b, c, d, e, f, g, h] with
      | some x => scanLongBasic false (x :: done) rest
      | none => none
  | '\\' :: e :: rest =>
      match escape? e with
      | some x => scanLongBasic false (x :: done) rest
      | none =>
          if (afterBreak? (skipBlanks (e :: rest))).isSome then
            if e = '\n' ∨ isBlank e then scanLongBasic true done rest
            else match rest with
            | _ :: rest => scanLongBasic true done rest
            | [] => none
          else none
  | c :: rest =>
      if trimming && isBlank c then scanLongBasic true done rest
      else if isPlain c && c ≠ '\\' then scanLongBasic false (c :: done) rest
      else none

/-- Reads a string of many lines in single quotes behind the opening three. -/
def scanLongLiteral (done : List Char) : List Char → Scanned
  | [] => none
  | '\n' :: rest => scanLongLiteral ('\n' :: done) rest
  | '\r' :: '\n' :: rest => scanLongLiteral ('\n' :: done) rest
  | '\'' :: '\'' :: '\'' :: rest => some (closeLong '\'' done rest)
  | c :: rest => if isPlain c then scanLongLiteral (c :: done) rest else none

/-- Leaves out a line break at the start. -/
def skipBreak (cs : List Char) : List Char := (afterBreak? cs).getD cs

/-- Reads a string of any form. -/
def parseString (cs : List Char) : Option (String × List Char) :=
  let scanned :=
    match cs with
    | '"' :: '"' :: '"' :: rest => scanLongBasic false [] (skipBreak rest)
    | '"' :: rest => scanBasic [] rest
    | '\'' :: '\'' :: '\'' :: rest => scanLongLiteral [] (skipBreak rest)
    | '\'' :: rest => scanLiteral [] rest
    | _ => none
  scanned.map fun (chars, rest) => (String.ofList chars, rest)

/-! ## Keys -/

/-- Reads one part of a key. -/
def parseKeyPart (cs : List Char) : Option (String × List Char) :=
  match cs with
  | '"' :: rest => (scanBasic [] rest).map fun (chars, rest) => (String.ofList chars, rest)
  | '\'' :: rest => (scanLiteral [] rest).map fun (chars, rest) => (String.ofList chars, rest)
  | _ =>
      let word := cs.takeWhile isBare
      if word.isEmpty then none else some (String.ofList word, cs.dropWhile isBare)

/-- Reads a key of at most `fuel` parts, and the blanks around it. -/
def parseKey : Nat → List Char → Option (List String × List Char)
  | 0, _ => none
  | fuel + 1, cs => do
      let (part, rest) ← parseKeyPart (skipBlanks cs)
      match skipBlanks rest with
      | '.' :: rest =>
          let (parts, rest) ← parseKey fuel rest
          return (part :: parts, rest)
      | rest => return ([part], rest)

/-- How deep keys and values may go. -/
def maxDepth : Nat := 79

/-! ## Numbers and dates -/

/-- Reads digits, between which single underscores may stand; `done` holds the digits before,
    last first. -/
def digitRun (isDigit : Char → Bool) (done : List Char) : List Char → Option (List Char × List Char)
  | '_' :: c :: rest =>
      if isDigit c && !done.isEmpty then digitRun isDigit (c :: done) rest else none
  | c :: rest =>
      if isDigit c then digitRun isDigit (c :: done) rest
      else if c = '_' || done.isEmpty then none
      else some (done.reverse, c :: rest)
  | [] => if done.isEmpty then none else some (done.reverse, [])

/-- The number written by digits of a base. -/
def evaluate (base : Nat) (digits : List Char) : Nat :=
  digits.foldl (fun n c => n * base + (hexValue? c).getD 0) 0

/-- The integers a document may hold. -/
def integerOf (n : Int) : Option Toml :=
  if -9223372036854775808 ≤ n ∧ n ≤ 9223372036854775807 then some (.integer n) else none

/-- Reads an integer of another base. -/
def parseBased (base : Nat) (cs : List Char) : Option (Toml × List Char) := do
  let isDigit (c : Char) := match hexValue? c with
    | some n => decide (n < base)
    | none => false
  let (digits, rest) ← digitRun isDigit [] cs
  return (← integerOf (evaluate base digits), rest)

/-- Whether `m · 10^e` rounds to no finite number of double precision. -/
def isInfinite (m : Nat) (e : Int) : Bool :=
  let size : Int := (Nat.toDigits 10 m).length + e
  if m = 0 || size < 300 then false
  else if size > 320 then true
  else
    let bound := Nat.pow 2 1024 - Nat.pow 2 970
    if e < 0 then bound * Nat.pow 10 (-e).toNat ≤ m else bound ≤ m * Nat.pow 10 e.toNat

/-- Reads the exponent of a number, if there is one. -/
def parseExponent (cs : List Char) : Option (Int × List Char) :=
  match cs with
  | c :: rest =>
      if c = 'e' ∨ c = 'E' then
        let (negative, rest) := match rest with
          | '+' :: rest => (false, rest)
          | '-' :: rest => (true, rest)
          | rest => (false, rest)
        (digitRun Char.isDigit [] rest).map fun (digits, rest) =>
          let n : Int := evaluate 10 digits
          (if negative then -n else n, rest)
      else some (0, cs)
  | [] => some (0, [])

/-- Reads a decimal number behind its sign. -/
def parseDecimal (negative : Bool) (cs : List Char) : Option (Toml × List Char) := do
  let (whole, rest) ←
    match cs with
    | '0' :: rest => some (['0'], rest)
    | _ => digitRun Char.isDigit [] cs
  match rest with
  | '.' :: rest =>
      let (fraction, rest) ← digitRun Char.isDigit [] rest
      let (exponent, rest) ← parseExponent rest
      if !negative && isInfinite (evaluate 10 (whole ++ fraction)) (exponent - fraction.length)
      then none else some (.float, rest)
  | c :: _ =>
      if c = 'e' ∨ c = 'E' then
        let (exponent, rest) ← parseExponent rest
        if !negative && isInfinite (evaluate 10 whole) exponent then none else some (.float, rest)
      else
        let n : Int := evaluate 10 whole
        return (← integerOf (if negative then -n else n), rest)
  | [] =>
      let n : Int := evaluate 10 whole
      return (← integerOf (if negative then -n else n), rest)

/-- What follows a word. -/
def afterWord? (word : List Char) (cs : List Char) : Option (List Char) :=
  if word.isPrefixOf cs then some (cs.drop word.length) else none

/-- Reads a number of at most two digits that is written with two. -/
def twoDigits? : List Char → Option (Nat × List Char)
  | a :: b :: rest =>
      if a.isDigit && b.isDigit then some (evaluate 10 [a, b], rest) else none
  | _ => none

/-- Leaves out the fraction of a second. -/
def skipFraction (cs : List Char) : List Char :=
  match cs with
  | '.' :: c :: rest => if c.isDigit then rest.dropWhile Char.isDigit else cs
  | _ => cs

/-- Leaves out a time of day. -/
def skipTime (cs : List Char) : Option (List Char) := do
  let (hour, rest) ← twoDigits? cs
  let (minute, rest) ← twoDigits? (← afterWord? [':'] rest)
  let (second, rest) ← twoDigits? (← afterWord? [':'] rest)
  if hour ≤ 23 ∧ minute ≤ 59 ∧ second ≤ 60 then some (skipFraction rest) else none

/-- Leaves out the distance of a time zone, if there is one. -/
def skipZone (cs : List Char) : Option (List Char) :=
  match cs with
  | 'Z' :: rest | 'z' :: rest => some rest
  | '+' :: rest | '-' :: rest => do
      let (hour, rest) ← twoDigits? rest
      let (minute, rest) ← twoDigits? (← afterWord? [':'] rest)
      if hour ≤ 23 ∧ minute ≤ 59 then some rest else none
  | _ => some cs

def daysIn (year month : Nat) : Nat :=
  if month = 2 then
    if year % 4 = 0 ∧ (year % 100 ≠ 0 ∨ year % 400 = 0) then 29 else 28
  else if month = 4 ∨ month = 6 ∨ month = 9 ∨ month = 11 then 30 else 31

/-- Leaves out a date, and a time if one follows. -/
def skipDate (cs : List Char) : Option (List Char) := do
  let (century, rest) ← twoDigits? cs
  let (year, rest) ← twoDigits? rest
  let (month, rest) ← twoDigits? (← afterWord? ['-'] rest)
  let (day, rest) ← twoDigits? (← afterWord? ['-'] rest)
  if month < 1 ∨ 12 < month ∨ day < 1 ∨ daysIn (century * 100 + year) month < day then none
  match rest with
  | c :: time =>
      if c = 'T' ∨ c = 't' ∨ c = ' ' then
        match skipTime time with
        | some rest => skipZone rest
        | none => some rest
      else some rest
  | [] => some []

/-- Reads a number or a date. -/
def parseNumber (cs : List Char) : Option (Toml × List Char) :=
  match cs with
  | '0' :: 'x' :: rest => parseBased 16 rest
  | '0' :: 'o' :: rest => parseBased 8 rest
  | '0' :: 'b' :: rest => parseBased 2 rest
  | _ =>
      match skipDate cs with
      | some rest => some (.date, rest)
      | none =>
          match skipTime cs with
          | some rest => some (.date, rest)
          | none =>
              let (negative, body) := match cs with
                | '+' :: rest => (false, rest)
                | '-' :: rest => (true, rest)
                | _ => (false, cs)
              match afterWord? ['i', 'n', 'f'] body with
              | some rest => some (.float, rest)
              | none =>
                  match afterWord? ['n', 'a', 'n'] body with
                  | some rest => some (.float, rest)
                  | none => parseDecimal negative body

/-! ## Tables -/

def find? (key : String) (entries : List (String × Toml)) : Option Toml :=
  (entries.find? fun e => e.1 == key).map Prod.snd

/-- Changes the value at a key, or adds one. -/
def put (key : String) (v : Toml) : List (String × Toml) → List (String × Toml)
  | [] => [(key, v)]
  | e :: rest => if e.1 == key then (key, v) :: rest else e :: put key v rest

/-- A table under construction. -/
structure Building where
  origin : Origin
  entries : List (String × Toml)

/-- Changes the table at a path, whose missing tables are created.  With `dotted`, the path is
    part of a key and may not lead through opened tables. -/
def descend (dotted : Bool) (change : Building → Option Building) :
    List String → Building → Option Building
  | [], t => change t
  | key :: path, t => do
      let child ←
        match find? key t.entries with
        | none => do
            let u ← descend dotted change path ⟨if dotted then .dotted else .implied, []⟩
            some (.table u.origin u.entries)
        | some (.table origin entries) =>
            if origin = .closed ∨ (dotted ∧ origin = .opened) then none else
              let u ← descend dotted change path ⟨origin, entries⟩
              some (.table u.origin u.entries)
        | some (.tables items) =>
            match items.getLast? with
            | none => none
            | some last =>
                let u ← descend dotted change path ⟨.opened, last⟩
                some (.tables (items.dropLast ++ [u.entries]))
        | some _ => none
      return { t with entries := put key child t.entries }

/-- Gives a key of a table a value. -/
def assign (key : List String) (v : Toml) (t : Building) : Option Building :=
  match key.getLast? with
  | none => none
  | some last =>
      let path := key.dropLast
      descend true (fun u =>
        if (u.origin = .dotted) = (path = []) then none
        else if (find? last u.entries).isSome then none
        else some { u with entries := put last v u.entries }) path t

/-! ## Values -/

mutual

/-- Reads a value; `depth` bounds the nesting and `fuel` the length. -/
def parseValue : Nat → Nat → List Char → Option (Toml × List Char)
  | _, 0, _ => none
  | depth, fuel + 1, cs =>
      match cs with
      | '"' :: _ | '\'' :: _ => (parseString cs).map fun (s, rest) => (.string s, rest)
      | '[' :: rest =>
          match depth with
          | 0 => none
          | depth + 1 => parseItems depth fuel [] rest
      | '\x7b' :: rest =>
          match depth with
          | 0 => none
          | depth + 1 =>
              match skipBlanks rest with
              | '\x7d' :: rest => some (.table .closed [], rest)
              | rest => parseEntries depth fuel ⟨.opened, []⟩ rest
      | c :: _ =>
          if c = 't' then (afterWord? ['t', 'r', 'u', 'e'] cs).map fun rest => (.bool true, rest)
          else if c = 'f' then
            (afterWord? ['f', 'a', 'l', 's', 'e'] cs).map fun rest => (.bool false, rest)
          else parseNumber cs
      | [] => none

/-- Reads the items of an array through its closing bracket; `done` holds the items before,
    last first. -/
def parseItems : Nat → Nat → List Toml → List Char → Option (Toml × List Char)
  | _, 0, _, _ => none
  | depth, fuel + 1, done, cs =>
      match skipLines cs.length cs with
      | ']' :: rest => some (.array done.reverse, rest)
      | cs =>
          match parseValue depth fuel cs with
          | none => none
          | some (v, rest) =>
              match skipLines rest.length rest with
              | ',' :: rest => parseItems depth fuel (v :: done) rest
              | ']' :: rest => some (.array (v :: done).reverse, rest)
              | _ => none

/-- Reads the entries of a table between braces through the closing one. -/
def parseEntries : Nat → Nat → Building → List Char → Option (Toml × List Char)
  | _, 0, _, _ => none
  | depth, fuel + 1, t, cs => do
      let (key, rest) ← parseKey maxDepth cs
      let (v, rest) ← parseValue depth fuel (skipBlanks (← afterWord? ['='] rest))
      let t ← assign key v t
      match skipBlanks rest with
      | ',' :: rest => parseEntries depth fuel t rest
      | '\x7d' :: rest => some (.table .closed t.entries, rest)
      | _ => none

end

/-! ## Documents -/

/-- A document being read: the tables that are complete, and the one that keys go to. -/
structure Document where
  root : Building
  current : Building
  /-- The path of the header above; empty before the first one. -/
  path : List String
  /-- Whether the header adds to tables of the same name. -/
  isArray : Bool

namespace Document

/-- A document of which nothing is read. -/
def start : Document := ⟨⟨.opened, []⟩, ⟨.opened, []⟩, [], false⟩

/-- Puts the current table in its place. -/
def settle (d : Document) : Option Building :=
  match d.path.getLast? with
  | none => some d.current
  | some last =>
      descend false (fun parent =>
        match find? last parent.entries with
        | none =>
            let v := if d.isArray then Toml.tables [d.current.entries]
              else .table .opened d.current.entries
            some { parent with entries := put last v parent.entries }
        | some (.tables items) =>
            if d.isArray then
              some { parent with
                entries := put last (.tables (items ++ [d.current.entries])) parent.entries }
            else none
        | some _ => none) d.path.dropLast d.root

/-- What a header finds at its last key: an implied table to go on with, or nothing. -/
def reopened (parent : Building) (last : String) : Option (List (String × Toml)) :=
  match find? last parent.entries with
  | none => some []
  | some (.table .implied entries) => some entries
  | some _ => none

/-- The table at a path, as far as it exists. -/
def tableAt : List String → Building → Building
  | [], t => t
  | key :: path, t =>
      match find? key t.entries with
      | some (.table origin entries) => tableAt path ⟨origin, entries⟩
      | some (.tables items) => tableAt path ⟨.opened, items.getLast?.getD []⟩
      | _ => ⟨.implied, []⟩

def openTable (d : Document) (path : List String) : Option Document := do
  let root ← d.settle
  let last ← path.getLast?
  let entries ← reopened (tableAt path.dropLast root) last
  let root ← descend false (fun parent =>
    some { parent with entries := parent.entries.filter fun e => e.1 ≠ last }) path.dropLast root
  return ⟨root, ⟨.opened, entries⟩, path, false⟩

/-- Opens a further table of a name. -/
def openArray (d : Document) (path : List String) : Option Document := do
  let root ← d.settle
  let last ← path.getLast?
  let root ← descend false (fun parent =>
    match find? last parent.entries with
    | none => some parent
    | some (.tables _) => some parent
    | some _ => none) path.dropLast root
  return ⟨root, ⟨.opened, []⟩, path, true⟩

/-- Reads a line with a header, behind its first bracket. -/
def header (d : Document) (cs : List Char) : Option (Document × List Char) := do
  match cs with
  | '[' :: rest =>
      let (path, rest) ← parseKey maxDepth rest
      let rest ← endLine? (← afterWord? [']', ']'] rest)
      return (← d.openArray path, rest)
  | rest =>
      let (path, rest) ← parseKey maxDepth rest
      let rest ← endLine? (← afterWord? [']'] rest)
      return (← d.openTable path, rest)

/-- Reads a line with a key and its value. -/
def entry (d : Document) (cs : List Char) : Option (Document × List Char) := do
  let (key, rest) ← parseKey maxDepth cs
  let (v, rest) ← parseValue maxDepth (cs.length + 1) (skipBlanks (← afterWord? ['='] rest))
  return ({ d with current := ← assign key v d.current }, ← endLine? rest)

/-- Reads all lines; `fuel` bounds their number. -/
def lines : Nat → Document → List Char → Option Document
  | 0, _, _ => none
  | fuel + 1, d, cs =>
      match skipBlanks cs with
      | [] => some d
      | '#' :: rest => do lines fuel d (← endLine? ('#' :: rest))
      | '[' :: rest => do
          let (d, rest) ← d.header rest
          lines fuel d rest
      | cs =>
          match afterBreak? cs with
          | some rest => lines fuel d rest
          | none => do
              let (d, rest) ← d.entry cs
              lines fuel d rest

end Document

/-- Reads a document as its outermost table.  A byte order mark in front is left out. -/
def parse (text : String) : Option (List (String × Toml)) := do
  let cs := text.toList
  let cs := match cs with
    | c :: rest => if c.toNat = 0xFEFF then rest else c :: rest
    | [] => []
  let d ← Document.lines (cs.length + 1) .start cs
  return (← d.settle).entries

end Toml

end AvmSandbox
