import AvmSandbox.Descriptor.Name

/-! # Signatures — the text form of a method

    A signature is a name, argument types between parentheses, and a return
    type: `add(uint64,uint64)uint128`.  The first four bytes of its digest are
    the selector that calls carry.  Reading a signature only splits the text;
    the type names in it are read later. -/

namespace AvmSandbox

/-- The return type of methods that return nothing. -/
def voidName : String := "void"

/-- The first four bytes of the digest of a signature. -/
def selectorOf (signature : String) : Bytes :=
  (Digest.sha512_256 (Bytes.ofText signature)).1.take 4

/-- A signature split into its parts. -/
structure Signature where
  name : String
  args : List String
  returns : String
  deriving DecidableEq, Repr

namespace Signature

def text (s : Signature) : String :=
  s.name ++ "(" ++ ",".intercalate s.args ++ ")" ++ s.returns

def selector (s : Signature) : Bytes := selectorOf s.text

/-- Whether the method returns nothing. -/
def isVoid (s : Signature) : Bool := s.returns == voidName

/-- Splits at the parenthesis that closes the first one.  `depth` parentheses are open and
    `done` holds the characters before, last first. -/
def splitClosing (depth : Nat) (done : List Char) : List Char → Option (List Char × List Char)
  | [] => none
  | c :: rest =>
      if c = ')' then
        if depth = 0 then some (done.reverse, rest)
        else splitClosing (depth - 1) (c :: done) rest
      else splitClosing (if c = '(' then depth + 1 else depth) (c :: done) rest

/-- Splits at the commas outside parentheses.  `depth` parentheses are open, `part` holds the
    current piece and `done` the pieces before, both last first. -/
def splitCommas (depth : Nat) (part : List Char) (done : List String) :
    List Char → List String
  | [] => (String.ofList part.reverse :: done).reverse
  | c :: rest =>
      if c = ',' ∧ depth = 0 then splitCommas depth [] (String.ofList part.reverse :: done) rest
      else
        let depth := if c = '(' then depth + 1 else if c = ')' then depth - 1 else depth
        splitCommas depth (c :: part) done rest

/-- Reads a signature. -/
def parse (text : String) : Result Signature :=
  let cs := text.toList
  let refuse (cause : SignatureError) : Result Signature := .error (.invalidSignature cause text)
  match cs.dropWhile (· ≠ '(') with
  | [] => refuse .noArguments
  | _ :: rest =>
      let name := cs.takeWhile (· ≠ '(')
      if name.isEmpty then refuse .noName else
        match splitClosing 0 [] rest with
        | none => refuse .unbalanced
        | some (args, returns) =>
            if returns.isEmpty then refuse .noReturn else
              .ok { name := String.ofList name
                    args := if args.isEmpty then [] else splitCommas 0 [] [] args
                    returns := String.ofList returns }

end Signature

end AvmSandbox
