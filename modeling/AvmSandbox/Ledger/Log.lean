import AvmSandbox.Encoded

/-! # Log entries — reading what applications have logged -/

namespace AvmSandbox

/-- How a log entry is to be read. -/
inductive LogKind where
  | uint64
  | string
  | bytes
  /-- An encoded value, marked as a return value or bare. -/
  | typed (type : Descriptor)

/-- A log entry that has been read. -/
inductive LogValue where
  | uint64 (n : UInt64)
  | string (s : String)
  | bytes (b : Bytes)
  | typed (e : EncodedValue)

namespace LogKind

def read (kind : LogKind) (entry : Bytes) : Result LogValue :=
  match kind with
  | uint64 =>
      if entry.length = 8 then .ok (.uint64 (UInt64.ofNat entry.toNat))
      else .error (.malformed "uint64 log" (.wrongSize 8 entry.length))
  | string =>
      match entry.text? with
      | some s => .ok (.string s)
      | none => .error (.malformed "string log" .text)
  | bytes => .ok (.bytes entry)
  | typed type => do
      let framing := if entry.take 4 = returnMarker then Framing.logged else Framing.bare
      return .typed (← EncodedValue.decode framing type entry)

end LogKind

/-- Reads log entries in order.  The last kind stands for all further entries; without kinds
    the entries are bytes. -/
def readLogs : List LogKind → List Bytes → Result (List LogValue)
  | _, [] => .ok []
  | [], entry :: entries => do
      let v ← LogKind.bytes.read entry
      return v :: (← readLogs [] entries)
  | [kind], entry :: entries => do
      let v ← kind.read entry
      return v :: (← readLogs [kind] entries)
  | kind :: next :: kinds, entry :: entries => do
      let v ← kind.read entry
      return v :: (← readLogs (next :: kinds) entries)

end AvmSandbox
