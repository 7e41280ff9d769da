import AvmSandbox.Encoded

/-! # Call logs — what one application call emits

    A call emits log entries and at most one return value.  The return value is
    logged last, behind its marker; once it is set, no entry may follow.  The
    number of entries and their bytes are bounded, the return value included. -/

namespace AvmSandbox

structure CallLog where
  /-- The entries before the return value, oldest first. -/
  plain : List Bytes := []
  returned : Option EncodedValue := none

namespace CallLog

/-- Every entry; that of the return value is the last. -/
def entries (log : CallLog) : List Bytes :=
  match log.returned with
  | some e => log.plain ++ [e.log]
  | none => log.plain

/-- The number of entries. -/
def count (log : CallLog) : Nat := log.plain.length + if log.returned.isSome then 1 else 0

/-- The newest entry. -/
def last? (log : CallLog) : Option Bytes :=
  match log.returned with
  | some e => some e.log
  | none => log.plain.getLast?

def size (entries : List Bytes) : Nat := entries.flatten.length

/-- Refuses too many entries, then too many bytes. -/
def checkLimits (count bytes : Nat) : Result Unit :=
  if count > Limits.logEntries then .error .tooManyLogs
  else if bytes > Limits.logBytes then .error (.logsTooLarge bytes)
  else .ok ()

/-- Adds an entry before any return value. -/
def append (log : CallLog) (entry : Bytes) : Result CallLog := do
  if log.returned.isSome then throw .logAfterReturn
  checkLimits (log.plain.length + 1) (size log.plain + entry.length)
  return { log with plain := log.plain ++ [entry] }

/-- Sets the return value, in place of any earlier one. -/
def setReturn (log : CallLog) (e : EncodedValue) : Result CallLog := do
  checkLimits (log.plain.length + 1) (size log.plain + e.log.length)
  return { log with returned := some e }

/-- Replaces the whole log; no return value remains. -/
def replace (entries : List Bytes) : Result CallLog := do
  checkLimits entries.length (size entries)
  return { plain := entries }

end CallLog

end AvmSandbox
