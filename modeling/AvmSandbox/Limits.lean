/-! # Limits — the protocol's fixed sizes

    Every bound the virtual machine puts on lengths and counts.  They are
    constants of the protocol and never configurable. -/

namespace AvmSandbox.Limits

/-- Longest byte string on the stack. -/
def byteString : Nat := 4096

/-- Largest box. -/
def box : Nat := 32768

/-- Log bytes one application call may emit. -/
def logBytes : Nat := 1024

/-- Log entries one application call may emit. -/
def logEntries : Nat := 32

/-- Transactions in a group, top-level or inner. -/
def group : Nat := 16

/-- Application arguments of one call, the selector included. -/
def appArgs : Nat := 16

/-- Scratch slots of one transaction. -/
def scratchSlots : Nat := 256

/-- Widest unsigned integer, in bits. -/
def uintBits : Nat := 512

/-- Most decimal places of a fixed-point number. -/
def precision : Nat := 160

/-- Largest number a two-byte length or offset can hold. -/
def twoByte : Nat := 65535

/-- Largest number a single byte can hold. -/
def oneByte : Nat := 255

/-- Lengths of types are below this bound. -/
def length : Nat := Nat.pow 2 64

end AvmSandbox.Limits
