import AvmSandbox.Fault

/-! # Addresses from outside — checked reading

    Addresses come as hexadecimal text, with any number of `0x` marks in
    front, or as raw bytes.  Both have to be exactly 32 bytes long. -/

namespace AvmSandbox.Address

def ofBytes (bytes : Bytes) : Result Address :=
  match ofBytes? bytes with
  | some a => .ok a
  | none => .error (.malformed "address" (.wrongSize 32 bytes.length))

/-- Leaves out all `0x` marks in front of hexadecimal text. -/
def skipMarks : Bytes → Bytes
  | 0x30 :: 0x78 :: codes => skipMarks codes
  | codes => codes

/-- Reads hexadecimal text. -/
def ofHex (text : String) : Result Address :=
  match Bytes.parseHex (skipMarks (Bytes.ofText text)) with
  | .ok bytes => ofBytes bytes
  | .error e => .error (.malformed "address" (.hex e))

/-- Raw bytes of an address read back as that address. -/
theorem ofBytes_bytes (a : Address) : ofBytes a.bytes = .ok a := by
  simp [ofBytes, ofBytes?_bytes]

end AvmSandbox.Address
