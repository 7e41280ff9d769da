import AvmSandbox.Digest

/-! # Addresses — 32-byte account keys

    An account is named by its raw public key.  Applications own an account
    too: its key is the digest of the application's id. -/

namespace AvmSandbox

/-- An account's public key. -/
structure Address where
  /-- The raw key. -/
  key : Bytes32
  deriving DecidableEq

namespace Address

/-- The key of 32 zero bytes, which stands for "no account". -/
def zero : Address := ⟨Bytes32.zero⟩

instance : Inhabited Address := ⟨zero⟩

/-- The raw bytes of the key. -/
def bytes (a : Address) : Bytes := a.key.1

@[simp] theorem length_bytes (a : Address) : a.bytes.length = 32 := a.key.2

/-- Lower-case hexadecimal form. -/
def hex (a : Address) : String := a.bytes.hex

/-- Addresses are ordered by their bytes. -/
instance : LT Address := ⟨fun a b => a.bytes < b.bytes⟩

instance : DecidableLT Address := fun a b => inferInstanceAs (Decidable (a.bytes < b.bytes))

/-- The address with the given bytes, if there are 32 of them. -/
def ofBytes? (bytes : Bytes) : Option Address := (Bytes32.ofBytes? bytes).map Address.mk

theorem ofBytes?_bytes (a : Address) : ofBytes? a.bytes = some a := by
  obtain ⟨⟨bs, h⟩⟩ := a
  simp [ofBytes?, Bytes32.ofBytes?, bytes, h]

/-- The account an application owns: the digest of a fixed tag and its id. -/
def ofApplication (id : UInt64) : Address :=
  ⟨Digest.sha512_256 (Bytes.ofText "appID" ++ Bytes.ofUInt64 id)⟩

end Address

end AvmSandbox
