import Retarget.Text.Utf8

/-!
A digest is 32 bytes, written as 64 hexadecimal digits, or as its first 16 where it only has to be told apart by eye.
-/
namespace Retarget

abbrev Digest := Vector UInt8 32

def hexDigit (value : UInt8) : Char := "0123456789abcdef".toList.getD value.toNat '0'

def hexText (bytes : Bytes) : String :=
  String.ofList (bytes.flatMap fun byte => [hexDigit (byte / 16), hexDigit (byte % 16)])

namespace Digest

def bytes (digest : Digest) : Bytes := digest.toList

theorem length_bytes (digest : Digest) : digest.bytes.length = 32 := by simp [bytes]

theorem bytes_injective {first second : Digest} (same : first.bytes = second.bytes) : first = second :=
  Vector.toList_inj.1 same

def text (digest : Digest) : String := hexText digest.bytes

def short (digest : Digest) : String := hexText (digest.bytes.take 8)

end Digest
end Retarget
