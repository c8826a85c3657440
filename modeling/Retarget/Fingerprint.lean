import Retarget.FileSystem.Path
import Retarget.Hash.Blake3

/-!
The fingerprint of a tree: one hash over its regular files in walk order. Each file gives its key, a zero
byte and the digest of its contents, so a new name shows as new contents do.
-/
namespace Retarget

/-- What a file gives to the fingerprint. -/
structure Mark where
  key : String
  digest : Digest
deriving DecidableEq

namespace Mark

def bytes (mark : Mark) : Bytes := utf8 mark.key ++ 0 :: mark.digest.bytes

/-- The bytes that are hashed for a tree. -/
def stream (marks : List Mark) : Bytes := marks.flatMap bytes

end Mark

def Component.text : Component → String
  | .root => "/"
  | .here => "."
  | .up => ".."
  | .name bytes => lossyText bytes

/-- A relative path with its components as text, slashes between. -/
def Path.key (path : Path) : String := String.intercalate "/" (path.components.map Component.text)

structure Fingerprint where
  hash : Digest
  files : Nat
deriving DecidableEq

namespace Fingerprint

def ofMarks (marks : List Mark) : Fingerprint := ⟨Blake3.hash (Mark.stream marks), marks.length⟩

def text (fingerprint : Fingerprint) : String :=
  fingerprint.hash.short ++ " (" ++ toString fingerprint.files ++ " files)"

end Fingerprint
end Retarget
