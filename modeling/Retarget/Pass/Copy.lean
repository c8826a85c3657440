import Retarget.FileSystem.Forecast
import Retarget.Session

/-!
The copying pass. It clears the way for the copy and then goes through the source, links followed, in the
order of names. A directory is listed before its copy is made, so a copy that lies on the way of a link
is not met in the middle of its own making. A link back to a directory on the way down is refused.
-/
namespace Retarget.Pass

open Act

/-- A directory on the way down, with the place it was found at. -/
structure Ancestor where
  path : Path
  place : Place

def forecast (path : Path) : Act Failure Path :=
  examine fun files => (files.forecast path).mapError fun (present, cause) => .refused present cause

/-- Takes away what stands where the copy will be. -/
def clear (target : Path) : Act Failure Unit := do
  if ← look (·.isDirectory target) then
    note (.removing target)
    changePartly target (·.removeTree target)
  else if ← look (·.isPresent target) then
    change target (·.unlink target)

/-- What an entry is, a link standing for what it leads to. -/
def followed (files : FileSystem) (above : List Ancestor) (path : Path) (listed : Entry) : Except WalkError Entry :=
  match listed with
  | .leaf (.link _) =>
    match files.stat path with
    | .error cause => .error (.refused path cause)
    | .ok (_, .leaf content) => .ok (.leaf content)
    | .ok (place, .branch _) =>
      match above.find? fun ancestor => ancestor.place = place with
      | some ancestor => .error (.loop ancestor.path path)
      | none => .ok .directory
  | entry => .ok entry

/-- Where a directory is, and its entries in the order of their names. -/
def opened (files : FileSystem) (path : Path) : Except OsError (Place × List (Bytes × Entry)) := do
  match ← files.stat path with
  | (_, .leaf _) => .error .notDirectory
  | (place, .branch inner) => pure (place, inner.listing.map fun (name, node) => (name, node.entry))

def copyFile (path target relative : Path) : Act Failure Unit := do
  let contents ← examine fun files => (files.read path).mapError (.refused target)
  change target (·.write target contents)
  note (.copied relative)

/-- Copies what is below a path and gives the number of files. Paths grow on the way down, so `depth`
reaches zero only where a path is too long already. -/
def copyFrom (source target : Path) : (depth : Nat) → List Ancestor → Path → Entry → Act Failure Nat
  | 0, _, path, _ => throw (.walk (.refused path .nameTooLong))
  | depth + 1, above, path, listed => do
    let relative := path.relativeTo source
    let copy := target.join relative
    match ← examine fun files => (followed files above path listed).mapError .walk with
    | .directory =>
      let listing ← look (opened · path)
      changePartly copy (·.makeDirectories copy)
      let (place, entries) ← ofExcept (listing.mapError fun cause => .walk (.refused path cause))
      entries.foldlM (fun count (name, entry) => do
        let more ← copyFrom source target depth (⟨path, place⟩ :: above) (path.joinName name) entry
        pure (count + more)) 0
    | .leaf (.file _) =>
      copyFile path copy relative
      pure 1
    | .leaf _ => pure 0

/-- Copies a tree in place of what was there before and gives the number of files. -/
def copyTree (source target : Path) : Act Failure Nat := do
  if !(← look (·.isDirectory source)) then throw (.sourceMissing source)
  let sourcePlace ← forecast source
  let targetPlace ← forecast target
  if FileSystem.overlapping sourcePlace targetPlace then throw (.overlap source target)
  clear target
  note (.copying source target)
  let (_, top) ← examine fun files => (files.lstat source).mapError fun cause => .walk (.refused source cause)
  copyFrom source target pathLimit [] source top.entry

end Retarget.Pass
