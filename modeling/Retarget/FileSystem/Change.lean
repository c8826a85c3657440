import Retarget.FileSystem.Resolve

/-!
The operations that change a file system. Each either happens whole or fails and changes nothing,
except making a path with its ancestors and removing a whole tree, which give the state they reached.
-/
namespace Retarget.FileSystem

def put (files : FileSystem) (place : Place) (node : Node) : FileSystem :=
  { files with root := files.root.set place node }

def drop (files : FileSystem) (place : Place) : FileSystem :=
  { files with root := files.root.remove place }

/-- The directory in which the last step of a path is taken, what it holds, and that step. -/
def lastStep (files : FileSystem) (path : Path) : Except OsError (Place × Tree × Option Step) := do
  let spot ← files.spot true path (path.openSteps.dropLast ++ [.stay])
  match ← files.nodeAt spot with
  | (_, .leaf _) => .error .notDirectory
  | (place, .branch inner) => pure (place, inner, path.openSteps.getLast?)

/-- The entry of a directory under a name, if the name is not too long for any entry. -/
def entryNamed (inner : Tree) (name : Bytes) : Except OsError (Option Node) :=
  if nameLimit < name.length then .error .nameTooLong else .ok (inner.find? name)

/-- Makes an entry that is not there yet. -/
def create (files : FileSystem) (path : Path) (node : Node) : Except OsError FileSystem := do
  match ← files.lastStep path with
  | (place, inner, some (.into name)) =>
    match ← entryNamed inner name with
    | some _ => .error .alreadyExists
    | none => pure (files.put (place ++ [name]) node)
  | _ => .error .alreadyExists

def makeDirectory (files : FileSystem) (path : Path) : Except OsError FileSystem :=
  files.create path (.branch .empty)

/-- Takes an entry that is no directory out of its directory. -/
def unlink (files : FileSystem) (path : Path) : Except OsError FileSystem := do
  match ← files.lastStep path with
  | (place, inner, some (.into name)) =>
    match ← entryNamed inner name with
    | none => .error .notFound
    | some (.branch _) => .error .isDirectory
    | some (.leaf _) => if path.endsWithSlash then .error .notDirectory else pure (files.drop (place ++ [name]))
  | _ => .error .isDirectory

def removeDirectory (files : FileSystem) (path : Path) : Except OsError FileSystem := do
  match ← files.lastStep path with
  | (_, _, none) => .error .busy
  | (_, _, some .stay) => .error .invalidArgument
  | (_, _, some .up) => .error .notEmpty
  | (place, inner, some (.into name)) =>
    match ← entryNamed inner name with
    | none => .error .notFound
    | some (.branch .empty) => pure (files.drop (place ++ [name]))
    | some (.branch _) => .error .notEmpty
    | some (.leaf _) => .error .notDirectory

def read (files : FileSystem) (path : Path) : Except OsError Bytes := do
  match ← files.stat path with
  | (_, .leaf (.file contents)) => pure contents
  | (_, .leaf _) => pure []
  | (_, .branch _) => .error .isDirectory

/-- Gives a file new contents, and makes it when the path leads to a name that is free. -/
def write (files : FileSystem) (path : Path) (contents : Bytes) : Except OsError FileSystem := do
  match ← files.spot true path path.openSteps with
  | .vacant directory name =>
    if path.endsWithSlash then .error .isDirectory
    else pure (files.put (directory ++ [name]) (.leaf (.file contents)))
  | .found place =>
    match files.at? place with
    | some (.leaf (.file _)) =>
      if path.endsWithSlash then .error .isDirectory else pure (files.put place (.leaf (.file contents)))
    | some (.leaf _) => pure files
    | _ => .error .isDirectory

/-- Gives a new path to what is no directory. What had the path before is replaced, unless it is a directory. -/
def rename (files : FileSystem) (source target : Path) : Except OsError FileSystem := do
  if 0 ∈ source.bytes ∨ 0 ∈ target.bytes then .error .zeroByteInPath
  source.check
  target.check
  let (sourceDirectory, held, sourceStep) ← files.lastStep source
  let (targetDirectory, other, targetStep) ← files.lastStep target
  match sourceStep, targetStep with
  | some (.into sourceName), some (.into targetName) =>
    match ← entryNamed held sourceName with
    | none => .error .notFound
    | some node =>
      match node, ← entryNamed other targetName with
      | .branch _, _ => .error .isDirectory
      | .leaf _, replaced =>
        let place := sourceDirectory ++ [sourceName]
        let goal := targetDirectory ++ [targetName]
        if source.endsWithSlash ∨ target.endsWithSlash then .error .notDirectory
        else if place = goal then pure files
        else match replaced with
          | some (.branch _) => .error .isDirectory
          | _ => pure ((files.drop place).put goal node)
  | _, _ => .error .busy

/-- The paths of a chain of ancestors, deepest first, that are missing below the first that is there or can be made. -/
def missing (files : FileSystem) : List Path → List Path → Except OsError (List Path × FileSystem)
  | [], absent => .ok (absent, files)
  | path :: above, absent =>
    if path.bytes = [] ∨ path.parent? = none then .ok (absent, files)
    else match files.makeDirectory path with
      | .ok files => .ok (absent, files)
      | .error .notFound => files.missing above (path :: absent)
      | .error cause =>
        if cause = .alreadyExists ∧ files.isDirectory path then .ok (absent, files) else .error cause

def makeAll : List Path → FileSystem → Except OsError Unit × FileSystem
  | [], files => (.ok (), files)
  | path :: below, files =>
    match files.makeDirectory path with
    | .ok files => makeAll below files
    | .error cause =>
      if cause = .alreadyExists ∧ files.isDirectory path then makeAll below files else (.error cause, files)

/-- Makes a directory and its missing ancestors. A directory that is there already will do. -/
def makeDirectories (files : FileSystem) (path : Path) : Except OsError Unit × FileSystem :=
  if path.components = [] then (.ok (), files)
  else match files.missing path.ancestors [] with
    | .error cause => (.error cause, files)
    | .ok (absent, files) => makeAll absent files

/-- Removes a directory with all it holds, or a link to one alone. It is emptied before it is taken out
itself, so a path that names it but cannot be taken out leaves it empty. -/
def removeTree (files : FileSystem) (path : Path) : Except OsError Unit × FileSystem :=
  match files.lstat path with
  | .error cause => (.error cause, files)
  | .ok (place, .leaf (.link _)) => (.ok (), files.drop place)
  | .ok (_, .leaf _) => (.error .notDirectory, files)
  | .ok (place, .branch _) =>
    let emptied := { files with root := files.root.modify (fun _ => .empty) place }
    match emptied.removeDirectory path with
    | .ok files => (.ok (), files)
    | .error .notFound => (.ok (), emptied)
    | .error cause => (.error cause, emptied)

end Retarget.FileSystem
