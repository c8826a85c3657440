import Retarget.FileSystem.OsError
import Retarget.FileSystem.Tree

/-!
From a path to a place. Names are taken one after another; each must stand in a directory, and a link
met on the way puts the steps of its target in front of those still to take, at most forty times.
-/
namespace Retarget

/-- All entries, and the place of the working directory. Once that place is empty no relative path
leads anywhere. That a removed directory may still be left upwards, and that one made in its place
later is another, is left out. -/
structure FileSystem where
  root : Tree
  cwd : Place
deriving DecidableEq

inductive Step where
  | stay
  | up
  | into (name : Bytes)
deriving DecidableEq

/-- The longest name a directory takes. -/
def nameLimit : Nat := 255

/-- The length from which on a path is refused. -/
def pathLimit : Nat := 4096

/-- How many links one path may lead through. -/
def linkLimit : Nat := 40

namespace Path

def step? (piece : Bytes) : Option Step :=
  if piece = [] then none
  else if piece = dot then some .stay
  else if piece = dots then some .up
  else some (.into piece)

/-- The steps of a path as it is written, without regard to a slash at its end. -/
def openSteps (path : Path) : List Step := (path.bytes.splitOn slash).filterMap step?

def endsWithSlash (path : Path) : Bool := path.bytes.getLast? = some slash

/-- The steps of a path. A slash at the end asks for a directory. -/
def steps (path : Path) : List Step := path.openSteps ++ if path.endsWithSlash then [.stay] else []

def start (path : Path) (cwd : Place) : Place := if path.isAbsolute then [] else cwd

/-- What is wrong with a path whatever the file system holds. -/
def check (path : Path) : Except OsError Unit :=
  if 0 ∈ path.bytes then .error .zeroByteInPath
  else if path.bytes = [] then .error .notFound
  else if pathLimit ≤ path.bytes.length then .error .nameTooLong
  else .ok ()

def ofPlace (place : Place) : Path := ⟨slash :: [slash].intercalate place⟩

end Path

/-- How far steps lead without following a link. -/
inductive Progress where
  | arrived (place : Place)
  | vacant (directory : Place) (name : Bytes)
  | linked (directory : Place) (target : Path) (rest : List Step)
deriving DecidableEq

/-- Where a path leads: to a place, or to a name that a directory does not hold yet. -/
inductive Spot where
  | found (place : Place)
  | vacant (directory : Place) (name : Bytes)
deriving DecidableEq

namespace Tree

def advance (tree : Tree) (follow : Bool) : Place → List Step → Except OsError Progress
  | place, [] => .ok (.arrived place)
  | place, step :: rest =>
    match tree.at? place with
    | none => .error .notFound
    | some (.leaf _) => .error .notDirectory
    | some (.branch inner) =>
      match step with
      | .stay => advance tree follow place rest
      | .up => advance tree follow place.dropLast rest
      | .into name =>
        if nameLimit < name.length then .error .nameTooLong
        else match inner.find? name with
          | none => if rest = [] then .ok (.vacant place name) else .error .notFound
          | some (.leaf (.link target)) =>
            if rest = [] ∧ follow = false then .ok (.arrived (place ++ [name]))
            else .ok (.linked place target rest)
          | some _ => advance tree follow (place ++ [name]) rest

/-- Follows steps through at most `budget` links. -/
def reach (tree : Tree) (follow : Bool) (budget : Nat) (place : Place) (steps : List Step) : Except OsError Spot :=
  match tree.advance follow place steps with
  | .error cause => .error cause
  | .ok (.arrived place) => .ok (.found place)
  | .ok (.vacant directory name) => .ok (.vacant directory name)
  | .ok (.linked directory target rest) =>
    match budget with
    | 0 => .error .tooManyLinks
    | budget + 1 =>
      if target.bytes = [] then .error .notFound
      else tree.reach follow budget (target.start directory) (target.steps ++ rest)

end Tree

namespace FileSystem

def at? (files : FileSystem) (place : Place) : Option Node := files.root.at? place

def spot (files : FileSystem) (follow : Bool) (path : Path) (steps : List Step) : Except OsError Spot := do
  path.check
  files.root.reach follow linkLimit (path.start files.cwd) steps

/-- What is at a place that was reached. -/
def nodeAt (files : FileSystem) : Spot → Except OsError (Place × Node)
  | .vacant _ _ => .error .notFound
  | .found place =>
    match files.at? place with
    | none => .error .notFound
    | some node => .ok (place, node)

/-- What a path leads to, links followed. -/
def stat (files : FileSystem) (path : Path) : Except OsError (Place × Node) := do
  files.nodeAt (← files.spot true path path.steps)

/-- What a path leads to, a link at its very end not followed. -/
def lstat (files : FileSystem) (path : Path) : Except OsError (Place × Node) := do
  files.nodeAt (← files.spot false path path.steps)

def isPresent (files : FileSystem) (path : Path) : Bool := (files.stat path).isOk

def isDirectory (files : FileSystem) (path : Path) : Bool :=
  match files.stat path with
  | .ok (_, .branch _) => true
  | _ => false

/-- The one path without links, `.` and `..` that leads to the same place. -/
def canonical (files : FileSystem) (path : Path) : Except OsError Path := do
  let (place, _) ← files.stat path
  pure (Path.ofPlace place)

end FileSystem
end Retarget
