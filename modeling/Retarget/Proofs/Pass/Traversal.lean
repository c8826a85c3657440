import Retarget.Proofs.Fingerprint.Framing
import Retarget.Proofs.Pass.Checking
import Retarget.Proofs.Pass.Inventory

/-!
What a walk from a directory yields. It goes through all regular files below in the order of their
places, compared name by name, and does so whatever the order in which they were made. If the path
to a directory below is too long to be opened, the walk breaks off at the first such directory, with
exactly the files before it.
-/
namespace Retarget

/-! ## Walks that break off -/

/-- The regular files on a walk, until it is over or breaks off. -/
def yielded : List (Except WalkError Found) → List Found
  | .ok found :: rest => if found.isFile then found :: yielded rest else yielded rest
  | _ => []

/-- What a walk breaks off with. -/
def breakOff? : List (Except WalkError Found) → Option WalkError
  | [] => none
  | .ok _ :: rest => breakOff? rest
  | .error error :: _ => some error

/-- What a walk has led to, unless it breaks off. -/
def orBroken {α : Type} (walk : List (Except WalkError Found)) (value : α) : Except Failure α :=
  match breakOff? walk with
  | none => .ok value
  | some error => .error (.walk error)

theorem yielded_map (listed : List Found) (rest : List (Except WalkError Found)) :
    yielded (listed.map .ok ++ rest) = listed.filter Found.isFile ++ yielded rest := by
  induction listed with
  | nil => simp
  | cons found more ih =>
    rw [List.map_cons, List.cons_append, yielded, ih]
    cases file : found.isFile with
    | true => simp [file]
    | false => simp [file]

theorem breakOff?_map (listed : List Found) (rest : List (Except WalkError Found)) :
    breakOff? (listed.map .ok ++ rest) = breakOff? rest := by
  induction listed with
  | nil => simp
  | cons found more ih => rw [List.map_cons, List.cons_append, breakOff?, ih]

namespace FileSystem

theorem unbroken_filter (walk : List (Except WalkError Found)) :
    ((unbroken walk).map fun found => found.filter Found.isFile) =
      orBroken walk (yielded walk) := by
  induction walk with
  | nil => rfl
  | cons item rest ih =>
    cases item with
    | error error => rfl
    | ok found =>
      have onward : (unbroken (.ok found :: rest)).map (fun found => found.filter Found.isFile) =
          ((unbroken rest).map fun found => found.filter Found.isFile).map fun others =>
            if found.isFile then found :: others else others := by
        rw [unbroken]
        cases unbroken rest with
        | error failure => rfl
        | ok listed => simp only [Except.map, List.filter_cons]
      rw [onward, ih, orBroken, orBroken, breakOff?, yielded]
      cases breakOff? rest with
      | none => rfl
      | some error => rfl

variable {files other : FileSystem} {directory : Path} {place elsewhere : Place}

/-- A listing of files gives what the walk yields. -/
theorem Opens.filesBelow_eq (opens : files.Opens directory place) :
    files.filesBelow directory =
      orBroken (files.walk directory) (yielded (files.walk directory)) := by
  rw [filesBelow, if_pos (isDirectory_iff.2 ⟨place, opens⟩), unbroken_filter]

/-- Marks are taken of the files that the walk yields, one after the other. -/
theorem marks_eq_yielded (files : FileSystem) (top : Path) :
    files.marks top =
      (yielded (files.walk top)).mapM (fun found => files.mark top found.path) >>=
        orBroken (files.walk top) := by
  unfold marks
  induction files.walk top with
  | nil => rfl
  | cons item rest ih =>
    cases item with
    | error error => rfl
    | ok found =>
      have onward {α : Type} (value : α) :
          orBroken (.ok found :: rest) value = orBroken rest value := rfl
      rw [marksOn, yielded]
      cases found.isFile with
      | false => exact ih
      | true =>
        simp only [if_true, ih, List.mapM_cons, bind_assoc, pure_bind, onward]
        cases files.mark top found.path with
        | error failure => rfl
        | ok first =>
          cases (yielded rest).mapM fun found => files.mark top found.path with
          | error failure => rfl
          | ok others =>
            simp only [bind, Except.bind, orBroken]
            cases breakOff? rest with
            | none => rfl
            | some error => rfl

end FileSystem

/-! ## The first directory that cannot be opened -/

namespace Tree

/-- A visit to a place, as it shows on a walk. -/
def foundFrom (top : Path) (visit : Place × Entry) : Found :=
  ⟨top.descend visit.1, visit.1, visit.2⟩

/-- A directory whose path is too long. -/
def Closed (top : Path) (visit : Place × Entry) : Prop :=
  visit.2 = .directory ∧ (top.descend visit.1).opens = false

instance (top : Path) (visit : Place × Entry) : Decidable (Closed top visit) :=
  inferInstanceAs (Decidable (_ ∧ _))

/-- What a visit adds to a walk. -/
def visitFrom (top : Path) (visit : Place × Entry) : List (Except WalkError Found) :=
  if Closed top visit then
    [.ok (foundFrom top visit), .error (.refused (top.descend visit.1) .nameTooLong)]
  else [.ok (foundFrom top visit)]

variable {tree : Tree} {top : Path} {visits front back : List (Place × Entry)} {below : Place}

theorem walkFrom_eq (tree : Tree) (top : Path) :
    tree.walkFrom top = tree.walk.flatMap (visitFrom top) := rfl

theorem flatMap_visitFrom (open' : ∀ visit ∈ visits, ¬Closed top visit) :
    visits.flatMap (visitFrom top) = (visits.map (foundFrom top)).map .ok := by
  induction visits with
  | nil => rfl
  | cons visit rest ih =>
    rw [List.forall_mem_cons] at open'
    rw [List.flatMap_cons, visitFrom, if_neg open'.1, ih open'.2]
    rfl

/-- Without a directory that cannot be opened, a walk goes everywhere. -/
theorem walkFrom_whole (open' : ∀ visit ∈ tree.walk, ¬Closed top visit) :
    breakOff? (tree.walkFrom top) = none ∧
      yielded (tree.walkFrom top) = (tree.walk.map (foundFrom top)).filter Found.isFile := by
  rw [walkFrom_eq, flatMap_visitFrom open']
  constructor
  · simpa [breakOff?] using breakOff?_map (tree.walk.map (foundFrom top)) []
  · simpa [yielded] using yielded_map (tree.walk.map (foundFrom top)) []

/-- A walk goes as far as the first directory that cannot be opened. -/
theorem walkFrom_broken (whole : tree.walk = front ++ (below, .directory) :: back)
    (open' : ∀ visit ∈ front, ¬Closed top visit)
    (closed : Closed top (below, .directory)) :
    breakOff? (tree.walkFrom top) = some (.refused (top.descend below) .nameTooLong) ∧
      yielded (tree.walkFrom top) = (front.map (foundFrom top)).filter Found.isFile := by
  rw [walkFrom_eq, whole, List.flatMap_append, flatMap_visitFrom open', List.flatMap_cons,
    visitFrom, if_pos closed]
  constructor
  · rw [breakOff?_map]
    rfl
  · rw [yielded_map]
    exact List.append_nil _

/-- The regular files below a directory, in the order of a walk. -/
def register (tree : Tree) : List StoredFile := tree.regulars.map fun file => ⟨file.1, file.2⟩

theorem map_foundFrom_filter (visits : List (Place × Entry)) :
    (visits.map (foundFrom top)).filter Found.isFile =
      ((visits.filterMap regular?).map fun file => StoredFile.mk file.1 file.2).map
        (StoredFile.found top) := by
  rw [List.map_map]
  exact FileSystem.filter_isFile top visits

/-- The files before a place on a walk are those whose places are smaller. -/
theorem register_filter (wellFormed : tree.WellFormed)
    (whole : tree.walk = front ++ (below, .directory) :: back) :
    tree.register.filter (fun file => file.place < below) =
      (front.filterMap regular?).map fun file => StoredFile.mk file.1 file.2 := by
  obtain ⟨before, behind⟩ := walk_around wellFormed whole
  have split : tree.regulars = front.filterMap regular? ++ back.filterMap regular? := by
    rw [regulars, whole, List.filterMap_append, List.filterMap_cons_none rfl]
  rw [register, split, List.map_append, List.filter_append]
  have origin {visits : List (Place × Entry)} {file : StoredFile}
      (member : file ∈ (visits.filterMap regular?).map fun file => StoredFile.mk file.1 file.2) :
      ∃ visit ∈ visits, visit.1 = file.place := by
    obtain ⟨regular, inside, rfl⟩ := List.mem_map.1 member
    obtain ⟨visit, visited, met⟩ := List.mem_filterMap.1 inside
    exact ⟨visit, visited, congrArg Prod.fst (regular?_eq_some.1 met)⟩
  have kept : ((front.filterMap regular?).map fun file => StoredFile.mk file.1 file.2).filter
      (fun file => file.place < below) =
        (front.filterMap regular?).map fun file => StoredFile.mk file.1 file.2 := by
    refine List.filter_eq_self.2 fun file member => ?_
    obtain ⟨visit, visited, same⟩ := origin member
    exact decide_eq_true (same ▸ before visit visited)
  have dropped : ((back.filterMap regular?).map fun file => StoredFile.mk file.1 file.2).filter
      (fun file => file.place < below) = [] := by
    refine List.filter_eq_nil_iff.2 fun file member less => ?_
    obtain ⟨visit, visited, same⟩ := origin member
    exact List.lt_asymm (same ▸ behind visit visited) (of_decide_eq_true less)
  rw [kept, dropped, List.append_nil]

end Tree

namespace FileSystem

variable {files other : FileSystem} {directory : Path} {place elsewhere : Place} {inner : Tree}

/-- All regular files below a directory, each once, in the order of their places. -/
structure Register (files : FileSystem) (place : Place) (register : List StoredFile) : Prop where
  held : ∀ file, file ∈ register ↔
    files.root.entry? (place ++ file.place) = some (.leaf (.file file.contents))
  ascending : (register.map StoredFile.place).Pairwise (· < ·)

/-- A directory below whose path is too long, and no other before it. -/
structure FirstClosed (files : FileSystem) (directory : Path) (place below : Place) : Prop where
  stands : files.root.entry? (place ++ below) = some .directory
  closed : (directory.descend below).opens = false
  before : ∀ earlier < below, files.root.entry? (place ++ earlier) = some .directory →
    (directory.descend earlier).opens = true

theorem register_of (wellFormed : files.root.WellFormed)
    (held : files.root.at? place = some (.branch inner)) :
    files.Register place inner.register := by
  have formed : inner.WellFormed := (wellFormed.at? held).2
  constructor
  · intro file
    rw [Tree.entry?_append_branch held]
    have regular : (file.place, file.contents) ∈ inner.regulars ↔
        inner.entry? file.place = some (.leaf (.file file.contents)) := Tree.mem_regulars formed
    rw [← regular, Tree.register, List.mem_map]
    constructor
    · intro ⟨_, member, same⟩
      exact same ▸ member
    · exact fun member => ⟨_, member, rfl⟩
  · simpa [Tree.register, Function.comp_def] using Tree.regulars_ascending formed

/-- From a directory, through a link or not, a walk yields what stands below it. -/
theorem Opens.walk_yields (opens : files.Opens directory place)
    (held : files.root.at? place = some (.branch inner)) :
    breakOff? (files.walk directory) = breakOff? (inner.walkFrom directory) ∧
      yielded (files.walk directory) = yielded (inner.walkFrom directory) := by
  obtain ⟨top, notFile, walked⟩ := opens.walk_eq held
  rw [walked]
  exact ⟨rfl, if_neg (by simp [notFile])⟩

/-- A walk yields all files in their order, or breaks off at the first directory that cannot be
opened and has yielded the files before it. -/
theorem Opens.walk_ends (wellFormed : files.root.WellFormed) (opens : files.Opens directory place)
    (held : files.root.at? place = some (.branch inner)) :
    ((∀ below, files.root.entry? (place ++ below) = some .directory →
        (directory.descend below).opens = true) ∧
      breakOff? (files.walk directory) = none ∧
      yielded (files.walk directory) = inner.register.map (StoredFile.found directory)) ∨
    ∃ below, files.FirstClosed directory place below ∧
      breakOff? (files.walk directory) =
        some (.refused (directory.descend below) .nameTooLong) ∧
      yielded (files.walk directory) =
        (inner.register.filter (fun file => file.place < below)).map
          (StoredFile.found directory) := by
  have formed : inner.WellFormed := (wellFormed.at? held).2
  have below_iff {below : Place} {entry : Entry} (apart : below ≠ []) :
      files.root.entry? (place ++ below) = some entry ↔ (below, entry) ∈ inner.walk := by
    rw [Tree.entry?_append_branch held, Tree.mem_walk formed, and_iff_right apart]
  have top : (directory.descend []).opens = true :=
    decide_eq_true (Path.check_eq_ok_iff.1 opens.accepted).2.2
  obtain ⟨breaks, yields⟩ := opens.walk_yields held
  rw [breaks, yields]
  cases first : inner.walk.find? (fun visit => Tree.Closed directory visit) with
  | none =>
    have open' : ∀ visit ∈ inner.walk, ¬Tree.Closed directory visit := by
      simpa using List.find?_eq_none.1 first
    obtain ⟨ends, all⟩ := Tree.walkFrom_whole open'
    rw [Tree.map_foundFrom_filter] at all
    refine .inl ⟨fun below stands => ?_, ends, all⟩
    by_cases apart : below = []
    · exact apart ▸ top
    · have visited := (below_iff apart).1 stands
      simpa [Tree.Closed] using open' _ visited
  | some visit =>
    obtain ⟨met, front, back, whole, open'⟩ := List.find?_eq_some_iff_append.1 first
    have closed : Tree.Closed directory visit := of_decide_eq_true met
    obtain ⟨below, entry⟩ := visit
    obtain rfl : entry = .directory := closed.1
    have notClosed : ∀ visit ∈ front, ¬Tree.Closed directory visit := by simpa using open'
    obtain ⟨ends, all⟩ := Tree.walkFrom_broken whole notClosed closed
    rw [Tree.map_foundFrom_filter, ← Tree.register_filter formed whole] at all
    refine .inr ⟨below, ⟨?_, closed.2, fun earlier less stands => ?_⟩, ends, all⟩
    · have apart : below ≠ [] := by
        intro none
        have shut := closed.2
        rw [none, top] at shut
        cases shut
      exact (below_iff apart).2 (by simp [whole])
    · by_cases apart : earlier = []
      · exact apart ▸ top
      · have visited := (below_iff apart).1 stands
        rw [whole, List.mem_append, List.mem_cons] at visited
        rcases visited with inFront | here | behind
        · simpa [Tree.Closed] using notClosed _ inFront
        · rw [(Prod.mk.inj here).1] at less
          exact absurd less (List.lt_irrefl _)
        · exact absurd less (List.lt_asymm ((Tree.walk_around formed whole).2 _ behind))

/-- A walk yields every regular file below a directory, each once, in ascending order of the paths
from there, which are compared name by name; links are neither yielded nor followed. It breaks off
only at the first directory whose path is too long to be opened, with the files before it. Listings
give what it yields, marks are taken of what it yields, one file after the other, and the order in
which the entries were made has no part in it. -/
theorem Opens.yields_in_order (wellFormed : files.root.WellFormed)
    (opens : files.Opens directory place) :
    ∃ register, files.Register place register ∧
      (∀ file ∈ register, ((file.found directory).path.relativeTo directory).components =
        file.place.map .name) ∧
      (((∀ below, files.root.entry? (place ++ below) = some .directory →
            (directory.descend below).opens = true) ∧
          yielded (files.walk directory) = register.map (StoredFile.found directory) ∧
          files.filesBelow directory = .ok (register.map (StoredFile.found directory))) ∨
        ∃ below, files.FirstClosed directory place below ∧
          yielded (files.walk directory) =
            (register.filter (fun file => file.place < below)).map (StoredFile.found directory) ∧
          files.filesBelow directory =
            .error (.walk (.refused (directory.descend below) .nameTooLong))) ∧
      files.marks directory =
        ((yielded (files.walk directory)).mapM (fun found => files.mark directory found.path) >>=
          orBroken (files.walk directory)) ∧
      (∀ marks, files.marks directory = .ok marks →
        marks = register.map fun file => Tree.markOf (file.place, file.contents)) ∧
      ∀ (other : FileSystem) (elsewhere : Place), other.root.WellFormed →
        other.Opens directory elsewhere →
        (∀ below, other.root.entry? (elsewhere ++ below) = files.root.entry? (place ++ below)) →
        yielded (other.walk directory) = yielded (files.walk directory) ∧
          other.filesBelow directory = files.filesBelow directory ∧
          other.fingerprint directory = files.fingerprint directory := by
  obtain ⟨inner, held⟩ := Tree.entry?_eq_directory.1 opens.directory
  have whole := register_of wellFormed held
  refine ⟨inner.register, whole, ?_, ?_, marks_eq_yielded files directory, ?_, ?_⟩
  · intro file member
    have legal : ∀ name ∈ file.place, Tree.Legal name := fun name inside =>
      wellFormed.legal ((whole.held file).1 member) name (List.mem_append_right _ inside)
    have written : directory.bytes ≠ [] := (Path.check_eq_ok_iff.1 opens.accepted).2.1
    rw [StoredFile.found, Path.relativeTo_descend written legal, Path.components_place legal]
  · rw [opens.filesBelow_eq, orBroken]
    rcases opens.walk_ends wellFormed held with
      ⟨open', ends, yields⟩ | ⟨below, first, breaks, yields⟩
    · rw [ends, yields]
      exact .inl ⟨open', rfl, rfl⟩
    · rw [breaks, yields]
      exact .inr ⟨below, first, rfl, rfl⟩
  · intro marks marked
    rw [opens.marks_eq wellFormed held marked, Tree.marks, Tree.register, List.map_map]
    rfl
  · intro other elsewhere otherFormed otherOpens same
    obtain ⟨tree, there⟩ := Tree.entry?_eq_directory.1 otherOpens.directory
    have walks : tree.walk = inner.walk := by
      apply Tree.walk_congr (otherFormed.at? there).2 (wellFormed.at? held).2
      intro below
      rw [← Tree.entry?_append_branch there, ← Tree.entry?_append_branch held, same]
    have onward : tree.walkFrom directory = inner.walkFrom directory := by
      rw [Tree.walkFrom, Tree.walkFrom, walks]
    obtain ⟨breaks, yields⟩ := opens.walk_yields held
    obtain ⟨otherBreaks, otherYields⟩ := otherOpens.walk_yields there
    have alike : yielded (other.walk directory) = yielded (files.walk directory) := by
      rw [otherYields, yields, onward]
    refine ⟨alike, ?_, fingerprint_congr wellFormed otherFormed opens otherOpens same⟩
    rw [otherOpens.filesBelow_eq, opens.filesBelow_eq, orBroken, orBroken, otherBreaks, breaks,
      onward, alike]

end FileSystem

namespace Thicket

/-- A file system with one directory. -/
def holding (inner : Tree) : FileSystem := ⟨.branch (utf8 "t") inner .empty, []⟩

/-- A file whose name goes on where that of a directory ends, with a byte below the slash, that
directory, and a link to it; the last of them made first. -/
def late : Tree := .leaf (utf8 "l") (.link ⟨utf8 "a"⟩) (.leaf (utf8 "a!") (.file (utf8 "1"))
  (.branch (utf8 "a") (.leaf (utf8 "z") (.file (utf8 "2")) .empty) .empty))

/-- The same, the first made first. -/
def early : Tree := .branch (utf8 "a") (.leaf (utf8 "z") (.file (utf8 "2")) .empty)
  (.leaf (utf8 "a!") (.file (utf8 "1")) (.leaf (utf8 "l") (.link ⟨utf8 "a"⟩) .empty))

theorem early_entries (below : Place) : early.entry? below = late.entry? below := by
  cases below with
  | nil => rfl
  | cons name rest =>
    have same : early.find? name = late.find? name := by
      by_cases link : utf8 "l" = name
      · exact link ▸ rfl
      · by_cases file : utf8 "a!" = name
        · exact file ▸ rfl
        · simp [early, late, Tree.find?, link, file]
    rw [Tree.entry?_cons, Tree.entry?_cons, same]

/-- A file two directories down. -/
def deep : FileSystem := ⟨.branch (utf8 "a") (.branch (utf8 "s")
  (.leaf (utf8 "x") (.file (utf8 "1")) .empty) .empty) .empty, []⟩

/-- A path to the upper directory that leaves no room for the name of the lower one. -/
def long : Path := ⟨utf8 "a" ++ List.replicate 4094 Path.slash⟩

end Thicket

open Thicket

namespace FileSystem

theorem yields_in_order_thicket :
    ∃ register, (holding late).Register [utf8 "t"] register ∧
      register.map StoredFile.place = [[utf8 "a", utf8 "z"], [utf8 "a!"]] ∧
      (holding late).filesBelow ⟨utf8 "t"⟩ =
        .ok (register.map (StoredFile.found ⟨utf8 "t"⟩)) ∧
      (holding early).filesBelow ⟨utf8 "t"⟩ = (holding late).filesBelow ⟨utf8 "t"⟩ := by
  have sound : (holding late).Sound := by decide
  have soundEarly : (holding early).Sound := by decide
  have opens : (holding late).Opens ⟨utf8 "t"⟩ [utf8 "t"] := by decide
  have opensEarly : (holding early).Opens ⟨utf8 "t"⟩ [utf8 "t"] := by decide
  have listed : (holding late).filesBelow ⟨utf8 "t"⟩ = .ok
      [⟨⟨utf8 "t/a/z"⟩, [utf8 "a", utf8 "z"], .leaf (.file (utf8 "2"))⟩,
        ⟨⟨utf8 "t/a!"⟩, [utf8 "a!"], .leaf (.file (utf8 "1"))⟩] := by decide
  obtain ⟨register, whole, _, ends, _, _, alike⟩ := opens.yields_in_order sound.wellFormed
  have stands (inner : Tree) : (holding inner).root.at? [utf8 "t"] = some (.branch inner) := rfl
  have same := (alike _ _ soundEarly.wellFormed opensEarly (fun below => by
    rw [Tree.entry?_append_branch (stands early), Tree.entry?_append_branch (stands late),
      early_entries])).2.1
  rcases ends with ⟨_, _, all⟩ | ⟨below, _, _, broken⟩
  · rw [listed, Except.ok.injEq] at all
    have places := congrArg (List.map Found.place) all.symm
    rw [List.map_map] at places
    exact ⟨register, whole, places, by rw [listed, all], same⟩
  · rw [listed] at broken
    cases broken

/-- The directory that the path leads to holds a file, but the walk cannot go down to it. -/
theorem walk_breaks_off :
    deep.Sound ∧ deep.Opens long [utf8 "a"] ∧
      deep.root.entry? ([utf8 "a"] ++ [utf8 "s", utf8 "x"]) = some (.leaf (.file (utf8 "1"))) ∧
      yielded (deep.walk long) = [] ∧
      (∀ listed, deep.filesBelow long ≠ .ok listed) ∧
      ∀ fingerprint, deep.fingerprint long ≠ .ok fingerprint := by
  have unlisted : (deep.filesBelow long).toOption = none := by decide +kernel
  have unhashed : (deep.fingerprint long).toOption = none := by decide +kernel
  refine ⟨by decide, by decide +kernel, by decide, by decide +kernel, ?_, ?_⟩
  · intro listed given
    rw [given] at unlisted
    cases unlisted
  · intro fingerprint given
    rw [given] at unhashed
    cases unhashed

end FileSystem
end Retarget
