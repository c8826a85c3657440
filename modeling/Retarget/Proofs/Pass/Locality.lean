import Retarget.Proofs.Change.Paving
import Retarget.Proofs.Pass.Agreement
import Retarget.Proofs.Pass.Arrival
import Retarget.Proofs.Pass.Remaking
import Retarget.Proofs.Resolution.Climbing

/-!
Copying in two systems that differ elsewhere. Where neither the source nor the target lies in a place
or holds it, what is at the place does not matter to copying, nor which of the directories above it
are there: what is missing above the target is made on the way, and from then on the two systems
agree where copying goes.
-/
namespace Retarget

open Act Pass

namespace FileSystem

variable {files other after : FileSystem} {path source target : Path} {place top cwd : Place}

/-- Two systems without links that differ at a place, below it, and in which of the directories above
it are there. -/
structure DifferAt (place : Place) (files other : FileSystem) : Prop where
  sound : files.Sound
  otherSound : other.Sound
  linkless : files.root.Linkless []
  otherLinkless : other.root.Linkless []
  cwd : other.cwd = files.cwd
  names : ∀ name ∈ files.cwd, Tree.Legal name
  outside : ∀ query, ¬place <+: query → other.root.entry? query = files.root.entry? query ∨
    query <+: place ∧ (files.root.entry? query = none ∧ other.root.entry? query = some .directory ∨
      files.root.entry? query = some .directory ∧ other.root.entry? query = none)

theorem DifferAt.symm (differ : DifferAt place files other) : DifferAt place other files := by
  refine ⟨differ.otherSound, differ.sound, differ.otherLinkless, differ.linkless, differ.cwd.symm,
    differ.cwd ▸ differ.names, fun query apart => ?_⟩
  rcases differ.outside query apart with same | ⟨above, first | second⟩
  · exact .inl same.symm
  · exact .inr ⟨above, .inr first.symm⟩
  · exact .inr ⟨above, .inl second.symm⟩

theorem DifferAt.entry_eq (differ : DifferAt place files other) {query : Place}
    (apart : ¬place <+: query ∧ ¬query <+: place) :
    other.root.entry? query = files.root.entry? query :=
  (differ.outside query apart.1).resolve_right fun both => apart.2 both.1

/-- What is there and lies apart has the same directories above it in both. -/
theorem DifferAt.entry_above (differ : DifferAt place files other) (apart : Apart place top)
    (present : files.root.entry? top ≠ none) {query : Place} (above : query <+: top) :
    other.root.entry? query = files.root.entry? query := by
  have same := differ.entry_eq apart
  obtain ⟨entry, held⟩ := Option.ne_none_iff_exists'.1 present
  obtain ⟨rest, rfl⟩ := above
  by_cases none : rest = []
  · rwa [none, List.append_nil] at same
  · rw [Tree.directory_above held none, Tree.directory_above (same.trans held) none]

theorem DifferAt.agree (differ : DifferAt place files other) {tops : List Place}
    (apart : ∀ top ∈ tops, Apart place top)
    (present : ∀ top ∈ tops, files.root.entry? top ≠ none) :
    Agree tops files.cwd files other := by
  refine ⟨differ.sound, differ.otherSound, differ.linkless, differ.otherLinkless, rfl, differ.cwd,
    differ.names, fun query near => ?_⟩
  obtain ⟨top, member, above | below⟩ := near
  · exact differ.entry_above (apart top member) (present top member) above
  · exact differ.entry_eq (Apart.of_below (apart top member).symm below)

/-! ## What is missing -/

theorem not_present_of_missing (linkless : files.root.Linkless [])
    (missing : files.root.entry? (path.placeFrom files.cwd) = none) :
    files.isPresent path = false := by
  rw [Bool.eq_false_iff]
  intro present
  obtain ⟨reached, node, found⟩ := isPresent_iff.1 present
  obtain ⟨_, led, held⟩ := stat_iff.1 found
  obtain rfl := place_eq_of_leads led linkless
  simp [Tree.entry?, held] at missing

/-- Nothing is cleared away where nothing is. -/
theorem outcome_clear_of_missing (linkless : files.root.Linkless [])
    (missing : files.root.entry? (target.placeFrom files.cwd) = none) :
    (clear target).outcome files = (.ok (), files) := by
  have notPresent := not_present_of_missing linkless missing
  have notDirectory : files.isDirectory target = false := by
    rw [Bool.eq_false_iff]
    intro directory
    obtain ⟨reached, opens⟩ := isDirectory_iff.1 directory
    obtain rfl := opens.place_eq linkless
    rw [opens.directory] at missing
    cases missing
  have ran : (clear target).runOn ⟨files, []⟩ = (.ok (), ⟨files, []⟩) := by
    refine (runOn_bind_ok (runOn_look notDirectory [])).trans ?_
    exact (runOn_bind_ok (runOn_look notPresent [])).trans rfl
  unfold outcome
  rw [ran]

/-- What copying finds of its source it finds in every system that agrees there. -/
theorem Agree.sourced {tops : List Place} (agree : Agree tops cwd files other)
    (stays : source.Stays tops cwd) (below : ∀ names, Near tops (source.placeFrom cwd ++ names))
    {entries : List (Bytes × Entry)} (sourced : files.Sourced source place entries) :
    other.Sourced source place entries := by
  obtain ⟨reached, node, found, seen⟩ := sourced.listed
  have met := agree.lstat stays
  rw [found] at met
  obtain ⟨⟨again, twin⟩, there, both⟩ := met.other_ok
  have same : twin.entry = node.entry := by
    cases both <;> rfl
  refine ⟨⟨again, twin, there, ?_⟩, ?_⟩
  · rw [agree.followed stays, same, seen]
  · rw [agree.opened stays below, sourced.opened]

/-- Directories made on the way to the same place, in systems that agree elsewhere. -/
theorem Paved.agree {goal : Place} {now later : FileSystem} (paved : files.Paved goal now)
    (otherPaved : other.Paved goal later) (directory : now.root.entry? goal = some .directory)
    (otherDirectory : later.root.entry? goal = some .directory) {tops : List Place}
    (cwd : other.cwd = files.cwd) (names : ∀ name ∈ files.cwd, Tree.Legal name)
    (same : ∀ query, Near tops query → ¬query <+: goal →
      other.root.entry? query = files.root.entry? query) : Agree tops files.cwd now later := by
  refine ⟨paved.sound, otherPaved.sound, paved.linkless, otherPaved.linkless, paved.cwd,
    otherPaved.cwd.trans cwd, names, fun query near => ?_⟩
  rw [paved.entry_eq directory, otherPaved.entry_eq otherDirectory]
  split
  · rfl
  · rename_i apart
    exact same query near apart

/-- What was made in one system finds nothing but directories on its way in the other. -/
theorem DifferAt.unblocked (differ : DifferAt place files other) {names : Place} {now : FileSystem}
    (spelled : Path.Spelled path.openSteps names) (apart : Apart place (path.placeFrom files.cwd))
    (start : other.root.entry? (path.start files.cwd) = some .directory)
    (short : ∀ name ∈ names, name.length ≤ nameLimit)
    (paved : files.Paved (path.placeFrom files.cwd) now)
    (opens : now.Opens path (path.placeFrom files.cwd)) : other.Unblocked path names := by
  refine ⟨opens.accepted, spelled, short, ?_, fun front before => ?_⟩
  · rw [differ.cwd, start]
  rw [differ.cwd]
  have whole : path.placeFrom files.cwd = path.start files.cwd ++ names :=
    placeFrom_of_spelled spelled
  obtain ⟨rest, rfl⟩ := before
  have directory : now.root.entry? (path.start files.cwd ++ front) = some .directory := by
    have there := opens.directory
    rw [whole, ← List.append_assoc] at there
    exact Tree.directory_of_append there
  have above : path.start files.cwd ++ front <+: path.placeFrom files.cwd := by
    rw [whole, ← List.append_assoc]
    exact List.prefix_append _ _
  rcases differ.outside _ fun inside => apart.1 (inside.trans above) with equal |
    ⟨_, ⟨_, there⟩ | ⟨_, none⟩⟩
  · rw [equal]
    rcases paved.entries (path.start files.cwd ++ front) with kept | ⟨_, none, _⟩
    · exact .inr (kept ▸ directory)
    · exact .inl none
  · exact .inr there
  · exact .inl none

/-- What is missing in both and is made in one can be made in the other, and with it they agree
wherever they did but for directories on the way to it. -/
theorem DifferAt.makeDirectories (differ : DifferAt place files other) {names : Place}
    (written : path.bytes ≠ []) (spelled : Path.Spelled path.openSteps names)
    (apart : Apart place (path.placeFrom files.cwd))
    (missing : files.root.entry? (path.placeFrom files.cwd) = none)
    (start : other.root.entry? (path.start files.cwd) = some .directory)
    (made : (files.makeDirectories path).1 = .ok ()) {tops : List Place}
    (same : ∀ query, Near tops query → ¬query <+: path.placeFrom files.cwd →
      other.root.entry? query = files.root.entry? query) :
    (other.makeDirectories path).1 = .ok () ∧
      Agree tops files.cwd (files.makeDirectories path).2 (other.makeDirectories path).2 := by
  have paved := paved_of_makeDirectories differ.sound differ.linkless spelled
  have otherPaved := paved_of_makeDirectories differ.otherSound differ.otherLinkless spelled
  have otherMissing := (differ.entry_eq apart).trans missing
  rw [← differ.cwd] at otherMissing
  have opens := opens_of_makeDirectories differ.sound differ.linkless written spelled missing
    (Prod.ext made rfl)
  obtain ⟨before, front, name, rfl, ends, short⟩ :=
    names_of_makeDirectories differ.sound differ.linkless written spelled missing (Prod.ext made rfl)
  have otherMade := (differ.unblocked spelled apart start short paved opens).makeDirectories
    differ.otherSound differ.otherLinkless ends
  have otherOpens := opens_of_makeDirectories differ.otherSound differ.otherLinkless written spelled
    otherMissing (Prod.ext otherMade rfl)
  rw [differ.cwd] at otherPaved otherOpens
  exact ⟨otherMade, paved.agree otherPaved opens.directory otherOpens.directory differ.cwd
    differ.names same⟩

end FileSystem

namespace Pass

open FileSystem

variable {files other : FileSystem} {source target : Path} {place : Place}

/-- A source and a target that only go down, and neither lies in a place or holds it. -/
structure Elsewhere (source target : Path) (cwd place : Place) : Prop where
  written : source.bytes ≠ []
  targetWritten : target.bytes ≠ []
  plain : .up ∉ source.openSteps
  targetPlain : .up ∉ target.openSteps
  apart : Apart place (source.placeFrom cwd)
  targetApart : Apart place (target.placeFrom cwd)

/-- The places that copying is about. -/
def tops (source target : Path) (cwd : Place) : List Place :=
  [source.placeFrom cwd, target.placeFrom cwd]

theorem stays_source (plain : .up ∉ source.openSteps) (target : Path) (cwd : Place) :
    source.Stays (tops source target cwd) cwd :=
  stays_of_plain plain (near_below (by simp [tops, Path.placeFrom]) (List.prefix_refl _))

theorem stays_target (source : Path) (plain : .up ∉ target.openSteps) (cwd : Place) :
    target.Stays (tops source target cwd) cwd :=
  stays_of_plain plain (near_below (by simp [tops, Path.placeFrom]) (List.prefix_refl _))

theorem near_source (names : Place) (cwd : Place) :
    Near [source.placeFrom cwd] (source.placeFrom cwd ++ names) :=
  near_below (List.mem_singleton.2 rfl) (List.prefix_append _ _)

/-- Where nothing has to be cleared away, copying is making the target and copying the entries. -/
theorem outcome_copyTree_of_missing {after : FileSystem} {entries : List (Bytes × Entry)}
    {first second : Path} (linkless : files.root.Linkless []) (written : source.bytes ≠ [])
    (directory : files.isDirectory source = true) (seen : files.forecast source = .ok first)
    (foreseen : files.forecast target = .ok second) (disjoint : overlapping first second = false)
    (missing : files.root.entry? (target.placeFrom files.cwd) = none)
    (sourced : files.Sourced source place entries)
    (made : files.makeDirectories (copyPath target []) = (.ok (), after)) :
    (copyTree source target).outcome files =
      (copyEntries source target 4095 [⟨source, place⟩] source entries).outcome after := by
  rw [outcome_copyTree directory seen foreseen disjoint, replaceTree_eq,
    outcome_bind_idle (outcome_clear_of_missing linkless missing)
      fun _ => blind_copyInto source target]
  exact sourced.outcome written made

/-- The target that is made in one system is made in the other, and then they agree about it. -/
theorem Elsewhere.made (elsewhere : Elsewhere source target files.cwd place)
    (differ : DifferAt place files other)
    (agree : Agree [source.placeFrom files.cwd] files.cwd files other)
    (start : other.root.entry? (target.start files.cwd) = some .directory)
    (missing : files.root.entry? (target.placeFrom files.cwd) = none)
    (made : (files.makeDirectories (copyPath target [])).1 = .ok ()) :
    (other.makeDirectories (copyPath target [])).1 = .ok () ∧
      Agree (tops source target files.cwd) files.cwd
        (files.makeDirectories (copyPath target [])).2
        (other.makeDirectories (copyPath target [])).2 := by
  obtain ⟨names, spelled⟩ := Path.spelled_of_plain elsewhere.targetPlain
  have here : (copyPath target []).placeFrom files.cwd = target.placeFrom files.cwd := by
    rw [placeFrom_copyPath (by simp), List.append_nil]
  rw [← openSteps_copyPath_nil] at spelled
  rw [← start_copyPath target (List.forall_mem_nil _)] at start
  refine differ.makeDirectories (bytes_copyPath_nil elsewhere.targetWritten) spelled
    (here.symm ▸ elsewhere.targetApart) (here.symm ▸ missing) start made fun query near apart => ?_
  rw [here] at apart
  obtain ⟨top, member, order⟩ := near
  rcases List.mem_cons.1 member with rfl | last
  · exact agree.same query ⟨_, List.mem_singleton.2 rfl, order⟩
  · obtain rfl := List.mem_singleton.1 last
    exact differ.entry_eq (Apart.of_below elsewhere.targetApart.symm (order.resolve_left apart))

/-- With the target missing, copying that succeeds in one system succeeds in the other, whichever of
the directories above the target are there. -/
theorem copyTree_of_missing (differ : DifferAt place files other)
    (elsewhere : Elsewhere source target files.cwd place)
    (start : other.root.entry? (target.start files.cwd) = some .directory)
    (missing : files.root.entry? (target.placeFrom files.cwd) = none)
    (opens : files.Opens source (source.placeFrom files.cwd)) :
    (copyTree source target).Ensures files (fun count after => ∃ again,
        (copyTree source target).outcome other = (.ok count, again) ∧
          Agree (tops source target files.cwd) files.cwd after again) fun _ => True := by
  obtain ⟨names, spelled⟩ := Path.spelled_of_plain elsewhere.targetPlain
  -- About the source the two systems agree from the beginning.
  have agree : Agree [source.placeFrom files.cwd] files.cwd files other :=
    differ.agree (by simpa using elsewhere.apart) (by simp [opens.directory])
  have stays : source.Stays [source.placeFrom files.cwd] files.cwd :=
    stays_of_plain elsewhere.plain (near_below (List.mem_singleton.2 rfl) (List.prefix_refl _))
  refine copyTree_ensures trivial fun first second isDirectory seen foreseen disjoint => ?_
  rw [replaceTree_eq]
  refine Ensures.bind ((blind_clear target).ensures.imp (fun _ now gave => ?_) fun _ _ => trivial)
  rw [outcome_clear_of_missing differ.linkless missing] at gave
  obtain rfl : files = now := congrArg Prod.snd gave
  refine copyInto_ensures elsewhere.written opens (fun _ _ held => held) rfl fun entries sourced made => ?_
  have accepted : target.check = .ok () := accepted_of_made elsewhere.targetWritten foreseen made
  have foretold : other.forecast target = .ok second :=
    forecast_follows differ.cwd differ.linkless differ.otherLinkless differ.names accepted spelled
      foreseen
  have otherMissing : other.root.entry? (target.placeFrom other.cwd) = none := by
    rw [differ.cwd, differ.entry_eq elsewhere.targetApart, missing]
  obtain ⟨otherMade, still⟩ := elsewhere.made differ agree start missing made
  have copies : Parallel (Agree (tops source target files.cwd) files.cwd) Eq
      (copyEntries source target 4095 [⟨source, source.placeFrom files.cwd⟩] source entries)
      (copyEntries source target 4095 [⟨source, source.placeFrom files.cwd⟩] source entries) := by
    refine parallel_copyEntries fun name entry member => ?_
    have legal : Tree.Legal name := legal_of_opened differ.sound sourced.opened member
    exact parallel_copyFrom elsewhere.written (stays_source elsewhere.plain target _)
      (stays_target source elsewhere.targetPlain _) (by simp [tops]) (by simp [tops]) 4095 _ [name]
      (by simpa using legal) entry
  refine (blind_copyEntries (blind_copyFrom source target 4095) _ _ _).ensures.imp
    (fun count after gave => ?_) fun _ _ => trivial
  obtain ⟨again, otherGave, agreeing⟩ := copies.outcome still gave
  refine ⟨again, ?_, agreeing⟩
  rw [← otherGave]
  exact outcome_copyTree_of_missing differ.otherLinkless elsewhere.written
    ((agree.isDirectory stays).trans isDirectory) ((agree.forecast stays).trans seen) foretold
    disjoint otherMissing (agree.sourced stays (near_source · _) sourced) (Prod.ext otherMade rfl)

/-- Copying that succeeds in one of two systems that differ elsewhere succeeds in the other, and
leaves them agreeing about the source and the target. -/
theorem copyTree_local (differ : DifferAt place files other)
    (elsewhere : Elsewhere source target files.cwd place)
    (start : other.root.entry? (target.start files.cwd) = some .directory) :
    (copyTree source target).Ensures files (fun count after => ∃ again,
        (copyTree source target).outcome other = (.ok count, again) ∧
          Agree (tops source target files.cwd) files.cwd after again) fun _ => True := by
  refine copyTree_of_opens trivial fun reached opens => ?_
  obtain rfl := opens.place_eq differ.linkless
  by_cases missing : files.root.entry? (target.placeFrom files.cwd) = none
  · exact copyTree_of_missing differ elsewhere start missing opens
  · have agree : Agree (tops source target files.cwd) files.cwd files other :=
      differ.agree (by simp [tops, elsewhere.apart, elsewhere.targetApart])
        (by simp [tops, opens.directory, missing])
    refine (blind_copyTree source target).ensures.imp (fun count after gave => ?_)
      fun _ _ => trivial
    exact (parallel_copyTree elsewhere.written (stays_source elsewhere.plain target _)
      (stays_target source elsewhere.targetPlain _) (by simp [tops]) (by simp [tops])).outcome agree
      gave

end Pass
end Retarget
