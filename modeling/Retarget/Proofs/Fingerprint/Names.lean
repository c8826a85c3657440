import Retarget.Proofs.Fingerprint.Framing

/-!
What a fingerprint tells of names. A key holds what the names on the way to a file are read as, so
names that are text are told apart, and two names of other bytes are not where they are read alike.
-/
namespace Retarget

/-! ## Reading keys back -/

/-- A key is cut at its slashes into what each name is read as. -/
theorem lossy_of_keyOf_eq {place other : Place} (some : place ≠ []) (also : other ≠ [])
    (legal : ∀ name ∈ place, Tree.Legal name) (otherLegal : ∀ name ∈ other, Tree.Legal name)
    (same : keyOf place = keyOf other) : place.map lossyText = other.map lossyText := by
  have cut : ∀ names : Place, names ≠ [] → (∀ name ∈ names, Tree.Legal name) →
      (utf8 (keyOf names)).splitOn Path.slash = (names.map lossyText).map utf8 := by
    intro names some legal
    rw [utf8_keyOf, List.map_map]
    refine List.splitOn_intercalate _ (fun piece member => ?_) (by simpa using some)
    obtain ⟨name, inside, rfl⟩ := List.mem_map.1 member
    exact fun slash => (legal name inside).2.1 (mem_of_mem_utf8_lossyText slash (by decide))
  refine (List.map_injective_iff.2 fun _ _ => utf8_injective) ?_
  rw [← cut place some legal, ← cut other also otherLegal, same]

namespace Tree

variable {tree other : Tree}

/-- What can be seen of a file in a key: what the names on the way are read as. -/
def seen (file : Place × Bytes) : List String × Bytes := (file.1.map lossyText, file.2)

/-- Contents that occur in either tree have different digests where they are different. -/
def Digested (tree other : Tree) : Prop :=
  ∀ file ∈ tree.regulars, ∀ met ∈ other.regulars,
    Blake3.hash file.2 = Blake3.hash met.2 → file.2 = met.2

/-- Files in two trees that are read alike have one place. -/
def Legible (tree other : Tree) : Prop :=
  ∀ file ∈ tree.regulars, ∀ met ∈ other.regulars,
    file.1.map lossyText = met.1.map lossyText → file.1 = met.1

theorem markOf_eq_iff (wellFormed : tree.WellFormed) (otherFormed : other.WellFormed)
    (digested : Digested tree other) {file met : Place × Bytes} (member : file ∈ tree.regulars)
    (also : met ∈ other.regulars) : markOf file = markOf met ↔ seen file = seen met := by
  have held := (mem_regulars wellFormed).1 member
  have otherHeld := (mem_regulars otherFormed).1 also
  have legal := wellFormed.legal held
  have otherLegal := otherFormed.legal otherHeld
  have some : file.1 ≠ [] := by
    intro top
    simp [top] at held
  have otherSome : met.1 ≠ [] := by
    intro top
    simp [top] at otherHeld
  unfold markOf seen
  rw [Path.key_place legal, Path.key_place otherLegal, Mark.mk.injEq, Prod.mk.injEq]
  constructor
  · rintro ⟨keys, digests⟩
    exact ⟨lossy_of_keyOf_eq some otherSome legal otherLegal keys,
      digested file member met also digests⟩
  · rintro ⟨names, contents⟩
    exact ⟨by rw [keyOf, names, keyOf], by rw [contents]⟩

theorem map_eq_of_map_eq {α β γ : Type} {view : α → β} {other : α → γ} {first second : List α}
    (same : first.map view = second.map view)
    (finer : ∀ item ∈ first, ∀ met ∈ second, view item = view met → other item = other met) :
    first.map other = second.map other := by
  induction first generalizing second with
  | nil => rw [List.map_eq_nil_iff.1 same.symm]
  | cons item rest ih =>
    cases second with
    | nil => cases same
    | cons met more =>
      obtain ⟨here, onward⟩ := List.cons.inj same
      rw [List.map_cons, List.map_cons, finer item (by simp) met (by simp) here,
        ih onward fun later inside next after =>
          finer later (List.mem_cons_of_mem _ inside) next (List.mem_cons_of_mem _ after)]

theorem legible_of_text (tree other : Tree)
    (isText : ∀ file ∈ tree.regulars ++ other.regulars, ∀ name ∈ file.1, text? name ≠ none) :
    Legible tree other := by
  intro file member met also same
  have whole : file.1.map id = met.1.map id := map_eq_of_map_eq same fun name inside next after =>
    lossyText_injOn (isText file (by simp [member]) name inside)
      (isText met (by simp [also]) next after)
  simpa using whole

/-- Where digests tell contents apart, the bytes hashed for two trees are the same exactly if their
files, in the order of the walk, are read alike and have the same contents. A file that is in one
tree and not in the other, or has other contents there, therefore shows wherever files that are read
alike have one place, which they do where all names are text. -/
theorem stream_eq_iff_seen_eq (wellFormed : tree.WellFormed) (otherFormed : other.WellFormed)
    (digested : Digested tree other) :
    (tree.stream = other.stream ↔ tree.regulars.map seen = other.regulars.map seen) ∧
    (Legible tree other → (∃ place contents,
        tree.entry? place = some (.leaf (.file contents)) ∧
          other.entry? place ≠ some (.leaf (.file contents)) ∨
        other.entry? place = some (.leaf (.file contents)) ∧
          tree.entry? place ≠ some (.leaf (.file contents))) → tree.stream ≠ other.stream) ∧
    ((∀ file ∈ tree.regulars ++ other.regulars, ∀ name ∈ file.1, text? name ≠ none) →
      Legible tree other) := by
  have marked : tree.stream = other.stream ↔ tree.regulars.map seen = other.regulars.map seen := by
    constructor
    · intro same
      have marks : tree.marks = other.marks :=
        Mark.stream_injective (fun _ => closed_of_mem_marks wellFormed)
          (fun _ => closed_of_mem_marks otherFormed) same
      exact map_eq_of_map_eq marks fun file member met also =>
        (markOf_eq_iff wellFormed otherFormed digested member also).1
    · intro same
      exact congrArg Mark.stream (map_eq_of_map_eq same fun file member met also =>
        (markOf_eq_iff wellFormed otherFormed digested member also).2)
  refine ⟨marked, ?_, legible_of_text tree other⟩
  rintro legible ⟨place, contents, differs⟩ same
  have alike : tree.regulars.map id = other.regulars.map id := by
    refine map_eq_of_map_eq (marked.1 same) fun file member met also seen => ?_
    obtain ⟨names, held⟩ := Prod.mk.inj seen
    exact Prod.ext (legible file member met also names) held
  rw [List.map_id, List.map_id] at alike
  have member : (place, contents) ∈ tree.regulars ↔ (place, contents) ∈ other.regulars := by
    rw [alike]
  rw [mem_regulars wellFormed, mem_regulars otherFormed] at member
  rcases differs with ⟨held, missing⟩ | ⟨held, missing⟩
  · exact missing (member.1 held)
  · exact missing (member.2 held)

/-- The file of the plain tree under another name. -/
def renamed : Tree := .leaf (utf8 "b") (.file (utf8 "1")) .empty

theorem stream_renamed : plain.stream ≠ renamed.stream := by
  have formed : ∀ name, Legal name → (Tree.leaf name (.file (utf8 "1")) .empty).WellFormed :=
    fun name legal => ⟨legal, rfl, trivial⟩
  have plainFormed : plain.WellFormed := formed _ (by unfold Legal; decide)
  have renamedFormed : renamed.WellFormed := formed _ (by unfold Legal; decide)
  have digested : Digested plain renamed := by
    unfold Digested
    decide +kernel
  have theirs := stream_eq_iff_seen_eq plainFormed renamedFormed digested
  refine theirs.2.1 (theirs.2.2 (by decide +kernel)) ⟨[utf8 "a"], utf8 "1", .inl ?_⟩
  decide +kernel

/-- A file under a name of one byte. -/
def latin (last : UInt8) : Tree := .leaf [last] (.file (utf8 "1")) .empty

/-- Two directories that hold the same contents, each under a name that is not text. -/
def latins : FileSystem :=
  ⟨.branch (utf8 "a") (latin 0xFF) (.branch (utf8 "b") (latin 0xFE) .empty), []⟩

/-- Names of other bytes are read alike: another name of this kind does not show, neither in the
bytes that are hashed nor in a fingerprint. -/
theorem stream_unchanged_by_rename : (latin 0xFF).WellFormed ∧ (latin 0xFE).WellFormed ∧
    Digested (latin 0xFF) (latin 0xFE) ∧
    entry? (latin 0xFF) [[0xFF]] = some (.leaf (.file (utf8 "1"))) ∧
    entry? (latin 0xFE) [[0xFF]] = none ∧
    (latin 0xFF).stream = (latin 0xFE).stream ∧
    ∃ fingerprint, latins.fingerprint ⟨utf8 "a"⟩ = .ok fingerprint ∧
      latins.fingerprint ⟨utf8 "b"⟩ = .ok fingerprint := by
  have formed : ∀ last, Legal [last] → (latin last).WellFormed :=
    fun name legal => ⟨legal, rfl, trivial⟩
  have digested : Digested (latin 0xFF) (latin 0xFE) := by
    unfold Digested
    decide +kernel
  refine ⟨formed _ (by unfold Legal; decide), formed _ (by unfold Legal; decide), digested,
    by decide, by decide, by decide +kernel, ?_⟩
  have taken : (latins.fingerprint ⟨utf8 "a"⟩).toOption.isSome = true ∧
      (latins.fingerprint ⟨utf8 "b"⟩).toOption = (latins.fingerprint ⟨utf8 "a"⟩).toOption := by
    decide +kernel
  obtain ⟨fingerprint, given⟩ := Option.isSome_iff_exists.1 taken.1
  have ok : ∀ result : Except Failure Fingerprint, result.toOption = some fingerprint →
      result = .ok fingerprint := by
    intro result same
    cases result with
    | error failure => cases same
    | ok value => rw [Option.some.inj same]
  exact ⟨fingerprint, ok _ given, ok _ (taken.2.trans given)⟩

end Tree
end Retarget
