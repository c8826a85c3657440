import Retarget.Proofs.Pass.Replacing
import Retarget.Proofs.Pass.Rewriting

/-!
What copying a source without links makes: its directories and regular files, each at the same place
below the target, and nothing else. One level is made after another; what is done at a name is the
image of what the source has under it, and the other names are left for later.
-/
namespace Retarget

namespace Entry

variable {entry : Entry} {content : Leaf}

/-- What a copy has of an entry. -/
def copied? : Entry → Option Entry
  | .directory => some .directory
  | .leaf (.file contents) => some (.leaf (.file contents))
  | .leaf _ => none

theorem copied?_eq_directory : entry.copied? = some .directory ↔ entry = .directory := by
  cases entry with
  | directory => simp [copied?]
  | leaf content => cases content <;> simp [copied?]

theorem copied?_eq_leaf : entry.copied? = some (.leaf content) ↔
    ∃ contents, content = .file contents ∧ entry = .leaf (.file contents) := by
  cases entry with
  | directory => simp [copied?]
  | leaf held => cases held <;> simp [copied?, eq_comm]

theorem copied?_special (special : ∀ contents, content ≠ .file contents) :
    (Entry.leaf content).copied? = none := by
  cases content with
  | file contents => exact absurd rfl (special contents)
  | link link => rfl
  | special => rfl

end Entry

namespace FileSystem

open Pass Act

variable {files before now after : FileSystem} {source target : Path} {place copy above : Place}
  {name : Bytes} {entry : Entry}

/-- What a copy has of what stands at a place. -/
def image? (files : FileSystem) (place : Place) : Option Entry :=
    (files.root.entry? place).bind Entry.copied?

theorem image?_below {first : Place} (other : before.root.entry? first ≠ some .directory)
    {below : Place} (more : below ≠ []) :
    before.image? (first ++ below) = none := by
  rw [image?, Tree.bare_of_ne_directory other below more]
  rfl

theorem image?_eq_directory :
    files.image? place = some .directory ↔ files.root.entry? place = some .directory := by
  simp [image?, Option.bind_eq_some_iff, Entry.copied?_eq_directory]

theorem image?_eq_leaf {content : Leaf} : files.image? place = some (.leaf content) ↔
    ∃ contents, content = .file contents ∧
      files.root.entry? place = some (.leaf (.file contents)) := by
  simp only [image?, Option.bind_eq_some_iff, Entry.copied?_eq_leaf]
  constructor
  · rintro ⟨entry, held, contents, same, rfl⟩
    exact ⟨contents, same, held⟩
  · rintro ⟨contents, same, held⟩
    exact ⟨_, held, contents, same, rfl⟩

/-- What stands below a place is the image of what stands below another. -/
def Mirrors (files : FileSystem) (source : Place) (now : FileSystem) (place : Place) : Prop :=
  ∀ below, now.root.entry? (place ++ below) = files.image? (source ++ below)

theorem Mirrors.directory_iff (mirrors : files.Mirrors place now copy) (below : Place) :
    now.root.entry? (copy ++ below) = some .directory ↔
      files.root.entry? (place ++ below) = some .directory := by
  rw [mirrors, image?_eq_directory]

theorem Mirrors.file_iff (mirrors : files.Mirrors place now copy) (below : Place)
    (contents : Bytes) : now.root.entry? (copy ++ below) = some (.leaf (.file contents)) ↔
      files.root.entry? (place ++ below) = some (.leaf (.file contents)) := by
  rw [mirrors, image?_eq_leaf]
  simp

theorem Mirrors.file_of_leaf (mirrors : files.Mirrors place now copy) {below : Place}
    {content : Leaf} (held : now.root.entry? (copy ++ below) = some (.leaf content)) :
    ∃ contents, content = .file contents := by
  obtain ⟨contents, same, _⟩ := image?_eq_leaf.1 ((mirrors below).symm.trans held)
  exact ⟨contents, same⟩

/-- A step after which an image stands at a place and everything else is as it was. -/
structure Puts (image : Place → Option Entry) (copy : Place) (now after : FileSystem) : Prop where
  inside : ∀ below, after.root.entry? (copy ++ below) = image below
  outside : ∀ query, ¬copy <+: query → after.root.entry? query = now.root.entry? query

/-- A directory made first, and nothing else, is part of what is put in its place. -/
theorem Puts.of_made {image : Place → Option Entry} {middle : FileSystem}
    (puts : Puts image copy middle after) (made : ∀ query, middle.root.entry? query =
      if query = copy then some .directory else now.root.entry? query) :
    Puts image copy now after := by
  refine ⟨puts.inside, fun query outside => ?_⟩
  rw [puts.outside query outside, made, if_neg]
  rintro rfl
  exact outside (List.prefix_refl _)

/-- A copy on its way from a source that is still found. -/
structure Copying (before : FileSystem) (source target : Path) (place copy : Place)
    (now : FileSystem) : Prop where
  underway : before.Underway target copy now
  opens : now.Opens source place

theorem Copying.kept (copying : before.Copying source target place copy now)
    (apart : Apart place copy) (below : Place) :
    now.root.entry? (place ++ below) = before.root.entry? (place ++ below) :=
  (copying.underway.toSpares.keeps apart).kept _ (List.prefix_append _ _)

/-! ## One entry -/

/-- Under a directory that is there, making a path below the target makes its last name alone. -/
theorem Underway.makeDirectories_new (underway : before.Underway target copy now)
    (legal : ∀ other ∈ above ++ [name], Tree.Legal other)
    (parent : now.root.entry? (copy ++ above) = some .directory)
    (made : (now.makeDirectories (copyPath target (above ++ [name]))).1 = .ok ()) (query : Place) :
    (now.makeDirectories (copyPath target (above ++ [name]))).2.root.entry? query =
      if query = copy ++ (above ++ [name]) then some .directory else now.root.entry? query := by
  have kept : before.Underway target copy
      (now.makeDirectories (copyPath target (above ++ [name]))).2 ∧
        ∀ query, query ≠ copy ++ (above ++ [name]) →
          (now.makeDirectories (copyPath target (above ++ [name]))).2.root.entry? query =
          now.root.entry? query := by
    refine makeDirectories_keeps (fun state => before.Underway target copy state ∧
      ∀ query, query ≠ copy ++ (above ++ [name]) → state.root.entry? query = now.root.entry? query)
      ?_ ⟨underway, fun _ _ => rfl⟩
    rintro state parentPath next onWay ⟨held, same⟩ done
    refine ⟨held.makeDirectory legal onWay done, fun query other => ?_⟩
    obtain ⟨below, _, front, free, _, entries⟩ := held.makeDirectory_ok legal onWay done
    rcases List.prefix_concat_iff.1 front with rfl | ⟨rest, rfl⟩
    · rw [entries, if_neg other, same query other]
    · -- The directories above are there already.
      have there : state.root.entry? (copy ++ below ++ rest) = some .directory := by
        rw [List.append_assoc, same, parent]
        simp
      rw [Tree.entry?_append_of_none free] at there
      cases there
  split
  · rename_i here
    subst here
    have written : (copyPath target (above ++ [name])).bytes ≠ [] := by
      intro none
      have steps := Path.openSteps_join_place target legal
      rw [← copyPath, Path.openSteps, none] at steps
      simp [Path.step?] at steps
    rcases makeDirectories_ok written (by rw [← made]) with ⟨reached, opens⟩ | ⟨_, idle⟩
    · have led := opens.leads
      rw [start_copyPath target legal, copyPath, Path.openSteps_join_place target legal] at led
      obtain rfl : reached = copy ++ (above ++ [name]) := kept.1.leads_below led
      exact opens.directory
    · rw [copyPath, Path.openSteps_join_place target legal] at idle
      have stays := idle (.into name) (by simp)
      cases stays
  · rename_i other
    exact kept.2 query other

theorem followed_plain (plain : ∀ link, entry ≠ .leaf (.link link)) (files : FileSystem)
    (ancestors : List Ancestor) (path : Path) :
    followed files ancestors path entry = .ok entry := by
  cases entry with
  | directory => rfl
  | leaf content =>
    cases content with
    | link link => exact absurd rfl (plain link)
    | file contents => rfl
    | special => rfl

/-- An opened directory lists what stands in it, each name once. -/
theorem listed_of_opened (sound : now.Sound) {path : Path} {reached : Place}
    {entries : List (Bytes × Entry)} (listed : opened now path = .ok (reached, entries)) :
    now.Opens path reached ∧ (entries.map Prod.fst).Nodup ∧
      ∀ name entry, (name, entry) ∈ entries ↔
        now.root.entry? (reached ++ [name]) = some entry := by
  obtain ⟨inner, stat, rfl⟩ := opened_ok listed
  have found := (stat_iff.1 stat).2.2
  have formed : inner.WellFormed := (sound.wellFormed.at? found).2
  refine ⟨opens_iff.2 ⟨inner, stat⟩, ?_, fun name entry => ?_⟩
  · rw [List.map_map]
    exact Tree.nodup_listing formed
  · rw [Tree.entry?_concat found]
    constructor
    · intro member
      obtain ⟨⟨other, node⟩, inside, same⟩ := List.mem_map.1 member
      obtain ⟨rfl, rfl⟩ := Prod.mk.inj same
      rw [(Tree.mem_listing formed).1 inside]
      rfl
    · intro stands
      obtain ⟨node, given, rfl⟩ := Option.map_eq_some_iff.1 stands
      exact List.mem_map.2 ⟨(name, node), (Tree.mem_listing formed).2 given, rfl⟩

/-- Opening a directory below the source lists what the source has there. -/
theorem Opens.opened_below (opens : now.Opens source place) (sound : now.Sound)
    (kept : ∀ below, now.root.entry? (place ++ below) = before.root.entry? (place ++ below))
    (held : before.root.entry? (place ++ above) = some .directory)
    (legal : ∀ other ∈ above, Tree.Legal other)
    {reached : Place} {entries : List (Bytes × Entry)}
    (listed : opened now (source.descend above) = .ok (reached, entries)) :
    (entries.map Prod.fst).Nodup ∧
      ∀ name entry, (name, entry) ∈ entries ↔
      before.root.entry? (place ++ (above ++ [name])) = some entry := by
  obtain ⟨below, nodup, stands⟩ := listed_of_opened sound listed
  have followed := below.leads
  rw [Path.start_descend source legal, Path.openSteps_descend source legal] at followed
  obtain rfl := opens.place_below ((kept above).trans held) below.directory followed
  refine ⟨nodup, fun name entry => ?_⟩
  rw [stands, List.append_assoc, kept]

/-! ## The entries of a directory -/

/-- Between two entries: what was gone through is copied, what is left is not there yet. -/
structure Halfway (image : Place → Option Entry) (copy : Place) (start : FileSystem)
    (left : List (Bytes × Entry)) (now : FileSystem) : Prop where
  directory : now.root.entry? copy = some .directory
  done : ∀ name below, name ∉ left.map Prod.fst →
      now.root.entry? (copy ++ name :: below) = image (name :: below)
  waiting : ∀ name ∈ left.map Prod.fst, now.root.entry? (copy ++ [name]) = none
  outside : ∀ query, ¬copy <+: query → now.root.entry? query = start.root.entry? query

section Halfway

variable {image : Place → Option Entry} {began : FileSystem} {left : List (Bytes × Entry)}

theorem Halfway.start (directory : now.root.entry? copy = some .directory)
    (bare : now.root.Bare copy)
    (listed : ∀ name below, name ∉ left.map Prod.fst → image (name :: below) = none) :
    Halfway image copy now left now :=
  ⟨directory, fun name below absent => by rw [bare _ (by simp), listed name below absent],
    fun name _ => bare [name] (by simp), fun _ _ => rfl⟩

theorem Halfway.step (halfway : Halfway image copy began ((name, entry) :: left) now)
    (fresh : name ∉ left.map Prod.fst)
    (puts : Puts (fun below => image (name :: below)) (copy ++ [name]) now after) :
    Halfway image copy began left after := by
  have beside : ∀ {other : Bytes} (below : Place), other ≠ name →
      after.root.entry? (copy ++ other :: below) = now.root.entry? (copy ++ other :: below) := by
    intro other below apart
    refine puts.outside _ fun inside => apart ?_
    rw [List.prefix_append_right_inj, List.cons_prefix_cons] at inside
    exact inside.1.symm
  refine ⟨?_, fun other below absent => ?_, fun other waits => ?_, fun query outside => ?_⟩
  · rw [puts.outside _ fun inside => absurd inside.length_le (by simp), halfway.directory]
  · by_cases same : other = name
    · subst same
      simpa using puts.inside below
    · rw [beside below same]
      exact halfway.done other below (by simpa [same] using absent)
  · have apart : other ≠ name := fun same => fresh (same ▸ waits)
    rw [beside [] apart]
    exact halfway.waiting other (List.mem_cons_of_mem _ waits)
  · rw [puts.outside query fun inside => outside ((List.prefix_append _ _).trans inside),
      halfway.outside query outside]

theorem Halfway.puts (halfway : Halfway image copy began [] now)
    (held : image [] = some .directory) : Puts image copy began now := by
  refine ⟨fun below => ?_, halfway.outside⟩
  cases below with
  | nil => simp [halfway.directory, held]
  | cons name rest => exact halfway.done name rest (by simp)

end Halfway

/-- Copying the entries of a directory into an empty one puts the image of the directory there, if
copying each of them puts its image there. -/
theorem copyEntries_puts (keeps : FileSystem → Prop) (image : Place → Option Entry) {depth : Nat}
    {ancestors : List Ancestor} {path : Path} {entries : List (Bytes × Entry)}
    (held : image [] = some .directory) (nodup : (entries.map Prod.fst).Nodup)
    (listed : ∀ name below, name ∉ entries.map Prod.fst → image (name :: below) = none)
    (copies : ∀ name entry state, (name, entry) ∈ entries → keeps state →
      state.root.entry? copy = some .directory → state.root.entry? (copy ++ [name]) = none →
      (copyFrom source target depth ancestors (path.joinName name) entry).Ensures state
        (fun _ after => keeps after ∧
          Puts (fun below => image (name :: below)) (copy ++ [name]) state after) fun _ => True)
    (kept : keeps now) (directory : now.root.entry? copy = some .directory)
    (bare : now.root.Bare copy) :
    (copyEntries source target depth ancestors path entries).Ensures now
      (fun _ after => keeps after ∧ Puts image copy now after) fun _ => True := by
  refine (copyEntries_ensures (fun left state => keeps state ∧ (left.map Prod.fst).Nodup ∧
    (∀ item ∈ left, item ∈ entries) ∧ Halfway image copy now left state)
    (fun _ => True) ?_ entries
    ⟨kept, nodup, fun _ member => member, .start directory bare listed⟩).imp
      (fun _ after ended => ⟨ended.1, ended.2.2.2.puts held⟩) fun _ _ => trivial
  rintro name entry rest state ⟨kept, distinct, inside, halfway⟩
  obtain ⟨fresh, distinct⟩ := List.nodup_cons.1 distinct
  refine (copies name entry state (inside _ (by simp)) kept halfway.directory
    (halfway.waiting name (by simp))).imp ?_ fun _ _ => trivial
  rintro _ after ⟨kept, puts⟩
  exact ⟨kept, distinct, fun item member => inside item (List.mem_cons_of_mem _ member),
    halfway.step fresh puts⟩

/-! ## A whole tree -/

/-- Where nothing stands, a file and nothing else puts the image of a file. -/
theorem puts_file {image : Place → Option Entry} {outer : Place} {contents : Bytes}
    (held : image [] = some (.leaf (.file contents)))
    (alone : ∀ below, below ≠ [] → image below = none)
    (bare : now.root.Bare outer) (entries : ∀ query, after.root.entry? query =
      if query = outer then some (.leaf (.file contents)) else now.root.entry? query) :
    Puts image outer now after := by
  refine ⟨fun below => ?_, fun query outside => ?_⟩
  · rw [entries]
    by_cases top : below = []
    · simp [top, held]
    · rw [if_neg (by simpa using top), bare below top, alone below top]
  · rw [entries, if_neg]
    rintro rfl
    exact outside (List.prefix_refl _)

/-- Where nothing stands, the image of what is not copied is there. -/
theorem puts_nothing {image : Place → Option Entry} {outer : Place}
    (nothing : ∀ below, image below = none) (free : now.root.entry? outer = none) :
    Puts image outer now now := by
  refine ⟨fun below => ?_, fun _ _ => rfl⟩
  rw [nothing, Tree.entry?_append_of_none free]

/-- With one name of a directory gone through, what it lists is the image below it. -/
theorem image?_listed {entries : List (Bytes × Entry)}
    (listed : ∀ name entry, (name, entry) ∈ entries ↔
      before.root.entry? (place ++ [name]) = some entry) {name : Bytes}
    (absent : name ∉ entries.map Prod.fst) (below : Place) :
    before.image? (place ++ name :: below) = none := by
  have free : before.root.entry? (place ++ [name]) = none := by
    by_contra stands
    obtain ⟨entry, held⟩ := Option.ne_none_iff_exists'.1 stands
    exact absent (List.mem_map.2 ⟨(name, entry), (listed name entry).2 held, rfl⟩)
  have none := Tree.entry?_append_of_none free below
  rw [List.append_assoc, List.singleton_append] at none
  rw [image?, none]
  rfl

/-- Copying what stands under a name of a source without links puts its image under the name. -/
theorem copyFrom_image (sound : before.Sound) (linkless : before.root.Linkless place)
    (apart : Apart place copy) {depth : Nat} {ancestors : List Ancestor}
    (written : source.bytes ≠ []) (copying : before.Copying source target place copy now)
    (held : before.root.entry? (place ++ (above ++ [name])) = some entry)
    (parent : now.root.entry? (copy ++ above) = some .directory)
    (free : now.root.entry? (copy ++ (above ++ [name])) = none) :
    (copyFrom source target depth ancestors (source.descend (above ++ [name])) entry).Ensures now
      (fun _ after => before.Copying source target place copy after ∧
        Puts (fun below => before.image? (place ++ (above ++ [name]) ++ below))
          (copy ++ (above ++ [name])) now after)
      fun _ => True := by
  induction depth generalizing now ancestors above name entry with
  | zero => exact (ensures_throw _).2 trivial
  | succ depth ih =>
    have legal : ∀ other ∈ above ++ [name], Tree.Legal other := fun other member =>
      sound.wellFormed.legal held other (List.mem_append_right _ member)
    have plain : ∀ link, entry ≠ .leaf (.link link) :=
      fun link same => linkless _ link (same ▸ held)
    have seen := followed_plain plain now ancestors (source.descend (above ++ [name]))
    have bare : now.root.Bare (copy ++ (above ++ [name])) := Tree.bare_of_none free
    refine copyFrom_ensures depth (above ++ [name]) written legal trivial (fun _ => trivial)
      (fun reached entries directory listing made => ?_)
      (fun contents given after file read done => ?_) fun content other special => ?_
    · rw [seen] at directory
      obtain rfl := Except.ok.inj directory
      have entriesMade := copying.underway.makeDirectories_new legal parent made
      have grows : now.Grows (now.makeDirectories (copyPath target (above ++ [name]))).2 :=
        grows_of_makeDirectories
      have underway := copying.underway.makeDirectories legal
      generalize (now.makeDirectories (copyPath target (above ++ [name]))).2 = middle
        at entriesMade grows underway ⊢
      obtain ⟨nodup, listed⟩ :=
        copying.opens.opened_below copying.underway.sound (copying.kept apart) held legal listing
      have top : before.image? (place ++ (above ++ [name]) ++ []) = some .directory := by
        rw [List.append_nil, image?_eq_directory, held]
      refine (copyEntries_puts (before.Copying source target place copy)
        (fun below => before.image? (place ++ (above ++ [name]) ++ below)) top nodup
        (fun other below absent => ?_) (fun other child state member copied stands vacant => ?_)
        ⟨underway, copying.opens.carry grows.ways grows.cwd⟩ (by rw [entriesMade, if_pos rfl])
        (bare.put entriesMade)).imp ?_ fun _ _ => trivial
      · exact image?_listed (fun name entry => by rw [listed, ← List.append_assoc]) absent below
      · rw [← Path.descend_concat]
        rw [List.append_assoc] at vacant
        refine (ih copied ((listed other child).1 member) stands vacant).imp
          (fun _ after ended => ?_) fun _ _ => trivial
        simpa using ended
      · rintro _ after ⟨copied, puts⟩
        exact ⟨copied, puts.of_made entriesMade⟩
    · rw [seen] at file
      obtain rfl := Except.ok.inj file
      have stands : now.root.entry? (place ++ above ++ [name]) = some (.leaf (.file contents)) := by
        rw [List.append_assoc, copying.kept apart, held]
      obtain rfl := copying.opens.read_below stands legal read
      obtain ⟨cwd, entries⟩ := copying.underway.write_new legal free done
      obtain ⟨ways, _⟩ := copying.underway.sound.ways_of_write done
      have copied : before.Copying source target place copy after :=
        ⟨copying.underway.write legal done, copying.opens.carry ways cwd⟩
      exact ⟨copied, puts_file (by rw [List.append_nil, image?, held]; rfl)
        (fun below more => image?_below (by rw [held]; simp) more) bare entries⟩
    · rw [seen] at other
      obtain rfl := Except.ok.inj other
      refine ⟨copying, puts_nothing (fun below => ?_) free⟩
      by_cases top : below = []
      · rw [top, List.append_nil, image?, held]
        exact Entry.copied?_special special
      · exact image?_below (by rw [held]; simp) top

/-- Copying a source without links leaves its image where the target leads. -/
theorem copyTree_image (standing : files.Standing) (opens : files.Opens source place)
    (linkless : files.root.Linkless place)
    (short : (files.absolute source).bytes.length < pathLimit) (written : target.bytes ≠ [])
    (replaceable : files.Replaceable target) :
    (copyTree source target).Ensures files
      (fun _ after => ∃ copy, files.Copying source target place copy after ∧
        files.Mirrors place after copy)
      fun _ => True := by
  refine copyTree_replaces standing opens short written replaceable.short trivial
    fun top names front tail accepted foretold apart _ => ?_
  refine replaceTree_ensures standing.sound opens replaceable foretold (fun _ _ => trivial)
    fun now goal reached entries prepared listing made => ?_
  have outside : ∀ below, now.root.entry? (place ++ below) = files.root.entry? (place ++ below) :=
    fun below =>
    prepared.confined.outside _ (apart.of_below (List.prefix_append _ _)).1
  have still : now.Opens source place := by
    obtain ⟨inner, stat, _⟩ := opened_ok listing
    have found := opens_iff.2 ⟨inner, stat⟩
    rwa [← opens.unique (found.carry prepared.confined.ways prepared.confined.cwd.symm)] at found
  obtain ⟨underway, bare⟩ := prepared.underway accepted made
  have grows : now.Grows (now.makeDirectories (copyPath target [])).2 := grows_of_makeDirectories
  generalize (now.makeDirectories (copyPath target [])).2 = middle at underway bare grows ⊢
  have held : files.root.entry? (place ++ []) = some .directory := by simpa using opens.directory
  rw [← Path.descend_nil source] at listing
  obtain ⟨nodup, listed⟩ :=
    still.opened_below prepared.confined.sound outside held (by simp) listing
  refine (copyEntries_puts (files.Copying source target place (top ++ names))
    (fun below => files.image? (place ++ below)) (image?_eq_directory.2 held) nodup
    (fun name below absent => image?_listed listed absent below)
    (fun name entry state member copied stands vacant => ?_)
    ⟨underway, still.carry grows.ways grows.cwd⟩ underway.opens.directory bare).imp ?_
    fun _ _ => trivial
  · change (copyFrom source target _ _ (source.descend ([] ++ [name])) entry).Ensures state _ _
    refine (copyFrom_image standing.sound linkless apart (Path.check_eq_ok_iff.1 opens.accepted).2.1
      copied ((listed name entry).1 member) (by simpa using stands) vacant).imp
        (fun _ after ended => ?_) fun _ _ => trivial
    simpa using ended
  · rintro _ after ⟨copied, puts⟩
    exact ⟨top ++ names, copied, puts.inside⟩

end FileSystem
end Retarget
