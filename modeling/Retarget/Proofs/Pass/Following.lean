import Retarget.Proofs.Pass.Duplicate
import Retarget.Proofs.Pass.Stocking
import Retarget.Proofs.Resolution.Skirting

/-!
What copying a source with links makes: under each name the directory or the regular file that the
name leads to from the source, links followed, and nothing else. While the copy is being made, paths
into the source are looked up again and again; as long as none of them comes by the copy, each leads
where it led before.
-/
namespace Retarget

namespace FileSystem

open Pass Act

variable {files now after : FileSystem} {source target path : Path}
  {place copy above names below reached : Place} {name : Bytes} {entry : Entry} {node : Node}

/-! ## What a source shows under a name -/

/-- What a copy has of what names lead to from a source. -/
def seen? (files : FileSystem) (source : Path) (names : Place) : Option Entry :=
  if ∀ name ∈ names, Tree.Legal name then
    match files.stat (source.descend names) with
    | .ok (_, node) => node.entry.copied?
    | .error _ => none
  else none

theorem seen?_of_stat (legal : ∀ name ∈ names, Tree.Legal name)
    (found : files.stat (source.descend names) = .ok (reached, node)) :
    files.seen? source names = node.entry.copied? := by
  rw [seen?, if_pos legal, found]

theorem seen?_eq_some : files.seen? source names = some entry ↔
    (∀ name ∈ names, Tree.Legal name) ∧ ∃ reached node,
      files.stat (source.descend names) = .ok (reached, node) ∧ node.entry.copied? = some entry := by
  unfold seen?
  split
  · rename_i legal
    cases found : files.stat (source.descend names) with
    | error cause => simp
    | ok place => simpa [Prod.ext_iff] using fun _ => legal
  · rename_i illegal
    simp [illegal]

theorem bytes_descend_ne_nil (written : source.bytes ≠ []) (legal : ∀ name ∈ names, Tree.Legal name) :
    (source.descend names).bytes ≠ [] := by
  induction names using List.reverseRecOn with
  | nil => exact written
  | append_singleton above name _ =>
    rw [Path.descend_concat]
    exact Path.bytes_joinName_ne_nil _ (legal name (by simp))

/-- Where names lead somewhere, the first of them lead to a directory, and the next stands in it. -/
theorem opens_above (written : source.bytes ≠ [])
    (legal : ∀ other ∈ above ++ name :: below, Tree.Legal other)
    (found : files.stat (source.descend (above ++ name :: below)) = .ok (reached, node)) :
    ∃ place, files.Opens (source.descend above) place ∧
      files.root.entry? (place ++ [name]) ≠ none := by
  induction below using List.reverseRecOn generalizing reached node with
  | nil =>
    rw [Path.descend_concat] at found
    have front : (source.descend above).bytes ≠ [] := bytes_descend_ne_nil written
      fun other member => legal other (by simp [member])
    obtain ⟨place, opens, _, there⟩ := names_of_stat front (legal name (by simp)) found
    exact ⟨place, opens, there⟩
  | append_singleton more last ih =>
    have shorter : ∀ other ∈ above ++ name :: more, Tree.Legal other := fun other member =>
      legal other (by simp at member ⊢; tauto)
    rw [← List.cons_append, ← List.append_assoc, Path.descend_concat] at found
    obtain ⟨place, opens, _⟩ := names_of_stat (bytes_descend_ne_nil written shorter)
      (legal last (by simp)) found
    obtain ⟨inner, stat⟩ := opens_iff.1 opens
    exact ih shorter stat

/-- Nothing is seen under a name that does not stand in its directory. -/
theorem seen?_unlisted (written : source.bytes ≠ [])
    (opens : files.Opens (source.descend above) place)
    (free : files.root.entry? (place ++ [name]) = none) (below : Place) :
    files.seen? source (above ++ name :: below) = none := by
  by_contra stands
  obtain ⟨entry, seen⟩ := Option.ne_none_iff_exists'.1 stands
  obtain ⟨legal, reached, node, found, _⟩ := seen?_eq_some.1 seen
  obtain ⟨other, also, there⟩ := opens_above written legal found
  obtain rfl := also.unique opens
  exact there free

/-- Nothing is seen below what is no directory. -/
theorem seen?_below (written : source.bytes ≠ [])
    (closed : ∀ place, ¬files.Opens (source.descend above) place) (more : below ≠ []) :
    files.seen? source (above ++ below) = none := by
  by_contra stands
  obtain ⟨name, rest, rfl⟩ := List.exists_cons_of_ne_nil more
  obtain ⟨entry, seen⟩ := Option.ne_none_iff_exists'.1 stands
  obtain ⟨legal, reached, node, found, _⟩ := seen?_eq_some.1 seen
  obtain ⟨place, opens, _⟩ := opens_above written legal found
  exact closed place opens

/-! ## Sources that are not disturbed -/

/-- Neither a source nor a link met in it comes by the place of a copy. -/
structure Undisturbed (files : FileSystem) (source : Path) (copy : Place) : Prop where
  top : files.Skirts source copy
  links : ∀ names reached link, (∀ name ∈ names, Tree.Legal name) →
    files.lstat (source.descend names) = .ok (reached, .leaf (.link link)) →
    files.Skirts (source.descend names) copy

/-- With a name more that stands in its directory, a path into the source stays fixed. -/
theorem Undisturbed.fixed (undisturbed : files.Undisturbed source copy) (standing : files.Standing)
    (legal : ∀ other ∈ above ++ [name], Tree.Legal other)
    (fixed : files.Fixed (source.descend above) copy)
    (opens : files.Opens (source.descend above) place)
    (held : files.root.entry? (place ++ [name]) = some entry) :
    files.Fixed (source.descend (above ++ [name])) copy := by
  have last : Tree.Legal name := legal name (by simp)
  by_cases linked : ∃ link, entry = .leaf (.link link)
  · obtain ⟨link, rfl⟩ := linked
    intro now reached node laid found
    have given := found
    rw [Path.descend_concat] at given
    obtain ⟨_, names⟩ := fixed.names opens last laid given
    have listed := names.lstat_closed (Path.endsWithSlash_joinName _ last)
      (Tree.entry?_eq_leaf.1 held)
    rw [← Path.descend_concat] at listed
    exact (undisturbed.links _ _ link legal listed).fixed standing now reached node laid found
  · rw [Path.descend_concat]
    exact fixed.plain opens last held fun link same => linked ⟨link, same⟩

/-- What an entry is found to be while the copy is made is what its path led to before. -/
theorem entry_of_followed (fixed : files.Fixed path copy) (opens : files.Opens path place)
    (held : files.root.entry? (place ++ [name]) = some entry) (legal : Tree.Legal name)
    (further : files.Fixed (path.joinName name) copy) (laid : files.Laid copy now)
    {ancestors : List Ancestor} {seen : Entry}
    (saw : followed now ancestors (path.joinName name) entry = .ok seen)
    (found : files.stat (path.joinName name) = .ok (reached, node)) : node.entry = seen := by
  by_cases linked : ∃ link, entry = .leaf (.link link)
  · obtain ⟨link, rfl⟩ := linked
    unfold followed at saw
    cases also : now.stat (path.joinName name) with
    | error cause =>
      rw [also] at saw
      cases saw
    | ok there =>
      obtain ⟨other, last⟩ := there
      obtain ⟨_, same, stood, alike⟩ := further now other last laid also
      obtain ⟨_, rfl⟩ := Prod.mk.inj (Except.ok.inj (stood.symm.trans found))
      rw [also] at saw
      rw [alike]
      cases last with
      | leaf content => exact Except.ok.inj saw
      | branch inner =>
        dsimp only at saw
        split at saw
        · cases saw
        · exact Except.ok.inj saw
  · have plain : ∀ link, entry ≠ .leaf (.link link) := fun link same => linked ⟨link, same⟩
    rw [followed_plain plain] at saw
    obtain ⟨names, _⟩ := fixed.names opens legal (.refl files copy) found
    obtain ⟨other, there, rfl⟩ := Option.map_eq_some_iff.1 held
    have also := stat_of_lstat (names.lstat_closed (Path.endsWithSlash_joinName path legal) there)
      fun link same => plain link (by rw [same]; rfl)
    obtain ⟨_, rfl⟩ := Prod.mk.inj (Except.ok.inj (also.symm.trans found))
    exact Except.ok.inj saw

/-! ## Copying what is seen -/

/-- A copy on its way, with everything outside its place as it was but for directories above it. -/
structure Placed (before : FileSystem) (target : Path) (copy : Place) (now : FileSystem) : Prop
    extends before.Underway target copy now where
  laid : before.Laid copy now

/-- An entry put in the copy changes nothing outside. -/
theorem Placed.put (placed : files.Placed target copy now) (underway : files.Underway target copy after)
    (entries : ∀ query, after.root.entry? query =
      if query = copy ++ names then some entry else now.root.entry? query) :
    files.Placed target copy after := by
  refine ⟨underway, underway.cwd, fun query outside => ?_⟩
  rw [entries, if_neg]
  · exact placed.laid.outside query outside
  · rintro rfl
    exact outside (List.prefix_append _ _)

/-- A directory that is opened while the copy is made lists what it held before. -/
theorem Laid.opened (laid : files.Laid copy now) (sound : now.Sound) (fixed : files.Fixed path copy)
    {entries : List (Bytes × Entry)} (listed : opened now path = .ok (reached, entries)) :
    files.Opens path reached ∧ (entries.map Prod.fst).Nodup ∧
      ∀ name entry, (name, entry) ∈ entries ↔
        files.root.entry? (reached ++ [name]) = some entry := by
  obtain ⟨reaches, nodup, stands⟩ := listed_of_opened sound listed
  have opens := fixed.opens laid reaches
  refine ⟨opens, nodup, fun name entry => ?_⟩
  rw [stands, laid.apart ((fixed.apart opens).below name)]

/-- Nothing is seen under a name that an opened directory does not list. -/
theorem seen?_absent (written : source.bytes ≠ []) (opens : files.Opens (source.descend above) place)
    {entries : List (Bytes × Entry)} (listed : ∀ name entry, (name, entry) ∈ entries ↔
      files.root.entry? (place ++ [name]) = some entry) (absent : name ∉ entries.map Prod.fst)
    (below : Place) : files.seen? source (above ++ name :: below) = none := by
  refine seen?_unlisted written opens ?_ below
  by_contra stands
  obtain ⟨entry, held⟩ := Option.ne_none_iff_exists'.1 stands
  exact absent (List.mem_map.2 ⟨(name, entry), (listed name entry).2 held, rfl⟩)

/-- A name that leads to what is not copied shows nothing, nor does anything below it. -/
theorem seen?_special (written : source.bytes ≠ []) {content : Leaf}
    (special : ∀ contents, content ≠ .file contents)
    (leads : ∀ reached node, files.stat (source.descend names) = .ok (reached, node) →
      node.entry = .leaf content) (below : Place) : files.seen? source (names ++ below) = none := by
  by_cases top : below = []
  · by_contra stands
    rw [top, List.append_nil] at stands
    obtain ⟨entry, seen⟩ := Option.ne_none_iff_exists'.1 stands
    obtain ⟨_, reached, node, found, copied⟩ := seen?_eq_some.1 seen
    rw [leads reached node found, Entry.copied?_special special] at copied
    cases copied
  · refine seen?_below written (fun place opens => ?_) top
    obtain ⟨inner, found⟩ := opens_iff.1 opens
    cases leads _ _ found

/-- Copying what stands under a name puts what the name leads to, links followed, under the name. -/
theorem copyFrom_follows (standing : files.Standing)
    (undisturbed : files.Undisturbed source copy) (written : source.bytes ≠ []) {depth : Nat}
    {ancestors : List Ancestor} (legal : ∀ other ∈ above ++ [name], Tree.Legal other)
    (fixed : files.Fixed (source.descend above) copy)
    (opens : files.Opens (source.descend above) place)
    (held : files.root.entry? (place ++ [name]) = some entry)
    (placed : files.Placed target copy now)
    (parent : now.root.entry? (copy ++ above) = some .directory)
    (vacant : now.root.entry? (copy ++ (above ++ [name])) = none) :
    (copyFrom source target depth ancestors (source.descend (above ++ [name])) entry).Ensures now
      (fun _ after => files.Placed target copy after ∧
        Puts (fun below => files.seen? source (above ++ [name] ++ below))
          (copy ++ (above ++ [name])) now after)
      fun _ => True := by
  induction depth generalizing now ancestors above name entry place with
  | zero => exact (ensures_throw _).2 trivial
  | succ depth ih =>
    have last : Tree.Legal name := legal name (by simp)
    have further := undisturbed.fixed standing legal fixed opens held
    have bare : now.root.Bare (copy ++ (above ++ [name])) := Tree.bare_of_none vacant
    -- What the entry is found to be, the path led to.
    have leads : ∀ seen, followed now ancestors (source.descend (above ++ [name])) entry = .ok seen →
        ∀ reached node, files.stat (source.descend (above ++ [name])) = .ok (reached, node) →
          node.entry = seen := by
      intro seen saw reached node found
      rw [Path.descend_concat] at saw found further
      exact entry_of_followed fixed opens held last further placed.laid saw found
    refine copyFrom_ensures depth (above ++ [name]) written legal trivial (fun _ => trivial)
      (fun reached entries directory listing made => ?_)
      (fun contents given after file read done => ?_) fun content other special => ?_
    · obtain ⟨reaches, nodup, listed⟩ := placed.laid.opened placed.sound further listing
      obtain ⟨inner, found⟩ := opens_iff.1 reaches
      have entriesMade := placed.makeDirectories_new legal parent made
      have onward := placed.put (placed.toUnderway.makeDirectories legal) entriesMade
      generalize (now.makeDirectories (copyPath target (above ++ [name]))).2 = middle
        at entriesMade onward ⊢
      have top : files.seen? source (above ++ [name] ++ []) = some .directory := by
        rw [List.append_nil, seen?_of_stat legal found]
        rfl
      refine (copyEntries_puts (files.Placed target copy)
        (fun below => files.seen? source (above ++ [name] ++ below)) top nodup
        (fun other below absent => by simpa using seen?_absent written reaches listed absent below)
        (fun other child state member copied stands free => ?_) onward
        (by rw [entriesMade, if_pos rfl]) (bare.put entriesMade)).imp ?_ fun _ _ => trivial
      · rw [← Path.descend_concat]
        rw [List.append_assoc] at free
        have named : ∀ next ∈ above ++ [name] ++ [other], Tree.Legal next := by
          intro next inside
          rcases List.mem_append.1 inside with old | new
          · exact legal next old
          · rw [List.mem_singleton.1 new]
            exact legal_of_opened placed.sound listing member
        refine (ih named further reaches ((listed other child).1 member) copied stands free).imp
          (fun _ after ended => ?_) fun _ _ => trivial
        simpa using ended
      · rintro _ after ⟨copied, puts⟩
        exact ⟨copied, puts.of_made entriesMade⟩
    · obtain ⟨⟨reached, node⟩, found, stood⟩ := bind_eq_ok.1 (further.read placed.laid read)
      obtain rfl := Node.entry_eq_leaf.1 (leads _ file reached node found)
      obtain rfl := Except.ok.inj stood
      have top : files.seen? source (above ++ [name] ++ []) = some (.leaf (.file contents)) := by
        rw [List.append_nil, seen?_of_stat legal found]
        rfl
      have closed : ∀ place, ¬files.Opens (source.descend (above ++ [name])) place := by
        intro place opens
        obtain ⟨inner, branch⟩ := opens_iff.1 opens
        cases leads _ file _ _ branch
      obtain ⟨_, entries⟩ := placed.write_new legal vacant done
      exact ⟨placed.put (placed.toUnderway.write legal done) entries,
        puts_file top (fun below => seen?_below written closed) bare entries⟩
    · exact ⟨placed, puts_nothing (seen?_special written special (leads _ other)) vacant⟩

/-! ## A whole tree -/

/-- A state in which a copy has under each name what the name leads to from the source, links
followed, and nothing else, whatever was there before; nothing else has changed, but that directories
above the copy that were missing are there. -/
structure Reproduces (before : FileSystem) (source : Path) (copy : Place) (after : FileSystem) :
    Prop where
  directory_iff : ∀ names, after.root.entry? (copy ++ names) = some .directory ↔
    (∀ name ∈ names, Tree.Legal name) ∧ ∃ reached, before.Opens (source.descend names) reached
  file_iff : ∀ names contents, after.root.entry? (copy ++ names) = some (.leaf (.file contents)) ↔
    (∀ name ∈ names, Tree.Legal name) ∧
      ∃ reached, before.stat (source.descend names) = .ok (reached, .leaf (.file contents))
  regular : after.Regular copy
  outside : ∀ query, ¬copy <+: query → after.root.entry? query = before.root.entry? query ∨
    before.root.entry? query = none ∧ query <+: copy ∧ after.root.entry? query = some .directory

/-- The names that lead to regular files from a source, links followed. -/
def filesFrom (files : FileSystem) (source : Path) : Set Place :=
  {names | (∀ name ∈ names, Tree.Legal name) ∧ ∃ reached contents,
    files.stat (source.descend names) = .ok (reached, .leaf (.file contents))}

/-- A copy that shows what is seen from the source reproduces it. -/
theorem Placed.reproduces (placed : files.Placed target copy after)
    (shows : ∀ names, after.root.entry? (copy ++ names) = files.seen? source names) :
    files.Reproduces source copy after := by
  refine ⟨fun names => ?_, fun names contents => ?_, fun below content held => ?_,
    fun query outside => ?_⟩
  · rw [shows, seen?_eq_some]
    refine and_congr_right fun _ => exists_congr fun reached => ?_
    rw [opens_iff]
    constructor
    · rintro ⟨node, found, copied⟩
      obtain ⟨inner, rfl⟩ := Node.entry_eq_directory.1 (Entry.copied?_eq_directory.1 copied)
      exact ⟨inner, found⟩
    · rintro ⟨inner, found⟩
      exact ⟨_, found, rfl⟩
  · rw [shows, seen?_eq_some]
    refine and_congr_right fun _ => exists_congr fun reached => ?_
    constructor
    · rintro ⟨node, found, copied⟩
      obtain ⟨_, same, isFile⟩ := Entry.copied?_eq_leaf.1 copied
      obtain rfl := Node.entry_eq_leaf.1 isFile
      rwa [← same] at found
    · intro found
      exact ⟨_, found, rfl⟩
  · rw [shows, seen?_eq_some] at held
    obtain ⟨_, _, _, _, copied⟩ := held
    obtain ⟨contents, same, _⟩ := Entry.copied?_eq_leaf.1 copied
    exact ⟨contents, same⟩
  · refine (placed.laid.outside query outside).imp id fun ⟨free, above⟩ => ⟨free, above, ?_⟩
    obtain ⟨below, rfl⟩ := above
    refine Tree.directory_above placed.opens.directory ?_
    rintro rfl
    exact outside (by simp)

/-- A copy that replaces what was there reproduces a source that it does not disturb, and counts the
files that names lead to from the source. -/
theorem replaceTree_follows {opened : Place} (standing : files.Standing)
    (opens : files.Opens source opened) (accepted : target.check = .ok ())
    (plain : ∀ place link, files.lstat target ≠ .ok (place, .leaf (.link link)))
    (steady : files.Steady target) (lands : files.Lands target copy)
    (undisturbed : files.Undisturbed source copy) :
    (replaceTree source target).Ensures files
      (fun count after => after.Opens target copy ∧ files.Reproduces source copy after ∧
        (files.filesFrom source).encard = count) fun _ => True := by
  have written := (Path.check_eq_ok_iff.1 opens.accepted).2.1
  refine replaceTree_begins opens ((clear_prepares standing.sound plain steady lands).imp
    (fun _ _ prepared => prepared) fun _ _ => trivial) ?_ (fun _ (_ : files.Spares copy _) => trivial)
    ?_
  · rintro now ⟨goal, prepared⟩
    exact ⟨goal, prepared.freed⟩
  rintro now reached entries ⟨goal, prepared⟩ listing made
  have cleared : files.Laid copy now :=
    ⟨prepared.confined.cwd, fun query outside => .inl (prepared.confined.outside query outside)⟩
  have fixed := undisturbed.top.fixed standing
  obtain ⟨reaches, nodup, listed⟩ := cleared.opened prepared.confined.sound fixed listing
  have legal : ∀ item ∈ entries, Tree.Legal item.1 :=
    fun _ => legal_of_opened prepared.confined.sound listing
  obtain ⟨underway, bare⟩ := prepared.underway accepted made
  have placed : files.Placed target copy (now.makeDirectories (copyPath target [])).2 :=
    ⟨underway, underway.cwd, fun query outside => prepared.freed.beside outside⟩
  obtain ⟨inner, stat⟩ := opens_iff.1 reaches
  rw [← Path.descend_nil source] at stat fixed reaches
  refine ((copyEntries_puts (files.Placed target copy) (files.seen? source)
    (seen?_of_stat (by simp) stat) nodup
    (fun name below absent => seen?_absent written reaches listed absent below)
    (fun name entry state member copied stands free => ?_) placed underway.opens.directory bare).and
    (copyEntries_stocks nodup legal (fun name entry state named held free => ?_) underway
      (vacant_of_bare underway.opens.directory bare))).imp ?_ fun _ _ => trivial
  · have named : ∀ other ∈ [] ++ [name], Tree.Legal other := by simpa using legal _ member
    exact copyFrom_follows standing undisturbed written named fixed reaches
      ((listed name entry).1 member) copied (by simpa using stands) free
  · rw [← Path.descend_nil source, ← Path.descend_concat]
    exact copyFrom_stocks written held (by simpa using named) free
  rintro count after ⟨⟨placed, puts⟩, _, stocks⟩
  have reproduces := placed.reproduces puts.inside
  refine ⟨placed.opens, reproduces, ?_⟩
  have same : files.filesFrom source = after.filesAt copy := by
    ext names
    constructor
    · rintro ⟨legal, reached, contents, found⟩
      exact ⟨contents, (reproduces.file_iff names contents).2 ⟨legal, reached, found⟩⟩
    · rintro ⟨contents, held⟩
      obtain ⟨legal, reached, found⟩ := (reproduces.file_iff names contents).1 held
      exact ⟨legal, reached, contents, found⟩
  rw [same, ← (filesAt_finite placed.sound.wellFormed copy).cast_ncard_eq, stocks.count]

end FileSystem
end Retarget
