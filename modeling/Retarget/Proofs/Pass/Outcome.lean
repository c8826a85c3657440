import Retarget.Pass.Rename
import Retarget.Pass.Rewrite
import Retarget.Proofs.Pass.Copying
import Retarget.Proofs.Session.Outcome

/-!
The outcome of the passes. None of them looks at the log, so what a pass gives and leaves depends on
the files alone; and copying, once the way is clear, depends on little of them: on what the source
is found to be, and on the state in which the target has been made.
-/
namespace Retarget.Pass

open Act FileSystem

variable {files now after : FileSystem} {source target : Path}

/-! ## Passes do not look at the log -/

theorem blind_clear (target : Path) : (clear target).Blind := by
  refine (blind_look _).bind fun directory => ?_
  split
  · exact (blind_note _).bind fun _ => blind_changePartly _ _
  · refine (blind_look _).bind fun present => ?_
    split
    · exact blind_change _ _
    · exact blind_pure _

theorem blind_copyFile (path copy relative : Path) : (copyFile path copy relative).Blind :=
  (blind_examine _).bind fun _ => (blind_change _ _).bind fun _ => blind_note _

theorem blind_copyEntries {depth : Nat}
    (blind : ∀ above path listed, (copyFrom source target depth above path listed).Blind)
    (above : List Ancestor) (path : Path) (entries : List (Bytes × Entry)) :
    (copyEntries source target depth above path entries).Blind :=
  Blind.foldlM (fun _ _ => (blind _ _ _).bind fun _ => blind_pure _) entries 0

theorem blind_copyFrom (source target : Path) (depth : Nat) (above : List Ancestor) (path : Path)
    (listed : Entry) : (copyFrom source target depth above path listed).Blind := by
  induction depth generalizing above path listed with
  | zero => exact blind_throw _
  | succ depth ih =>
    unfold copyFrom
    refine (blind_examine _).bind fun entry => ?_
    cases entry with
    | directory =>
      refine (blind_look _).bind fun listing => (blind_changePartly _ _).bind fun _ => ?_
      exact (blind_ofExcept _).bind fun _ => blind_copyEntries ih _ _ _
    | leaf content =>
      cases content with
      | file contents => exact (blind_copyFile _ _ _).bind fun _ => blind_pure _
      | link link => exact blind_pure _
      | special => exact blind_pure _

/-- Copying when the way is clear. -/
def copyInto (source target : Path) : Act Failure Nat := do
  note (.copying source target)
  let (_, top) ← examine fun files => (files.lstat source).mapError fun cause =>
    .walk (.refused source cause)
  copyFrom source target pathLimit [] source top.entry

theorem replaceTree_eq (source target : Path) :
    replaceTree source target = clear target >>= fun _ => copyInto source target := rfl

theorem blind_copyInto (source target : Path) : (copyInto source target).Blind :=
  (blind_note _).bind fun _ => (blind_examine _).bind fun _ => blind_copyFrom _ _ _ _ _ _

theorem blind_replaceTree (source target : Path) : (replaceTree source target).Blind :=
  (blind_clear target).bind fun _ => blind_copyInto source target

theorem blind_copyTree (source target : Path) : (copyTree source target).Blind :=
  (blind_look _).bind fun _ => Blind.unless <| (blind_examine _).bind fun _ =>
    (blind_examine _).bind fun _ => Blind.unless (blind_replaceTree source target)

theorem blind_renameFiles (directory : Path) (naming : Naming) :
    (renameFiles directory naming).Blind := by
  refine (blind_note _).bind fun _ => (blind_examine _).bind fun files => Blind.mapM ?_ _
  intro candidate
  have changed : ∀ overwrote, (do
      note (.writing candidate.target)
      change candidate.source (·.rename candidate.source candidate.target)
      pure ⟨candidate.source.relativeTo directory, candidate.target.relativeTo directory,
        overwrote⟩ : Act Failure RenamedFile).Blind :=
    fun _ => (blind_note _).bind fun _ => (blind_change _ _).bind fun _ => blind_pure _
  refine (blind_look _).bind fun overwrote => ?_
  dsimp only
  split
  · exact (blind_note _).bind fun _ => changed _
  · exact changed _

theorem blind_rewriteFiles (directory : Path) (naming : Naming) (table : Table) :
    (rewriteFiles directory naming table).Blind := by
  refine (blind_note _).bind fun _ => (blind_examine _).bind fun files =>
    (Blind.mapM ?_ _).bind fun _ => blind_pure _
  refine fun file => (blind_examine _).bind fun contents => ?_
  dsimp only
  split
  · exact (blind_note _).bind fun _ => blind_pure _
  · split
    · exact blind_pure _
    · exact (blind_note _).bind fun _ => (blind_change _ _).bind fun _ => blind_pure _

/-! ## What copying depends on -/

theorem outcome_copyTree {first second : Path} (directory : files.isDirectory source = true)
    (seen : files.forecast source = .ok first) (foreseen : files.forecast target = .ok second)
    (apart : overlapping first second = false) :
    (copyTree source target).outcome files = (replaceTree source target).outcome files := by
  have ran : (copyTree source target).runOn ⟨files, []⟩ =
      (replaceTree source target).runOn ⟨files, []⟩ := by
    refine (runOn_bind_ok (runOn_look directory [])).trans ?_
    refine (runOn_bind_ok (runOn_examine (mapError_eq_ok.2 seen) [])).trans ?_
    refine (runOn_bind_ok (runOn_examine (mapError_eq_ok.2 foreseen) [])).trans ?_
    rw [apart]
    rfl
  unfold outcome
  rw [ran]

theorem outcome_clear (directory : files.isDirectory target = true)
    (removed : files.removeTree target = (.ok (), after)) :
    (clear target).outcome files = (.ok (), after) := by
  have ran : (clear target).runOn ⟨files, []⟩ = (.ok (), ⟨after, [.removing target]⟩) := by
    refine (runOn_bind_ok (runOn_look directory [])).trans ?_
    refine (runOn_bind_ok rfl).trans ?_
    rw [runOn_changePartly, removed]
    rfl
  unfold outcome
  rw [ran]

/-- Once the target is made, copying goes on with the entries that the source had before. -/
theorem outcome_copyInto (written : source.bytes ≠ []) {place : Place} {node : Node}
    {reached : Place} {entries : List (Bytes × Entry)}
    (found : files.lstat source = .ok (place, node))
    (seen : followed files [] source node.entry = .ok .directory)
    (listing : opened files source = .ok (reached, entries))
    (made : files.makeDirectories (copyPath target []) = (.ok (), after)) :
    (copyInto source target).outcome files =
      (copyEntries source target 4095 [⟨source, reached⟩] source entries).outcome after := by
  have top : target.join (source.relativeTo source) = copyPath target [] := by
    have below : (source.descend []).relativeTo source = ⟨[Path.slash].intercalate []⟩ :=
      Path.relativeTo_descend written (by simp)
    rw [Path.descend_nil] at below
    rw [copyPath, below]
  have ran : (copyInto source target).runOn ⟨files, []⟩ =
      (copyEntries source target 4095 [⟨source, reached⟩] source entries).runOn
        ⟨after, [.copying source target]⟩ := by
    refine (runOn_bind_ok rfl).trans ?_
    refine (runOn_bind_ok (runOn_examine (mapError_eq_ok.2 found) _)).trans ?_
    refine (runOn_bind_ok (runOn_examine (mapError_eq_ok.2 seen) _)).trans ?_
    refine (runOn_bind_ok (runOn_look listing _)).trans ?_
    have grown : (changePartly (target.join (source.relativeTo source))
        (·.makeDirectories (target.join (source.relativeTo source)))).runOn
          ⟨files, [.copying source target]⟩ = (.ok (), ⟨after, [.copying source target]⟩) := by
      rw [runOn_changePartly, top, made]
    exact (runOn_bind_ok grown).trans rfl
  unfold outcome
  rw [ran]
  exact (blind_copyEntries (blind_copyFrom source target 4095) _ _ _).same after _

end Retarget.Pass
