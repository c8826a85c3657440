import Retarget.CommandLine.Execution
import Retarget.Proofs.Session.Except
import Retarget.Proofs.Session.Looking

/-!
What a command works on. Loading a configuration and selecting jobs only look at the file system, so
what they come to is told by the files and the options alone.
-/
namespace Retarget

open Act

/-- A step whose failure is handled goes on from the state it leaves, whether it fails or not. -/
theorem Act.run_handled {ε α β : Type} (act : Act ε α) (handle : Except ε α → StateM Session β)
    (session : Session) : (act.run >>= handle).run session =
      (handle (act.runOn session).1).run (act.runOn session).2 := rfl

namespace Configuration

variable {files : FileSystem} {path : Path} {configuration : Configuration}

theorem looks_read (text : String) : (read text).Looks :=
  (looks_noteAll _).bind fun _ => looks_ofExcept _

theorem sees_read (text : String) (files : FileSystem) :
    (read text).sees files = (ofDocument text).1 :=
  (sees_bind (looks_noteAll _) (fun _ => looks_ofExcept _) files).trans (sees_ofExcept _)

/-- What is done with the contents of a file. -/
def ofContents (path : Path) (contents : Bytes) : Act ConfigurationError Configuration :=
  match text? contents with
  | none => throw (.unreadable path .contentsNotText)
  | some text => do
    note (.configurationLoaded path)
    (read text).adapt .document

theorem load_eq (path : Path) : load path =
    (examine fun files => (files.read path).mapError (.unreadable path)) >>= ofContents path := rfl

theorem looks_ofContents (path : Path) (contents : Bytes) : (ofContents path contents).Looks := by
  unfold ofContents
  cases text? contents with
  | none => exact looks_throw _
  | some text => exact (looks_note _).bind fun _ => (looks_read text).adapt _

theorem looks_load (path : Path) : (load path).Looks :=
  (looks_examine _).bind (looks_ofContents path)

theorem sees_ofContents_iff {contents : Bytes} :
    (ofContents path contents).sees files = .ok configuration ↔
      ∃ text, utf8 text = contents ∧ (ofDocument text).1 = .ok configuration := by
  simp only [← text?_eq_some_iff]
  unfold ofContents
  cases text? contents with
  | none => simp [sees_throw]
  | some text =>
    have seen : sees (do
        note (.configurationLoaded path)
        (read text).adapt .document : Act ConfigurationError Configuration) files =
          (ofDocument text).1.mapError .document := by
      rw [sees_bind (looks_note _) fun _ => (looks_read text).adapt _]
      exact congrArg (Except.mapError _) (sees_read text files)
    rw [seen, mapError_eq_ok]
    simp

/-- A configuration is loaded from a file that can be read, is text and makes a valid document. -/
theorem sees_load_iff : (load path).sees files = .ok configuration ↔
    ∃ text, files.read path = .ok (utf8 text) ∧ (ofDocument text).1 = .ok configuration := by
  rw [load_eq, sees_bind (looks_examine _) (looks_ofContents path), sees_examine, bind_eq_ok]
  constructor
  · rintro ⟨contents, read, loaded⟩
    obtain ⟨text, rfl, made⟩ := sees_ofContents_iff.1 loaded
    exact ⟨text, mapError_eq_ok.1 read, made⟩
  · rintro ⟨text, read, made⟩
    exact ⟨utf8 text, mapError_eq_ok.2 read, sees_ofContents_iff.2 ⟨text, rfl, made⟩⟩

end Configuration

namespace Execution

variable {files : FileSystem} {options : Options} {configuration : Configuration} {jobs : List Job}

/-- The configuration that options ask for: what the file they name says, or the built-in one
without a file, and seen from the root they name, if they name one. -/
def Loads (files : FileSystem) (options : Options) (configuration : Configuration) : Prop :=
  ∃ loaded,
    (match options.configuration with
      | some path => ∃ text, files.read path = .ok (utf8 text) ∧
          (Configuration.ofDocument text).1 = .ok loaded
      | none => loaded = Configuration.builtIn) ∧
    configuration = { loaded with root := options.root.getD loaded.root }

/-- The jobs that options select: the one they name, or all of them. -/
def Selects (options : Options) (configuration : Configuration) (jobs : List Job) : Prop :=
  match options.job with
  | some name => ∃ job, configuration.job? name = some job ∧ jobs = [job]
  | none => jobs = configuration.jobs

/-- The configuration before it is seen from another root. -/
def loading (options : Options) : Act Complaint Configuration :=
  match options.configuration with
  | some path => (Configuration.load path).adapt (.loading path)
  | none => pure Configuration.builtIn

theorem looks_loading (options : Options) : (loading options).Looks := by
  unfold loading
  cases options.configuration with
  | none => exact looks_pure _
  | some path => exact (Configuration.looks_load path).adapt _

theorem configuration_eq (options : Options) : Execution.configuration options =
    loading options >>= fun loaded =>
      pure { loaded with root := options.root.getD loaded.root } := by
  unfold Execution.configuration loading
  cases options.configuration <;> cases options.root <;> rfl

theorem looks_configuration (options : Options) : (Execution.configuration options).Looks := by
  rw [configuration_eq]
  exact (looks_loading options).bind fun _ => looks_pure _

theorem sees_configuration_iff : (Execution.configuration options).sees files =
    .ok configuration ↔ Loads files options configuration := by
  rw [configuration_eq, sees_bind (looks_loading options) fun _ => looks_pure _, bind_eq_ok]
  refine exists_congr fun loaded => and_congr ?_ sees_pure_iff
  unfold loading
  cases options.configuration with
  | none => exact sees_pure_iff
  | some path =>
    rw [sees_adapt, mapError_eq_ok]
    exact Configuration.sees_load_iff

theorem selected_eq_ok : selected options configuration = .ok jobs ↔
    Selects options configuration jobs := by
  unfold selected Selects Configuration.findJob
  cases options.job with
  | none => simp [eq_comm]
  | some name =>
    cases found : configuration.job? name with
    | none => simp [found, Except.mapError, Except.map]
    | some job => simp [found, Except.mapError, Except.map, eq_comm]

theorem looks_selection (options : Options) : (selection options).Looks :=
  (looks_configuration options).bind fun _ => (looks_ofExcept _).bind fun _ => looks_pure _

theorem sees_selection_iff {root : Path} : (selection options).sees files = .ok (root, jobs) ↔
    ∃ configuration, Loads files options configuration ∧ configuration.root = root ∧
      Selects options configuration jobs := by
  have onward : ∀ configuration, (do
      pure (configuration.root, ← ofExcept (selected options configuration)) :
        Act Complaint (Path × List Job)).Looks := fun _ =>
    (looks_ofExcept _).bind fun _ => looks_pure _
  rw [selection, sees_bind (looks_configuration options) onward, bind_eq_ok]
  refine exists_congr fun configuration => and_congr sees_configuration_iff ?_
  rw [sees_bind (looks_ofExcept _) fun _ => looks_pure _, sees_ofExcept, bind_eq_ok]
  simp only [selected_eq_ok]
  constructor
  · rintro ⟨jobs, selects, same⟩
    cases same
    exact ⟨rfl, selects⟩
  · rintro ⟨rfl, selects⟩
    exact ⟨jobs, selects, rfl⟩

end Execution
end Retarget
