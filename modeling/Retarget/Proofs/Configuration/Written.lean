import Retarget.Configuration.Document
import Retarget.Proofs.Substitution.Insertion
import Retarget.Proofs.Text.Lossy
import Retarget.Proofs.Toml.Document

/-!
A configuration written as a document and read back. The document states every field of every job,
so nothing is left to defaults, and the tables of a configuration repeat no pattern, so rebuilding
them merges nothing.
-/
namespace Retarget

open Toml (Value quoted array inlineTable depthLimit Bare Reads ReadsAll reads_quoted reads_array
  reads_inlineTable read_document)

/-! ## Writing -/

/-- The fields of an entry as they are written. -/
def Substitution.written (entry : Substitution) : List (String × List Char) :=
  [("from", quoted entry.pattern), ("to", quoted entry.replacement)]

/-- The fields of an entry as they are read. -/
def Substitution.stated (entry : Substitution) : List (String × Value) :=
  [("from", .string entry.pattern), ("to", .string entry.replacement)]

def Job.written (job : Job) : List (String × List Char) :=
  [("name", quoted job.name), ("base", quoted job.base.display), ("source", quoted job.source),
    ("target", quoted job.target), ("source_prefix", quoted job.naming.source),
    ("target_prefix", quoted job.naming.target),
    ("replace", array (job.table.entries.map fun entry => inlineTable entry.written))]

def Job.stated (job : Job) : List (String × Value) :=
  [("name", .string job.name), ("base", .string job.base.display), ("source", .string job.source),
    ("target", .string job.target), ("source_prefix", .string job.naming.source),
    ("target_prefix", .string job.naming.target),
    ("replace", .array (job.table.entries.map fun entry => .table entry.stated))]

/-- The document of a configuration: the root, and a table for each job with all its fields. -/
def Configuration.document (configuration : Configuration) : String :=
  String.ofList (Toml.document [("root", quoted configuration.root.display)] "job"
    (configuration.jobs.map Job.written))

/-! ## Fields -/

/-- No key of the document needs quotes. -/
theorem bare_keys : (∀ key ∈ ["root", "job"], Bare key) ∧ (∀ key ∈ ["from", "to"], Bare key) ∧
    ∀ key ∈ Shape.jobFields, Bare key := by
  decide

theorem Substitution.readsAll_written (entry : Substitution) {depth : Nat} :
    ReadsAll depth entry.written entry.stated := by
  have bare := bare_keys.2.1
  exact .cons (bare "from" (by simp)) (reads_quoted _) (.cons (bare "to" (by simp)) (reads_quoted _)
    .nil)

theorem Substitution.reads_written (entry : Substitution) {depth : Nat} :
    Reads (depth + 1) (inlineTable entry.written) (.table entry.stated) := by
  refine reads_inlineTable entry.readsAll_written ?_
  show ["from", "to"].Nodup
  decide

theorem Job.readsAll_written (job : Job) : ReadsAll (depthLimit - 1) job.written job.stated := by
  have table : Reads (depthLimit - 1)
      (array (job.table.entries.map fun entry => inlineTable entry.written))
      (.array (job.table.entries.map fun entry => .table entry.stated)) :=
    reads_array _ _ _ fun entry _ => entry.reads_written
  have bare := bare_keys.2.2
  simp only [Shape.jobFields, List.forall_mem_cons] at bare
  obtain ⟨name, base, source, target, sourceMark, targetMark, replace, _⟩ := bare
  exact .cons name (reads_quoted _) (.cons base (reads_quoted _) (.cons source (reads_quoted _)
    (.cons target (reads_quoted _) (.cons sourceMark (reads_quoted _)
    (.cons targetMark (reads_quoted _) (.cons replace table .nil))))))

theorem Job.nodup_stated (job : Job) : (job.stated.map Prod.fst).Nodup := by
  show Shape.jobFields.Nodup
  decide

theorem Configuration.read_document (configuration : Configuration)
    (nonempty : configuration.jobs ≠ []) :
    Toml.read configuration.document = some [("root", .string configuration.root.display),
      ("job", .array (configuration.jobs.map fun job => .table job.stated))] := by
  have bare := bare_keys.1
  have apart : "job" ∉ ["root"] := by decide
  exact Toml.read_document (bare "job" (by simp))
    (.cons (bare "root" (by simp)) (reads_quoted _) .nil) (List.nodup_singleton _) apart Job.written Job.stated nonempty
    (fun job _ => job.readsAll_written) fun job _ => job.nodup_stated

/-! ## Shapes -/

theorem Path.ofText_display {path : Path} (isText : path.text? ≠ none) :
    ofText path.display = path := by
  obtain ⟨text, read⟩ := Option.ne_none_iff_exists'.1 isText
  have spelled : utf8 text = path.bytes := text?_eq_some_iff.1 read
  rw [display, ofText, ← spelled, lossyText_utf8, spelled]

namespace Shape

theorem each_pure {α : Type} {read : Value → Shaped α} {β : Type} (stated : β → Value)
    (result : β → α) {items : List β}
    (reads : ∀ item ∈ items, read (stated item) = pure (result item)) :
    each read (items.map stated) = pure (items.map result) := by
  induction items with
  | nil => rfl
  | cons first rest ih =>
    have onward := ih fun item member => reads item (List.mem_cons_of_mem _ member)
    rw [List.map_cons, each, reads first List.mem_cons_self, pure_bind, onward, pure_bind]
    rfl

theorem replacement_stated (entry : Substitution) :
    replacement (.table entry.stated) = pure entry := rfl

theorem table_stated (table : Table) :
    Shape.table (.array (table.entries.map fun entry => .table entry.stated)) = pure table := by
  have entries : each replacement (table.entries.map fun entry => .table entry.stated) =
      pure (table.entries.map id) := each_pure _ _ fun entry _ => replacement_stated entry
  rw [List.map_id] at entries
  have noted : (modify (· ++ []) : Shaped PUnit) = pure ⟨⟩ := by
    funext repeats
    show (Except.ok PUnit.unit, repeats ++ []) = _
    rw [List.append_nil]
    rfl
  rw [Shape.table, sequence, pure_bind, entries, pure_bind, Table.ofList_entries]
  simp only [noted, pure_bind]

theorem job_stated {job : Job} (isText : job.base.text? ≠ none) :
    Shape.job (.table job.stated) = pure job := by
  simp [Shape.job, Toml.Value.fields?, Job.stated, byName, JobDraft.set, text, path, table_stated,
    Path.ofText_display isText, JobDraft.finish, required]

theorem configuration_stated {given : Configuration} (isText : given.root.text? ≠ none)
    (areTexts : ∀ job ∈ given.jobs, job.base.text? ≠ none) :
    Shape.configuration [("root", .string given.root.display),
      ("job", .array (given.jobs.map fun job => .table job.stated))] = pure given := by
  have jobs : each Shape.job (given.jobs.map fun job => .table job.stated) =
      pure (given.jobs.map id) := each_pure _ _ fun job member => job_stated (areTexts job member)
  rw [List.map_id] at jobs
  simp [configuration, byName, ConfigurationDraft.set, path, sequence, jobs,
    Path.ofText_display isText]

end Shape

/-- A valid configuration whose paths are text is what its document says, jobs and entries in their
order, and no pattern is reported as repeated. -/
theorem Configuration.ofDocument_document {configuration : Configuration}
    (valid : configuration.violation? = none) (isText : configuration.root.text? ≠ none)
    (areTexts : ∀ job ∈ configuration.jobs, job.base.text? ≠ none) :
    ofDocument configuration.document = (.ok configuration, []) := by
  have nonempty : configuration.jobs ≠ [] := by
    intro empty
    rw [violation?, if_pos empty] at valid
    cases valid
  have shaped : (Shape.configuration _).run.run [] =
      (Except.ok configuration, ([] : List Repeat)) :=
    congrArg (fun shape => shape.run.run []) (Shape.configuration_stated isText areTexts)
  rw [ofDocument, configuration.read_document nonempty]
  simp only [shaped, valid]

example : Configuration.document ⟨Path.ofText "src", [⟨"j", Path.ofText "b", "d", "f", ⟨"D", "F"⟩,
    ⟨[⟨"Dx", "\""⟩, ⟨"y", ""⟩], by decide⟩⟩]⟩ =
      "root = \"src\"\n\n[[job]]\nname = \"j\"\nbase = \"b\"\nsource = \"d\"\ntarget = \"f\"\n" ++
        "source_prefix = \"D\"\ntarget_prefix = \"F\"\n" ++
        "replace = [\x7b from = \"Dx\", to = \"\\\"\" \x7d, " ++
        "\x7b from = \"y\", to = \"\" \x7d]\n" := by
  decide +kernel

/-- Two jobs, one with nothing to substitute, the other with every kind of escape, a pattern of
quotes alone and a replacement by nothing. -/
def awkward : Configuration :=
  ⟨Path.ofText "a \"root\"\\\t", [Job.named "first" (Path.ofText ""),
    ⟨"]\n[[job]]", Path.ofText "\u0000\x7fé", "#", "\x08\x0c\r", ⟨"\"", "= 1"⟩,
      ⟨[⟨"\"\"\"", ""⟩, ⟨"\x1b", "\"\"\""⟩], by decide⟩⟩]⟩

theorem ofDocument_document_awkward :
    awkward.violation? = none ∧
      Configuration.ofDocument awkward.document = (.ok awkward, []) := by
  have valid : awkward.violation? = none := by decide
  refine ⟨valid, Configuration.ofDocument_document valid ?_ ?_⟩
  · simp [awkward, Path.text?, Path.ofText]
  · simp [awkward, Job.named, Path.text?, Path.ofText]

end Retarget
