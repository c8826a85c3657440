import Mathlib.Data.List.Nodup
import Retarget.Proofs.CommandLine.Selection
import Retarget.Proofs.Configuration.Constraints
import Retarget.Proofs.Distinct

/-!
What a configuration has to be. Jobs are checked in their order, each against those before it and
then by itself, and what is reported belongs to the first job that does not stand up. In a
configuration that passes, names tell the jobs apart; every configuration that is read has passed.
-/
namespace Retarget

/-- Jobs that may stand together. -/
structure Compatible (jobs : List Job) : Prop where
  distinct : (jobs.map Job.name).Nodup
  each : ∀ job ∈ jobs, job.Valid

/-- What is reported of a job behind others: that its name is taken, and only otherwise what is
wrong with itself. -/
inductive Job.Faulty (before : List Job) (job : Job) : Violation → Prop where
  | taken (known : job.name ∈ before.map name) : Faulty before job (.repeatedJob job.name)
  | own (fresh : job.name ∉ before.map name) {violation : Violation}
      (first : FirstBroken job.constraints violation) : Faulty before job violation

/-- What is reported of jobs behind others: what is wrong with the first that does not stand up. -/
def FirstFaulty (before jobs : List Job) (violation : Violation) : Prop :=
  ∃ front job rest, jobs = front ++ job :: rest ∧ Compatible (before ++ front) ∧
    job.Faulty (before ++ front) violation

variable {before jobs rest : List Job} {job : Job} {seen : List String} {violation : Violation}

theorem Compatible.front (compatible : Compatible (before ++ jobs)) : Compatible before := by
  obtain ⟨distinct, each⟩ := compatible
  rw [List.map_append] at distinct
  exact ⟨distinct.of_append_left, fun job member => each job (List.mem_append_left _ member)⟩

theorem compatible_concat_iff : Compatible (before ++ [job]) ↔
    Compatible before ∧ job.name ∉ before.map Job.name ∧ job.Valid := by
  constructor
  · intro compatible
    have distinct := compatible.distinct
    rw [List.map_append, List.map_singleton, ← List.concat_eq_append, List.nodup_concat] at distinct
    exact ⟨compatible.front, distinct.1, compatible.each job (by simp)⟩
  · rintro ⟨⟨distinct, each⟩, fresh, valid⟩
    refine ⟨?_, ?_⟩
    · rw [List.map_append, List.map_singleton, ← List.concat_eq_append, List.nodup_concat]
      exact ⟨fresh, distinct⟩
    · rw [List.forall_mem_append]
      exact ⟨each, by simpa using valid⟩

theorem firstFaulty_cons_iff (compatible : Compatible before) :
    FirstFaulty before (job :: rest) violation ↔ job.Faulty before violation ∨
      (Compatible (before ++ [job]) ∧ FirstFaulty (before ++ [job]) rest violation) := by
  constructor
  · rintro ⟨front, other, behind, whole, sound, faulty⟩
    cases front with
    | nil =>
      obtain ⟨rfl, rfl⟩ := List.cons.inj whole
      rw [List.append_nil] at faulty
      exact .inl faulty
    | cons first front =>
      obtain ⟨rfl, rfl⟩ := List.cons.inj whole
      rw [List.append_cons] at sound faulty
      exact .inr ⟨sound.front, front, other, behind, rfl, sound, faulty⟩
  · rintro (faulty | ⟨-, front, other, behind, rfl, sound, faulty⟩)
    · exact ⟨[], job, rest, rfl, by rwa [List.append_nil], by rwa [List.append_nil]⟩
    · rw [← List.append_cons] at sound faulty
      exact ⟨job :: front, other, behind, rfl, sound, faulty⟩

namespace Configuration

/-! ## What the checks find -/

/-- What the checks of one job find, names that were `seen` before counting as taken. -/
def fault? (seen : List String) (job : Job) : Option Violation :=
  if job.name ∈ seen then some (.repeatedJob job.name) else job.violation?

theorem firstViolation_cons : firstViolation seen (job :: rest) =
    (fault? seen job).or (firstViolation (job.name :: seen) rest) := by
  rw [firstViolation, fault?]
  split <;> rfl

section Seen

variable (same : ∀ name, name ∈ seen ↔ name ∈ before.map Job.name)

include same

theorem fault?_eq_some_iff : fault? seen job = some violation ↔ job.Faulty before violation := by
  rw [fault?]
  split
  · next known =>
    rw [same] at known
    constructor
    · intro found
      cases found
      exact .taken known
    · rintro (_ | ⟨fresh, -⟩)
      · rfl
      · exact absurd known fresh
  · next fresh =>
    rw [same] at fresh
    rw [Job.violation?_eq_some_iff]
    constructor
    · exact .own fresh
    · rintro (known | ⟨-, first⟩)
      · exact absurd known fresh
      · exact first

theorem fault?_eq_none_iff (compatible : Compatible before) :
    fault? seen job = none ↔ Compatible (before ++ [job]) := by
  rw [fault?, compatible_concat_iff, ← same]
  split
  · next known => simp [known]
  · next fresh => simp [compatible, fresh, Job.violation?_eq_none_iff]

/-- By induction on the jobs, each of which is found sound and joins those before it or ends the
search. -/
theorem firstViolation_iff (compatible : Compatible before) :
    (firstViolation seen jobs = none ↔ Compatible (before ++ jobs)) ∧
      ∀ violation, firstViolation seen jobs = some violation ↔
        FirstFaulty before jobs violation := by
  induction jobs generalizing seen before with
  | nil =>
    refine ⟨by simpa [firstViolation] using compatible, fun violation => ?_⟩
    constructor
    · exact fun found => (nomatch found)
    · rintro ⟨front, job, rest, whole, -⟩
      exact absurd whole.symm (by simp)
  | cons job rest ih =>
    rw [firstViolation_cons, List.append_cons]
    simp only [firstFaulty_cons_iff compatible, ← fault?_eq_some_iff same]
    cases found : fault? seen job with
    | none =>
      have sound := (fault?_eq_none_iff same compatible).1 found
      have names : ∀ name, name ∈ job.name :: seen ↔ name ∈ (before ++ [job]).map Job.name := by
        intro name
        rw [List.map_append, List.mem_append, List.mem_cons, same]
        simp [or_comm]
      obtain ⟨passed, reported⟩ := ih names sound
      simp only [Option.none_or, reduceCtorEq, false_or, sound, true_and]
      exact ⟨passed, reported⟩
    | some reported =>
      have broken : ¬Compatible (before ++ [job]) := by
        rw [← fault?_eq_none_iff same compatible, found]
        simp
      have never : ¬Compatible (before ++ [job] ++ rest) := fun all => broken all.front
      simp only [Option.some_or, reduceCtorEq, broken, never, false_and, or_false, iff_self,
        implies_true, and_self]

end Seen

/-! ## Configurations -/

structure Valid (configuration : Configuration) : Prop where
  some : configuration.jobs ≠ []
  jobs : Compatible configuration.jobs

/-- What is reported of a configuration. -/
inductive Breaks (configuration : Configuration) : Violation → Prop where
  | noJob (none : configuration.jobs = []) : Breaks configuration .noJob
  | job {violation : Violation} (first : FirstFaulty [] configuration.jobs violation) :
      Breaks configuration violation

variable {configuration : Configuration}

theorem names_nil : ∀ name, name ∈ [] ↔ name ∈ ([] : List Job).map Job.name := fun _ => Iff.rfl

theorem compatible_nil : Compatible [] := ⟨List.nodup_nil, by simp⟩

theorem violation?_eq_none_iff : configuration.violation? = none ↔ configuration.Valid := by
  rw [violation?]
  split
  · next none => exact ⟨fun found => (nomatch found), fun valid => absurd none valid.some⟩
  · next some =>
    rw [(firstViolation_iff names_nil compatible_nil).1]
    exact ⟨fun jobs => ⟨some, jobs⟩, fun valid => valid.jobs⟩

theorem violation?_eq_some_iff :
    configuration.violation? = some violation ↔ configuration.Breaks violation := by
  rw [violation?]
  split
  · next none =>
    constructor
    · intro found
      cases found
      exact .noJob none
    · rintro (_ | ⟨front, job, rest, whole, -⟩)
      · rfl
      · exact absurd (none.symm.trans whole) (by simp)
  · next some =>
    rw [(firstViolation_iff names_nil compatible_nil).2]
    constructor
    · exact .job
    · rintro (none | first)
      · exact absurd none some
      · exact first

/-- The name of a job in a valid configuration is that of no other. -/
theorem job?_name (valid : configuration.Valid) (member : job ∈ configuration.jobs) :
    configuration.job? job.name = some job :=
  find?_key valid.jobs.distinct member

theorem valid_of_ofDocument {text : String} (made : (ofDocument text).1 = .ok configuration) :
    configuration.Valid := by
  rw [ofDocument] at made
  split at made
  · cases made
  · split at made
    · cases made
    · split at made
      · cases made
      · next passed =>
        cases made
        exact violation?_eq_none_iff.1 passed

theorem valid_of_read {text : String} {session : Session}
    (made : ((read text).runOn session).1 = .ok configuration) : configuration.Valid := by
  rw [((looks_read text).runs session).1, sees_read] at made
  exact valid_of_ofDocument made

theorem valid_of_load {path : Path} {session : Session}
    (made : ((load path).runOn session).1 = .ok configuration) : configuration.Valid := by
  rw [((looks_load path).runs session).1] at made
  obtain ⟨text, -, made⟩ := sees_load_iff.1 made
  exact valid_of_ofDocument made

end Configuration

/-! ## What is said -/

namespace Violation

/-- How messages end, each kind of them in its own way. -/
def endings : List String := [
  "at least one job is required", "'", "job name must not be empty",
  "': subpackage names must not be empty", "': source and target subpackages are the same",
  "': file prefixes must not be empty", "': source and target prefixes are the same",
  "': replacement patterns must not be empty"]

def ending (violation : Violation) : String := endings.getD violation.ctorIdx ""

/-- What stands in front of the end. -/
def opening : Violation → String
  | noJob => ""
  | namelessJob => ""
  | repeatedJob name => "duplicate job name '" ++ name
  | emptyDirectory job => "job '" ++ job
  | sameDirectories job => "job '" ++ job
  | emptyMark job => "job '" ++ job
  | sameMarks job => "job '" ++ job
  | emptyPattern job => "job '" ++ job

theorem message_eq (violation : Violation) :
    violation.message = violation.opening ++ violation.ending := by
  cases violation with
  | noJob => exact String.empty_append.symm
  | namelessJob => exact String.empty_append.symm
  | _ => rfl

/-- No end is the end of another. -/
theorem endings_apart : ∀ i < 8, ∀ j < 8,
    (endings.getD i "").toList <:+ (endings.getD j "").toList → i = j := by
  decide +kernel

theorem ctorIdx_lt (violation : Violation) : violation.ctorIdx < 8 := by
  cases violation <;> exact Nat.le_of_ble_eq_true rfl

theorem eq_of_opening {first second : Violation} (kind : first.ctorIdx = second.ctorIdx)
    (opens : first.opening = second.opening) : first = second := by
  cases first <;> cases second <;> cases kind
  case noJob.noJob => rfl
  case namelessJob.namelessJob => rfl
  all_goals exact congrArg _ (String.append_right_inj _ |>.1 opens)

/-- A message tells its violation, the name of the job included. -/
theorem message_injective : Function.Injective message := by
  intro first second same
  rw [message_eq, message_eq] at same
  have ends : second.ending.toList <:+ first.opening.toList ++ first.ending.toList := by
    rw [← String.toList_append, same, String.toList_append]
    exact List.suffix_append _ _
  have kind : first.ctorIdx = second.ctorIdx := by
    rcases List.suffix_or_suffix_of_suffix ends (List.suffix_append _ _) with within | within
    · exact (endings_apart _ second.ctorIdx_lt _ first.ctorIdx_lt within).symm
    · exact endings_apart _ first.ctorIdx_lt _ second.ctorIdx_lt within
  refine eq_of_opening kind ?_
  rw [ending, ending, kind] at same
  exact (String.append_left_inj _).1 same

end Violation

namespace Configuration

open Act

/-- The checks pass exactly the valid configurations. Otherwise they report, in a message that
tells it, what is wrong with the first job that does not stand up behind those before it: a name
that is taken or, with a name of its own, the first constraint it breaks. In a valid configuration
each job is found under its name, and what is read from text or loaded from a file is valid. -/
theorem validity (configuration : Configuration) :
    (configuration.violation? = none ↔ configuration.Valid) ∧
      (∀ violation, configuration.violation? = some violation ↔ configuration.Breaks violation) ∧
      Function.Injective Violation.message ∧
      (configuration.Valid → ∀ (i : Nat) (inside : i < configuration.jobs.length),
        configuration.job? configuration.jobs[i].name = some configuration.jobs[i]) ∧
      (∀ text session, ((read text).runOn session).1 = .ok configuration → configuration.Valid) ∧
      ∀ path session, ((load path).runOn session).1 = .ok configuration → configuration.Valid :=
  ⟨violation?_eq_none_iff, fun _ => violation?_eq_some_iff, Violation.message_injective,
    fun valid _ inside => job?_name valid (List.getElem_mem inside), fun _ _ => valid_of_read,
    fun _ _ => valid_of_load⟩

/-- A name that is taken is reported, whatever else is wrong with the job. -/
example : violation? ⟨standardRoot, [Job.named "a" (Path.ofText "b"),
    { Job.named "a" (Path.ofText "b") with source := "", table := ⟨[⟨"", ""⟩], by decide⟩ }]⟩ =
      some (.repeatedJob "a") := by
  decide

/-- Two jobs that differ in name alone. -/
def twins : Configuration :=
  ⟨standardRoot, [Job.named "a" (Path.ofText "b"), Job.named "c" (Path.ofText "b")]⟩

def twinsText : String :=
  "[[job]]\nname = \"a\"\nbase = \"b\"\n[[job]]\nname = \"c\"\nbase = \"b\"\n"

/-- The text stands in a file `f`. -/
def twinsSession : Session := ⟨⟨.leaf (utf8 "f") (.file (utf8 twinsText)) .empty, []⟩, []⟩

theorem validity_twins :
    ((read twinsText).runOn twinsSession).1 = .ok twins ∧
      ((load (Path.ofText "f")).runOn twinsSession).1 = .ok twins ∧ twins.Valid ∧
      twins.job? "c" = some (Job.named "c" (Path.ofText "b")) := by
  have reads : ((read twinsText).runOn twinsSession).1 = .ok twins := by
    obtain ⟨made, after, ran, same⟩ := yields_iff.1 (by decide +kernel :
      (read twinsText).yields twinsSession (fun made _ => made = twins) = true)
    rw [ran, of_decide_eq_true same]
  have loads : ((load (Path.ofText "f")).runOn twinsSession).1 = .ok twins := by
    obtain ⟨made, after, ran, same⟩ := yields_iff.1 (by decide +kernel :
      (load (Path.ofText "f")).yields twinsSession (fun made _ => made = twins) = true)
    rw [ran, of_decide_eq_true same]
  obtain ⟨_, _, _, lookup, fromText, fromFile⟩ := validity twins
  exact ⟨reads, loads, fromFile _ _ loads, lookup (fromText _ _ reads) 1 (by decide)⟩

end Configuration
end Retarget
