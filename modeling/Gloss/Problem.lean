import Gloss.Disk.Basic
import Gloss.Rules.Basic
import Gloss.Strip.Policy
/-!
# Problems

What a run may fail with. Texts are never at fault: problems are about
settings, arguments and the disk.
-/

namespace Gloss

inductive Problem where
  /-- Settings that are not TOML, or hold what no setting takes. -/
  | malformedSettings
  | noJobs
  | unknownDefault (language : String)
  | settingsMissing (path : Path)
  | badRules (language : String) (error : RulesError)
  /-- A file that cannot be read or written. -/
  | inaccessible (path : Path) (fault : Fault)
  | noFileName (path : Path)
  | unknownPolicy (name : String)
  | unknownFormat (name : String)
  | unknownLanguage (name : String)
  | undetermined (path : Path)
  | noInputs
  | inputMissing (path : Path)
  | outputExists (path : Path)
  | sameOutput (path : Path)
  | outputNeeded
  | unclosed (count : Nat)
  /-- Some files failed, each with a problem of its own. -/
  | filesFailed (count : Nat)
  | system (fault : Fault)
  /-- The output takes no more, in the midst of a JSON document or not. -/
  | sinkFull (inJson : Bool)
  deriving DecidableEq, Repr

/-- The kinds of problems. -/
inductive Problem.Category where
  | settings
  | rules
  | file
  | validation
  | command
  | system
  | json
  deriving DecidableEq, Repr

namespace Problem

def category : Problem → Category
  | .malformedSettings | .noJobs | .unknownDefault _ | .settingsMissing _ => .settings
  | .badRules .. => .rules
  | .inaccessible .. | .noFileName _ => .file
  | .unknownPolicy _ | .unknownFormat _ | .unknownLanguage _ | .undetermined _ | .noInputs
  | .inputMissing _ | .outputExists _ | .sameOutput _ | .outputNeeded | .unclosed _ => .validation
  | .filesFailed _ => .command
  | .system _ => .system
  | .sinkFull inJson => if inJson then .json else .system

/-- The words in front of a problem of a category. -/
def Category.title : Category → String
  | .settings => "Configuration error: "
  | .rules => ""
  | .file => "File operation failed: "
  | .validation => "Validation error: "
  | .command => "Command execution failed: "
  | .system => "IO error: "
  | .json => "JSON error: "

/-- The problem without the words in front. -/
def reason : Problem → String
  | .malformedSettings => "Failed to parse configuration"
  | .noJobs => "jobs must be at least 1"
  | .unknownDefault language => s!"Unknown default language: {language}"
  | .settingsMissing path => s!"Configuration file not found: {path.text}"
  | .badRules language error => s!"Invalid rules for language `{language}`: {error.message}"
  | .inaccessible path fault => s!"{path.text}: {fault.message}"
  | .noFileName path => s!"Invalid file path: {path.text}"
  | .unknownPolicy name => Policy.unknown name
  | .unknownFormat name => s!"Unknown format: {name}"
  | .unknownLanguage name => s!"Unknown language: {name}"
  | .undetermined path =>
    s!"Cannot determine language (use --language or set default_language): {path.text}"
  | .noInputs => "No input files specified"
  | .inputMissing path => s!"Input path does not exist: {path.text}"
  | .outputExists path => s!"Output file already exists (use --force): {path.text}"
  | .sameOutput path => s!"Several inputs map to the same output: {path.text}"
  | .outputNeeded => "Several inputs need --output, or --force to rewrite them in place"
  | .unclosed count => s!"{count} unterminated construct(s) found"
  | .filesFailed count => s!"{count} file(s) failed to process"
  | .system fault => fault.message
  | .sinkFull _ => "sink full"

def message (p : Problem) : String := p.category.title ++ p.reason

/-- What lies behind the problem. -/
def cause? : Problem → Option String
  | .badRules _ error => some error.message
  | .system fault => some fault.message
  | .sinkFull _ => some "sink full"
  | _ => none

end Problem
end Gloss
