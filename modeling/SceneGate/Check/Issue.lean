/-
Issues: what keeps a text from being accepted as a scene program, and how it is
told. The wording goes into the prompts that ask for a better program.
-/
import SceneGate.Source.Fault
import SceneGate.Text.Search

namespace SceneGate

/-- One reason why a text is not accepted. -/
inductive Issue where
  /-- The text is not a program. -/
  | notAProgram (cause : Fault.Cause) (line : Nat)
  /-- The renderer's module is not imported. -/
  | missingImport (module : Text)
  /-- No class is a scene; the bases are those that make one. -/
  | missingEntryType (bases : List Text)
  /-- No scene has the method that the renderer calls. -/
  | missingEntryMethod (method : Text)
  /-- A name is natural language that lost its quotes. -/
  | unquotedIdentifier (name : Text) (line : Nat)
deriving DecidableEq, Repr

/-- The kinds of defects, each treated in its own way. -/
inductive Defect where
  /-- The text is not a program. -/
  | syntactic
  /-- The program is not a scene. -/
  | structural
  /-- The program is a scene, but has prose in it. -/
  | semantic
deriving DecidableEq, Repr

namespace Issue

/-- The kind of defect. -/
def defect : Issue → Defect
  | .notAProgram _ _ => .syntactic
  | .missingImport _ | .missingEntryType _ | .missingEntryMethod _ => .structural
  | .unquotedIdentifier _ _ => .semantic

/-- The line that the issue is about, if it is about one. -/
def line? : Issue → Option Nat
  | .notAProgram _ line | .unquotedIdentifier _ line => some line
  | .missingImport _ | .missingEntryType _ | .missingEntryMethod _ => none

/-- The name of the kind of issue. -/
def label : Issue → String
  | .notAProgram _ _ => "SyntaxError"
  | .missingImport _ => "MissingImport"
  | .missingEntryType _ => "MissingEntryType"
  | .missingEntryMethod _ => "MissingEntryMethod"
  | .unquotedIdentifier _ _ => "UnquotedIdentifier"

/-- What is wrong, for a reader. -/
def message : Issue → Text
  | .notAProgram cause line => cause.message ++ " at line ".toList ++ Text.ofNat line
  | .missingImport module =>
    "missing 'from ".toList ++ module ++ " import *' or similar import".toList
  | .missingEntryType bases =>
    "missing class deriving from ".toList ++ Text.joinWith " or ".toList bases
  | .missingEntryMethod method => "missing ".toList ++ method ++ "() method".toList
  | .unquotedIdentifier name line =>
    '\'' :: name ++ "' is natural-language text and must be quoted (line ".toList ++
      Text.ofNat line ++ [')']

/-- The issue in one line. -/
def summary (issue : Issue) : Text := issue.label.toList ++ ": ".toList ++ issue.message

end Issue

/-- What a check found; a text without issues passes it. -/
abbrev Findings := List Issue

namespace Findings

/-- The kind of defect of the first issue. -/
def defect? (fs : Findings) : Option Defect := fs.head?.map Issue.defect

/-- All issues in one line, as they go into a prompt. -/
def diagnostic (fs : Findings) : Text := Text.joinWith "; ".toList (fs.map Issue.summary)

/-- The findings for a reader. -/
def display (fs : Findings) : Text := if fs.isEmpty then "valid".toList else fs.diagnostic

end Findings

end SceneGate
