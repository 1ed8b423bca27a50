/-
Renaming deprecated names, wherever they occur, also as a part of longer
names: `GRAY` becomes `GREY`, and `LIGHT_GRAY` becomes `LIGHT_GREY`.
-/
import SceneGate.Rules.Rule
import SceneGate.Text.Search
import SceneGate.Vocabulary

namespace SceneGate.DeprecatedNames

/-- The names that are renamed. A name is left alone if what replaces it holds
the name itself, for then every run would make it longer. -/
def kept (names : Renaming) : Renaming :=
  names.filter fun (old, new) => !old.isEmpty && !new.hasPart old

/-- Renames the names one after another. -/
def rename (names : Renaming) (t : Text) : Text :=
  names.foldl (fun t (old, new) => t.replaceAll old new) t

/-- The rule. -/
def rule (v : Vocabulary) : Rule := ⟨"deprecated-names", rename (kept v.deprecatedNames)⟩

end SceneGate.DeprecatedNames
