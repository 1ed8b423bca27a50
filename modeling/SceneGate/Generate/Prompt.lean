/-
The prompts that a generator is given. The first one spells out the vocabulary
of the renderer, so that little is left to mend. The one after a rejection puts
the reason in front of the first, and the one for an improvement fences the
program the way programs are fenced in answers.
-/
import SceneGate.Generate.Response
import SceneGate.Text.LowerCase
import SceneGate.Vocabulary

namespace SceneGate.Prompt

/-- Words that say that a problem is about a graph, in lower case. -/
def graphWords : List Text := [
  "đồ thị".toList, "vẽ".toList, "graph".toList, "plot".toList, "draw".toList, "hàm số".toList,
  "function".toList, "parabol".toList, "parabola".toList, "y =".toList, "y=".toList,
  "f(x)".toList, "g(x)".toList, "đường cong".toList, "curve".toList, "biểu đồ".toList,
  "trục".toList, "axes".toList, "coordinate".toList]

/-- Whether a problem, or what is said about it, is about a graph. -/
def asksForGraph (problem context : Text) : Bool :=
  let lowered := Text.lowerCase (problem ++ ' ' :: context)
  graphWords.any fun word => lowered.hasPart word

/-- Texts on lines of their own. -/
def onLines (ts : List Text) : Text := Text.joinWith ['\n'] ts

/-- What the generator is told about drawing a graph. -/
def graphInstructions : Text := onLines [
  "GRAPH REQUIRED".toList,
  "- Plot the function or relation the problem is about".toList,
  "- Create the coordinate system with axes = Axes()".toList,
  "- Draw functions with axes.get_graph() over a sensible domain".toList,
  "- Label the axes and the important points".toList,
  "- Show the equation of the function next to its graph".toList,
  []]

/-- What the generator is told about a rejected program. -/
def correctiveInstructions : Text := onLines [
  ("IMPORTANT: the previous program was rejected. " ++
    "Generate it again with fully valid Python:").toList,
  "- Every piece of natural-language text MUST be inside double quotes".toList,
  "- Check every bracket and every comma".toList,
  "- No variables or bare words in natural language outside of strings".toList,
  []]

/-- What the generator is told about the renderer's library. -/
def libraryRules (v : Vocabulary) : List Text :=
  let group := v.groupConstructor
  let tex := v.texConstructor
  let text := v.textConstructor
  [ "- Import: from ".toList ++ v.importModule ++ " import *".toList,
    "- Formulas: ".toList ++ tex ++
      "(\"...\") with LaTeX only, never with natural-language words".toList,
    "- Natural-language text: ".toList ++ text ++ "(\"...\", font=\"".toList ++ v.defaultFont ++
      "\"), never ".toList ++ v.legacyTextConstructor,
    "- Never put natural-language text inside \\text\x7b...\x7d in ".toList ++ tex ++
      "(); split it into separate ".toList ++ text ++ "() and ".toList ++ tex ++
      "() objects or a ".toList ++ group,
    "- Axis labels: ".toList ++ tex ++ "(\"x\").next_to(axes.x_axis, DOWN) and ".toList ++ tex ++
      ("(\"y\").next_to(axes.y_axis, LEFT), " ++
        "never get_axis_labels(x_label=..., y_label=...)").toList ] ++
  v.deprecatedNames.map (fun (old, new) => "- Use ".toList ++ new ++ ", not ".toList ++ old) ++
  v.singleTargetEffects.map fun effect =>
    "- ".toList ++ effect ++ "() takes a single mobject; wrap several in ".toList ++ group ++
      "(...)".toList

/-- What the generator is told about its answer. -/
def outputRules (v : Vocabulary) (sceneName : Text) : List Text := [
  "- Return only Python code, no explanations".toList,
  "- Start with 'from ".toList ++ v.importModule ++ " import *' and define class ".toList ++
    sceneName ++ '(' :: v.sceneBases.headD "Scene".toList ++ ") with a ".toList ++ v.entryMethod ++
    "(self) method".toList]

/-- The prompt for a program about a problem. -/
def base (v : Vocabulary) (sceneName problem context : Text) : Text :=
  ("You are a mathematics teacher. Write a short, clear ManimGL animation that walks a student " ++
    "through the problem below.\n\nProblem:\n").toList ++ problem.trim ++ ['\n'] ++
  (if context.trim.isEmpty then []
    else "\nAdditional context: ".toList ++ context.trim ++ ['\n']) ++
  (if asksForGraph problem context then '\n' :: graphInstructions else []) ++
  "\nMANIMGL RULES:\n".toList ++ onLines (libraryRules v) ++
  "\n\nOUTPUT:\n".toList ++ onLines (outputRules v sceneName) ++
  "\n\nWrite the code now:".toList

/-- The prompt after a rejection: the reason, what to look out for, and the
prompt that was given first. -/
def retry (diagnostic base : Text) : Text :=
  "PREVIOUS PROGRAM REJECTED: ".toList ++ diagnostic ++ "\n\n".toList ++
    correctiveInstructions ++ '\n' :: base

/-- The prompt for a better version of a program. -/
def improvement (code feedback : Text) : Text :=
  ("Improve the following ManimGL program according to the feedback below. " ++
    "Keep all on-screen text in the same language.\n\nFeedback: ").toList ++ feedback.trim ++
  "\n\nCurrent program:\n".toList ++ Response.programFence ++ '\n' :: code.trimEnd ++
  '\n' :: Response.fence ++
  "\n\nReturn the complete revised Python program, without explanations.".toList

end SceneGate.Prompt
