/-
The gate: a text may go to the renderer if it is a scene program and has no
stray prose. A `SceneProgram` is a text that has passed it.
-/
import SceneGate.Check.Scene
import SceneGate.Check.StrayProse

namespace SceneGate

/-- A text that may go to the renderer. -/
structure SceneProgram (v : Vocabulary) where
  text : Text
  isScene : Scene.check v text = []
  noProse : StrayProse.issues (parse text) = []
deriving DecidableEq, Repr

/-- Lets a text through the gate, or says why not. Prose is looked for only in
scene programs. -/
def certify (v : Vocabulary) (t : Text) : Except Findings (SceneProgram v) :=
  let p := parse t
  if scene : Scene.inspect v p = [] then
    if prose : StrayProse.issues p = [] then .ok ⟨t, scene, prose⟩
    else .error (StrayProse.issues p)
  else .error (Scene.inspect v p)

end SceneGate
