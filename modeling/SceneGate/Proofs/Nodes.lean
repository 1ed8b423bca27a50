/-
What every node of a tree is like. If each form that becomes a node makes a node of
some sort, all nodes of a tree are of this sort (`Phrase.Reads.each`); of where a
form is read it is known only what the tests right before it say. Where something is said of
nodes of a few kinds only, the phrases that make these nodes can be looked at by hand, and
the others need not be (`Phrase.Reads.each_but`).
-/
import SceneGate.Proofs.Idle
import SceneGate.Proofs.TokensKept

namespace SceneGate

/-! ## Trees -/

mutual

/-- All nodes of a tree are as `P` says of their kind and parts. -/
def Tree.Each (P : Kind → List Tree → Prop) : Tree → Prop
  | .leaf _ => True
  | .node kind ts => P kind ts ∧ EachOf P ts

/-- All nodes of trees that stand side by side are as `P` says. -/
def Tree.EachOf (P : Kind → List Tree → Prop) : List Tree → Prop
  | [] => True
  | t :: ts => t.Each P ∧ EachOf P ts

end

variable {P : Kind → List Tree → Prop} {kind : Kind} {ts : List Tree}

namespace Tree

theorem eachOf_iff : EachOf P ts ↔ ∀ t ∈ ts, t.Each P := by
  induction ts with
  | nil => simp [EachOf]
  | cons t ts ih => simp [EachOf, ih]

@[simp] theorem each_leaf (k : Token) : (leaf k).Each P := by simp [Each]

theorem each_node : (node kind ts).Each P ↔ P kind ts ∧ ∀ t ∈ ts, t.Each P := by
  rw [Each, eachOf_iff]

end Tree

mutual

/-- The nodes of a tree are those that are located in it. -/
theorem Tree.each_iff_locate (o d : Nat) : ∀ t : Tree, t.Each P ↔
    ∀ l ∈ t.locate o d, l.tree.isNode = true → P l.tree.kind l.tree.parts
  | .leaf k => by simp [Tree.locate, Tree.isNode]
  | .node kind ts => by
    have hparts := Tree.eachOf_iff_locate o (d + 1) ts
    rw [Tree.Each, hparts, Tree.locate]
    exact ⟨fun h => List.forall_mem_cons.2 ⟨fun _ => h.1, h.2⟩,
      fun h => ⟨(List.forall_mem_cons.1 h).1 rfl, (List.forall_mem_cons.1 h).2⟩⟩

theorem Tree.eachOf_iff_locate (o d : Nat) : ∀ ts : List Tree, Tree.EachOf P ts ↔
    ∀ l ∈ Tree.locateAll o d ts, l.tree.isNode = true → P l.tree.kind l.tree.parts
  | [] => by simp [Tree.EachOf, Tree.locateAll]
  | t :: ts => by
    have hfirst := Tree.each_iff_locate o d t
    have hrest := Tree.eachOf_iff_locate (o + t.bytes) d ts
    rw [Tree.EachOf, hfirst, hrest, Tree.locateAll, List.forall_mem_append]

end

/-! ## Readings -/

namespace Progress

variable {s s' : Progress}

/-- All nodes that have been built are as `P` says. -/
def Each (P : Kind → List Tree → Prop) (s : Progress) : Prop := ∀ t ∈ s.built, t.Each P

theorem each_start (tokens : List Token) (faults : List Fault) : (start tokens faults).Each P := by
  simp [Each, start]

theorem Each.flush (h : s.Each P) : s.flush.Each P := by
  intro t ht
  simp only [Progress.flush, List.mem_append, List.mem_reverse, List.mem_map] at ht
  rcases ht with ⟨k, -, rfl⟩ | ht
  · exact Tree.each_leaf k
  · exact h t ht

theorem Each.take (h : s.Each P) : s.take.Each P := by
  cases hr : s.rest with
  | nil => rw [take_of_nil hr]; exact h.flush
  | cons l ls =>
    rw [take_of_cons hr]
    intro t ht
    rcases List.mem_cons.1 ht with rfl | ht
    · exact Tree.each_leaf _
    · exact h.flush t ht

theorem Each.record (h : s.Each P) (f : Fault) : (s.record f).Each P := by
  unfold Progress.record
  split <;> exact h

theorem Each.rejoin {parts : List Tree} (h : s.Each P) (hp : ∀ t ∈ parts, t.Each P) :
    (s.rejoin s' parts).Each P := by
  intro t ht
  rcases List.mem_append.1 ht with ht | ht
  · exact hp t ht
  · exact h.flush t ht

/-- What was built becomes one node. -/
theorem Each.node (h : s.Each P) (hk : P kind s.built.reverse) :
    ∀ t ∈ [Tree.node kind s.built.reverse], t.Each P := by
  intro t ht
  obtain rfl := List.mem_singleton.1 ht
  exact Tree.each_node.2 ⟨hk, fun u hu => h u (List.mem_reverse.1 hu)⟩

/-- Besides what was built, the root has only trivia for parts. -/
theorem Each.root (h : s.Each P) : Tree.EachOf P s.root.parts := by
  refine Tree.eachOf_iff.2 fun t ht => ?_
  rcases List.mem_append.1 ht with ht | ht
  · exact h t (List.mem_reverse.1 ht)
  · obtain ⟨k, -, rfl⟩ := List.mem_map.1 ht
    exact Tree.each_leaf k

end Progress

/-- Watches nothing but which forms become nodes, and on what tokens. -/
def Watch.nodes (opens : Kind → Form → Sight → Bool) (wraps : Kind → Bool) : Watch where
  taken _ := .anything
  faulted _ := .anything
  left _ _ := .anything
  mayTake _ := true
  mayCall p S := S.within ⟨p.startsOn, p.startsOn⟩
  mayOpen := opens
  mayWrap := wraps

section Nodes

variable {env : Surroundings} {opens : Kind → Form → Sight → Bool} {wraps : Kind → Bool}

/-- What it means that a phrase builds only nodes that are as `P` says. -/
def Phrase.Builds (P : Kind → List Tree → Prop) (p : Phrase) (s : Progress) (_ : Bool)
    (s' : Progress) : Prop :=
  p.startsOn.has s.current = true → s.Each P → s'.Each P

theorem Watch.nodes_sound (env : Surroundings)
    (hopen : ∀ {kind body S flag s b s'}, opens kind body S = true →
      S.has flag (Progress.current s) = true →
      Form.Reads env (Phrase.Reads env) body s.inside b s' → P kind s'.built.reverse)
    (hwrap : ∀ {kind ts}, wraps kind = true → P kind ts) :
    (Watch.nodes opens wraps).Sound env (Phrase.Builds P) (fun _ => True)
      (fun (_ : Unit) _ s => s.Each P) id where
  back _ _ := trivial
  take := by
    intro _ S s _ hs
    obtain ⟨flag, h, -⟩ := hs
    exact ⟨flag, h.take, Sight.has_anything⟩
  fault := by
    intro _ S s f _ hs
    obtain ⟨flag, h, -⟩ := hs
    exact ⟨flag, h.record f, Sight.has_anything⟩
  call := by
    intro _ S p s b s' hmay _ hp _ hs
    obtain ⟨flag, h, hk⟩ := hs
    have hstart : p.startsOn.has s.current = true := by
      have := Sight.has_of_within hmay hk
      cases flag <;> exact this
    exact ⟨flag, hp hstart h, Sight.has_anything⟩
  inside _ := by simp [Progress.Each, Progress.inside]
  node := by
    intro _ S s b flag s' kind body hmay hs hread h'
    obtain ⟨flag, h, hk⟩ := hs
    exact h.rejoin (h'.node (hopen hmay hk (hread.imp fun _ _ _ _ hq => hq.1)))
  mark h h' := h.rejoin h'
  wrap hk h := h.node (hwrap hk)

/-- All nodes that a phrase builds are as `P` says, if those are that its forms
become. -/
theorem Phrase.Reads.each {p s b s'} (h : Phrase.Reads env p s b s')
    (hopen : ∀ {kind body S flag s b s'}, opens kind body S = true →
      S.has flag (Progress.current s) = true →
      Form.Reads env (Phrase.Reads env) body s.inside b s' → P kind s'.built.reverse)
    (hwrap : ∀ {kind ts}, wraps kind = true → P kind ts)
    (hfits : ∀ p : Phrase,
      (Watch.nodes opens wraps).fits true p.form ⟨p.startsOn, p.startsOn⟩ = true)
    (hp : p.startsOn.has s.current = true) (hs : s.Each P) : s'.Each P := by
  refine h.induct (Phrase.Builds P) (fun p s b s' h hp hs => ?_) hp hs
  have hw := Watch.nodes_sound (P := P) env hopen hwrap
  obtain ⟨_, h, _⟩ := hw.holds h trivial (fun _ => ⟨(), rfl⟩) (hfits p) ⟨false, hs, hp⟩
  exact h

end Nodes

/-! ## Nodes of some kinds -/

/-- Whether nothing in a form becomes a node of one of the kinds. -/
def Form.makesNone (kinds : List Kind) : Form → Bool
  | .seq first second => first.makesNone kinds && second.makesNone kinds
  | .cond test yes no => test.makesNone kinds && yes.makesNone kinds && no.makesNone kinds
  | .loop test body => test.makesNone kinds && body.makesNone kinds
  | .node kind body | .wrap kind body => !kinds.contains kind && body.makesNone kinds
  | .mark body | .enclosed _ body => body.makesNone kinds
  | .answer _ | .next _ | .nextTwo _ _ | .take | .complain _ | .complainOfToken | .call _ => true

section Kinds

variable {env : Surroundings} {kinds : List Kind} {s s' : Progress} {a : Bool}

/-- What it means that a phrase builds nodes as `P` says, where no fault is found. -/
def Phrase.Keeps (P : Kind → List Tree → Prop) (_ : Phrase) (s : Progress) (_ : Bool)
    (s' : Progress) : Prop :=
  s.Sorted → s'.faults = [] → s.Each P → s'.Each P

/-- A form that makes no node of the kinds, of which alone `P` says something, builds nodes as
`P` says, if the phrases in it do. -/
theorem Form.Reads.each_but (hP : ∀ kind ts, kind ∉ kinds → P kind ts) {f : Form}
    (h : Form.Reads env (fun q s b s' => Phrase.Reads env q s b s' ∧ q.Keeps P s b s') f s a s')
    (hf : f.makesNone kinds = true) (hs : s.Sorted) (hg : s'.faults = []) (he : s.Each P) :
    s'.Each P := by
  have alone {f s b s'}
      (h : Form.Reads env (fun q s b s' => Phrase.Reads env q s b s' ∧ q.Keeps P s b s') f s b s') :
      Form.Reads env (Phrase.Reads env) f s b s' :=
    h.imp fun _ _ _ _ hq => hq.1
  have sorted {f s b s'}
      (h : Form.Reads env (fun q s b s' => Phrase.Reads env q s b s' ∧ q.Keeps P s b s') f s b s')
      (hs : s.Sorted) : s'.Sorted :=
    ((alone h).imp fun _ _ _ _ hq => hq.sorted).sorted hs
  have fresh (s : Progress) : s.inside.Each P := by simp [Progress.Each, Progress.inside]
  induction h with
  | answer | next | nextTwo => exact he
  | take => exact he.take
  | complain | complainOfToken => exact absurd hg (Progress.faults_complain_ne _ _ _)
  | seq h₁ h₂ ih₁ ih₂ =>
    simp only [makesNone, Bool.and_eq_true] at hf
    exact ih₂ hf.2 (sorted h₁ hs) hg (ih₁ hf.1 hs ((alone h₂).faults_eq hg) he)
  | condYes h₁ h₂ ih₁ ih₂ =>
    simp only [makesNone, Bool.and_eq_true] at hf
    exact ih₂ hf.1.2 (sorted h₁ hs) hg (ih₁ hf.1.1 hs ((alone h₂).faults_eq hg) he)
  | condNo h₁ h₂ ih₁ ih₂ =>
    simp only [makesNone, Bool.and_eq_true] at hf
    exact ih₂ hf.2 (sorted h₁ hs) hg (ih₁ hf.1.1 hs ((alone h₂).faults_eq hg) he)
  | loopEnd _ ih =>
    simp only [makesNone, Bool.and_eq_true] at hf
    exact ih hf.1 hs hg he
  | loopAgain h₁ h₂ h₃ ih₁ ih₂ ih₃ =>
    have hboth := hf
    simp only [makesNone, Bool.and_eq_true] at hboth
    have hg₂ := (alone h₃).faults_eq hg
    have hs₁ := sorted h₁ hs
    exact ih₃ hf (sorted h₂ hs₁) hg
      (ih₂ hboth.2 hs₁ hg₂ (ih₁ hboth.1 hs ((alone h₂).faults_eq hg₂) he))
  | call h => exact h.2 hs hg he
  | node _ ih =>
    simp only [makesNone, Bool.and_eq_true, Bool.not_eq_true', List.contains_eq_mem,
      decide_eq_false_iff_not] at hf
    exact he.rejoin ((ih hf.2 hs.inside hg (fresh _)).node (hP _ _ hf.1))
  | mark _ ih => exact he.rejoin (ih hf hs.inside hg (fresh _))
  | wrap _ ih =>
    simp only [makesNone, Bool.and_eq_true, Bool.not_eq_true', List.contains_eq_mem,
      decide_eq_false_iff_not] at hf
    exact (ih hf.2 hs hg he).node (hP _ _ hf.1)
  | enclosed _ ih =>
    obtain ⟨-, heq⟩ := Progress.close_of_faults hg
    rw [heq]
    exact (ih hf hs.take (List.suffix_nil.1 (hg ▸ (Progress.follows_close ..).faults)) he.take).take

/-- Every phrase builds nodes as `P` says, if those do that make nodes of the kinds of which
`P` says something. -/
theorem Phrase.Reads.each_but (hP : ∀ kind ts, kind ∉ kinds → P kind ts)
    (hmakes : ∀ {p : Phrase} {s b s'}, p.form.makesNone kinds = false →
      Form.Reads env (fun q s b s' => Phrase.Reads env q s b s' ∧ q.Keeps P s b s') p.form s b s' →
        p.Keeps P s b s')
    {p : Phrase} (h : Phrase.Reads env p s a s') : p.Keeps P s a s' := by
  refine h.induct (Phrase.Keeps P) fun p s b s' h => ?_
  cases hf : p.form.makesNone kinds with
  | false => exact hmakes hf h
  | true => exact fun hs hg he => h.each_but hP hf hs hg he

end Kinds

end SceneGate
