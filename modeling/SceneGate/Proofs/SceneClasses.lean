/-
Which classes are scenes, told without the search that finds out: those whose name is at
the end of a chain of classes that begins at a base of the vocabulary (`Derives`). The
search goes through the classes as long as it finds something. What it finds is derived
(`derives_of_mem_names`), and when it stops nothing is left to find (`isClosed_names`), so
it finds all that is derived (`mem_names_iff`). So nothing depends on the order of the
classes or on how often the search goes through them.
-/
import Mathlib.Data.List.Perm.Subperm
import Mathlib.Logic.Relation
import SceneGate.Proofs.Acceptance

namespace SceneGate.Scene

/-! ## The search -/

/-- A class called `name` has a base called `base`. -/
def Extends (classes : List Tree) (base name : Text) : Prop :=
  ∃ cls ∈ classes, cls.name? = some name ∧ base ∈ ClassDef.baseNames cls

/-- A chain of classes leads from a base of the vocabulary to a class called `name`. -/
def Derives (v : Vocabulary) (classes : List Tree) (name : Text) : Prop :=
  ∃ base ∈ v.sceneBases, Relation.TransGen (Extends classes) base name

section Search

variable {v : Vocabulary} {classes : List Tree} {known : List Text} {cls : Tree}
  {base name : Text} {rounds : Nat}

/-- Adding a class either makes no difference, or adds a new name that the class has and
that comes from a base. -/
theorem addClass_cases (v : Vocabulary) (known : List Text) (cls : Tree) :
    addClass v known cls = known ∨
      ∃ name, addClass v known cls = name :: known ∧ name ∉ known ∧ cls.name? = some name ∧
        ∃ base ∈ ClassDef.baseNames cls, base ∈ v.sceneBases ∨ base ∈ known := by
  unfold addClass
  split
  · rename_i name hname
    split
    · rename_i h
      simp only [Vocabulary.isSceneBase, Bool.and_eq_true, List.any_eq_true, Bool.or_eq_true,
        List.contains_eq_mem, decide_eq_true_eq, Bool.not_eq_true', decide_eq_false_iff_not] at h
      exact .inr ⟨name, rfl, h.2, hname, h.1⟩
    · exact .inl rfl
  · exact .inl rfl

/-- A class whose name is to be added and is not makes a difference. -/
theorem mem_of_addClass_eq (h : addClass v known cls = known) (hname : cls.name? = some name)
    (hbase : base ∈ ClassDef.baseNames cls) (hknown : base ∈ v.sceneBases ∨ base ∈ known) :
    name ∈ known := by
  by_contra hnew
  have hany : (ClassDef.baseNames cls).any
      (fun base => v.isSceneBase base || known.contains base) = true :=
    List.any_eq_true.2 ⟨base, hbase, by simpa [Vocabulary.isSceneBase] using hknown⟩
  have hadd : addClass v known cls = name :: known := by
    simp only [addClass, hname, hany, Bool.true_and]
    simp [hnew]
  have hlength := congrArg List.length (hadd.symm.trans h)
  simp at hlength

theorem suffix_addClass (v : Vocabulary) (known : List Text) (cls : Tree) :
    known <:+ addClass v known cls := by
  obtain h | ⟨name, h, -⟩ := addClass_cases v known cls
  · simp [h]
  · rw [h]
    exact List.suffix_cons name known

theorem suffix_foldl_addClass (v : Vocabulary) (classes : List Tree) (known : List Text) :
    known <:+ classes.foldl (addClass v) known := by
  induction classes generalizing known with
  | nil => exact List.suffix_rfl
  | cons cls classes ih => exact (suffix_addClass v known cls).trans (ih _)

/-- What one round keeps, all rounds keep. -/
theorem foldl_addClass_induct {P : List Text → Prop} (classes : List Tree)
    (hadd : ∀ known, ∀ cls ∈ classes, P known → P (addClass v known cls)) (h : P known) :
    P (classes.foldl (addClass v) known) := by
  induction classes generalizing known with
  | nil => exact h
  | cons cls classes ih =>
    exact ih (fun known c hc => hadd known c (List.mem_cons_of_mem _ hc))
      (hadd known cls List.mem_cons_self h)

theorem grow_induct {P : List Text → Prop}
    (hadd : ∀ known, ∀ cls ∈ classes, P known → P (addClass v known cls)) (h : P known) :
    P (grow v classes rounds known) := by
  induction rounds generalizing known with
  | zero => exact h
  | succ rounds ih =>
    rw [grow]
    split
    · exact h
    · exact ih (foldl_addClass_induct classes hadd h)

/-! ### Everything found is derived -/

/-- What the names found so far are: names of classes, each found once, and derived. -/
structure Found (v : Vocabulary) (classes : List Tree) (known : List Text) : Prop where
  nodup : known.Nodup
  named : known ⊆ classes.filterMap Tree.name?
  derives : ∀ name ∈ known, Derives v classes name

theorem Found.nil : Found v classes [] := ⟨List.nodup_nil, List.nil_subset _, by simp⟩

theorem Found.addClass (h : Found v classes known) (hcls : cls ∈ classes) :
    Found v classes (addClass v known cls) := by
  obtain heq | ⟨name, heq, hnew, hname, base, hbase, hknown⟩ := addClass_cases v known cls
  · rwa [heq]
  · have hextends : Extends classes base name := ⟨cls, hcls, hname, hbase⟩
    have hderives : Derives v classes name := by
      rcases hknown with hscene | hknown
      · exact ⟨base, hscene, .single hextends⟩
      · obtain ⟨start, hstart, hchain⟩ := h.derives base hknown
        exact ⟨start, hstart, hchain.tail hextends⟩
    rw [heq]
    exact ⟨List.nodup_cons.2 ⟨hnew, h.nodup⟩,
      List.cons_subset.2 ⟨List.mem_filterMap.2 ⟨cls, hcls, hname⟩, h.named⟩,
      List.forall_mem_cons.2 ⟨hderives, h.derives⟩⟩

theorem Found.foldl (h : Found v classes known) :
    Found v classes (classes.foldl (Scene.addClass v) known) :=
  foldl_addClass_induct classes (fun _ _ hcls h => h.addClass hcls) h

/-- There are never more names than classes. -/
theorem Found.length_le (h : Found v classes known) : known.length ≤ classes.length :=
  Nat.le_trans (h.nodup.subperm h.named).length_le (List.length_filterMap_le _ _)

theorem found_grow : Found v classes (grow v classes rounds []) :=
  grow_induct (fun _ _ hcls h => h.addClass hcls) .nil

theorem derives_of_mem_names (h : name ∈ names v classes) : Derives v classes name :=
  found_grow.derives name h

/-! ### Everything derived is found -/

/-- One more round finds nothing. -/
def IsClosed (v : Vocabulary) (classes : List Tree) (known : List Text) : Prop :=
  classes.foldl (addClass v) known = known

/-- Every round but the last finds a name, so that with more rounds left than there are
classes without a name found, the search ends because nothing is left to find. -/
theorem isClosed_grow (h : Found v classes known)
    (hrounds : classes.length < rounds + known.length) :
    IsClosed v classes (grow v classes rounds known) := by
  induction rounds generalizing known with
  | zero =>
    have hle := h.length_le
    omega
  | succ rounds ih =>
    have hsuffix := suffix_foldl_addClass v classes known
    rw [grow]
    split
    · rename_i hlength
      exact (hsuffix.eq_of_length hlength.symm).symm
    · rename_i hlength
      have hle := hsuffix.length_le
      exact ih h.foldl (by omega)

theorem isClosed_names : IsClosed v classes (names v classes) :=
  isClosed_grow .nil (by simp)

/-- If a whole round adds nothing, no class of it does. -/
theorem IsClosed.addClass (h : IsClosed v classes known) (hcls : cls ∈ classes) :
    addClass v known cls = known := by
  unfold IsClosed at h
  induction classes with
  | nil => cases hcls
  | cons first rest ih =>
    -- nothing is lost on the way, so the first class must have added nothing
    have hfirst : Scene.addClass v known first = known := by
      have hle := (suffix_foldl_addClass v rest (Scene.addClass v known first)).length_le
      rw [← List.foldl_cons, h] at hle
      have hsuffix := suffix_addClass v known first
      exact (hsuffix.eq_of_length (Nat.le_antisymm hsuffix.length_le hle)).symm
    rcases List.mem_cons.1 hcls with rfl | hcls
    · exact hfirst
    · rw [List.foldl_cons, hfirst] at h
      exact ih h hcls

/-- Names to which nothing is to be added have all that is derived. -/
theorem IsClosed.mem_of_derives (h : IsClosed v classes known) (hname : Derives v classes name) :
    name ∈ known := by
  obtain ⟨base, hbase, hchain⟩ := hname
  induction hchain with
  | single hextends =>
    obtain ⟨cls, hcls, hname, hmem⟩ := hextends
    exact mem_of_addClass_eq (h.addClass hcls) hname hmem (.inl hbase)
  | tail _ hextends ih =>
    obtain ⟨cls, hcls, hname, hmem⟩ := hextends
    exact mem_of_addClass_eq (h.addClass hcls) hname hmem (.inr ih)

/-- The search finds exactly what is derived. -/
theorem mem_names_iff : name ∈ names v classes ↔ Derives v classes name :=
  ⟨derives_of_mem_names, isClosed_names.mem_of_derives⟩

/-- A search that has found all goes no further, however many rounds it may take. -/
theorem IsClosed.grow_eq (h : IsClosed v classes known) (rounds : Nat) :
    grow v classes rounds known = known := by
  unfold IsClosed at h
  cases rounds with
  | zero => rfl
  | succ rounds => simp [grow, h]

theorem grow_add (m n : Nat) (known : List Text) :
    grow v classes (m + n) known = grow v classes n (grow v classes m known) := by
  induction m generalizing known with
  | zero => rw [Nat.zero_add, grow]
  | succ m ih =>
    rw [Nat.succ_add, grow, grow]
    split
    · rename_i hlength
      have hclosed : IsClosed v classes known :=
        ((suffix_foldl_addClass v classes known).eq_of_length hlength.symm).symm
      exact (hclosed.grow_eq n).symm
    · exact ih _

/-- More rounds make no difference. -/
theorem grow_eq_names (h : classes.length < rounds) :
    grow v classes rounds [] = names v classes := by
  obtain ⟨more, rfl⟩ : ∃ more, rounds = classes.length + 1 + more :=
    Nat.exists_eq_add_of_le h
  rw [grow_add]
  exact isClosed_names.grow_eq more

end Search

/-! ## What a scene program is -/

/-- A path of modules is the module or leads to something inside it. -/
def Inside (module path : Text) : Prop :=
  path = module ∨ ∃ rest, path = module ++ '.' :: rest

/-- A statement imports what `path` names, and not relative to the program. -/
inductive Imports (stmt : Tree) (path : Text) : Prop
  | plain (entry dotted : Tree) : stmt.kind = .importStmt → entry ∈ stmt.children →
      entry.kind = .importAlias → entry.child? .dottedName = some dotted →
      dotted.bareText = path → Imports stmt path
  | fromModule (dotted : Tree) : stmt.kind = .importFromStmt →
      (∀ k ∈ stmt.ownTokens, k.kind ≠ .dot ∧ k.kind ≠ .ellipsis) →
      stmt.child? .dottedName = some dotted → dotted.bareText = path → Imports stmt path

/-- A class of the program is a scene: it has a name that derives from a base. -/
def IsScene (v : Vocabulary) (root cls : Tree) : Prop :=
  cls ∈ root.classes ∧ ∃ name, cls.name? = some name ∧ Derives v root.classes name

/-- A class of the program in which the method that is called is looked for: a scene, or
any class if there is none. -/
def IsCandidate (v : Vocabulary) (root cls : Tree) : Prop :=
  IsScene v root cls ∨ (cls ∈ root.classes ∧ ∀ c, ¬ IsScene v root c)

/-- A function directly in the block of a class is called `name`. -/
def HasMethod (name : Text) (cls : Tree) : Prop :=
  ∃ body, cls.child? .block = some body ∧
    ∃ function ∈ body.children, function.kind = .functionDef ∧ function.name? = some name

section Issues

variable {v : Vocabulary} {root cls stmt : Tree} {module path name : Text}

theorem isWithin_iff : Import.isWithin module path = true ↔ Inside module path := by
  simp only [Import.isWithin, Inside, Bool.or_eq_true, beq_iff_eq, Bool.and_eq_true,
    List.isPrefixOf_iff_prefix]
  refine or_congr_right ⟨?_, ?_⟩
  · rintro ⟨⟨rest, rfl⟩, hdot⟩
    rw [List.drop_left] at hdot
    obtain ⟨rest, rfl⟩ := List.head?_eq_some_iff.1 hdot
    exact ⟨rest, rfl⟩
  · rintro ⟨rest, rfl⟩
    exact ⟨⟨_, rfl⟩, by simp⟩

theorem dots_eq_zero {kind : Kind} :
    Import.dots kind = 0 ↔ kind ≠ .dot ∧ kind ≠ .ellipsis := by
  cases kind <;> simp [Import.dots]

/-- The level of an import is 0 if no dots stand in front of the module. -/
theorem foldl_dots_eq_zero (ks : List Token) (level : Nat) :
    ks.foldl (fun level token => level + Import.dots token.kind) level = 0 ↔
      level = 0 ∧ ∀ k ∈ ks, k.kind ≠ .dot ∧ k.kind ≠ .ellipsis := by
  induction ks generalizing level with
  | nil => simp
  | cons k ks ih =>
    rw [List.foldl_cons, ih, Nat.add_eq_zero_iff, dots_eq_zero, List.forall_mem_cons, and_assoc]

/-- A statement brings a module if and only if it imports a path inside it. -/
theorem brings_iff : (∃ i, Import.ofTree? stmt = some i ∧ i.brings module = true) ↔
    ∃ path, Imports stmt path ∧ Inside module path := by
  constructor
  · rintro ⟨i, hi, hbrings⟩
    unfold Import.ofTree? at hi
    split at hi
    · rename_i hkind
      cases hi
      obtain ⟨path, hpath, hwithin⟩ := List.any_eq_true.1 hbrings
      obtain ⟨entry, hentry, hname⟩ := List.mem_filterMap.1 hpath
      obtain ⟨dotted, hdotted, hpath⟩ := Option.map_eq_some_iff.1 hname
      obtain ⟨hmem, hentry⟩ := List.mem_filter.1 hentry
      exact ⟨path, .plain entry dotted hkind hmem (by simpa using hentry) hdotted hpath,
        isWithin_iff.1 hwithin⟩
    · rename_i hkind
      cases hi
      cases hdotted : stmt.child? .dottedName with
      | none => simp [hdotted, Import.brings] at hbrings
      | some dotted =>
        simp only [hdotted, Option.map_some, Import.brings, Bool.and_eq_true, beq_iff_eq,
          foldl_dots_eq_zero] at hbrings
        exact ⟨_, .fromModule dotted hkind hbrings.1.2 hdotted rfl, isWithin_iff.1 hbrings.2⟩
    · cases hi
  · rintro ⟨path, himports, hinside⟩
    cases himports with
    | plain entry dotted hkind hmem hentry hdotted hpath =>
      refine ⟨_, by rw [Import.ofTree?, hkind], ?_⟩
      refine List.any_eq_true.2 ⟨path, ?_, isWithin_iff.2 hinside⟩
      exact List.mem_filterMap.2 ⟨entry, List.mem_filter.2 ⟨hmem, by simp [hentry]⟩,
        by rw [hdotted, Option.map_some, hpath]⟩
    | fromModule dotted hkind hdots hdotted hpath =>
      refine ⟨_, by rw [Import.ofTree?, hkind], ?_⟩
      simp only [hdotted, Option.map_some, hpath, Import.brings, Bool.and_eq_true, beq_iff_eq,
        foldl_dots_eq_zero]
      exact ⟨⟨trivial, hdots⟩, isWithin_iff.2 hinside⟩

theorem mem_scenes : cls ∈ scenes v root.classes ↔ IsScene v root cls := by
  simp [scenes, IsScene, mem_names_iff, Option.any_eq_true]

theorem hasMethod_iff : HasMethod name cls ↔ some name ∈ (ClassDef.methods cls).map Tree.name? := by
  unfold HasMethod ClassDef.methods ClassDef.body?
  cases hbody : cls.child? .block with
  | none => simp
  | some body => simp [and_assoc]

theorem hasEntry_iff : hasEntry v cls = true ↔ HasMethod v.entryMethod cls := by
  simp [hasEntry, hasMethod_iff]

theorem isEmpty_scenes : (scenes v root.classes).isEmpty = true ↔ ∀ c, ¬ IsScene v root c := by
  simp only [List.isEmpty_iff, List.eq_nil_iff_forall_not_mem, mem_scenes]

/-- The classes in which the method is looked for are the candidates. -/
theorem mem_candidates : cls ∈ (if (scenes v root.classes).isEmpty then root.classes
    else scenes v root.classes) ↔ IsCandidate v root cls := by
  unfold IsCandidate
  split
  · rename_i hnone
    have hnone := isEmpty_scenes.1 hnone
    simp [hnone]
  · rename_i hsome
    have hsome : ¬ ∀ c, ¬ IsScene v root c := fun h => hsome (isEmpty_scenes.2 h)
    simp [hsome, mem_scenes]

theorem any_brings : root.imports.any (Import.brings v.importModule) = true ↔
    ∃ stmt ∈ root.children, ∃ path, Imports stmt path ∧ Inside v.importModule path := by
  simp only [List.any_eq_true, Tree.imports, List.mem_filterMap, ← brings_iff]
  constructor
  · rintro ⟨i, ⟨stmt, hstmt, hi⟩, hbrings⟩
    exact ⟨stmt, hstmt, i, hi, hbrings⟩
  · rintro ⟨stmt, hstmt, i, hi, hbrings⟩
    exact ⟨i, ⟨stmt, hstmt, hi⟩, hbrings⟩

/-- Each of the issues is found when what it tells is the case, and they stand in order. -/
theorem issuesOf_exact (v : Vocabulary) (root : Tree) :
    (issuesOf v root).Sublist [.missingImport v.importModule, .missingEntryType v.sceneBases,
      .missingEntryMethod v.entryMethod] ∧
    (.missingImport v.importModule ∈ issuesOf v root ↔
      ¬ ∃ stmt ∈ root.children, ∃ path, Imports stmt path ∧ Inside v.importModule path) ∧
    (.missingEntryType v.sceneBases ∈ issuesOf v root ↔ ¬ ∃ cls, IsScene v root cls) ∧
    (.missingEntryMethod v.entryMethod ∈ issuesOf v root ↔
      ¬ ∃ cls, IsCandidate v root cls ∧ HasMethod v.entryMethod cls) := by
  have hmethod : ((if (scenes v root.classes).isEmpty then root.classes
      else scenes v root.classes).any (hasEntry v) = true) ↔
      ∃ cls, IsCandidate v root cls ∧ HasMethod v.entryMethod cls := by
    simp only [List.any_eq_true, mem_candidates, hasEntry_iff]
  have htype : (scenes v root.classes).isEmpty = true ↔ ¬ ∃ cls, IsScene v root cls := by
    rw [isEmpty_scenes, not_exists]
  rw [← any_brings, ← htype, ← hmethod]
  simp only [issuesOf]
  -- only the three answers matter
  generalize (List.any _ (hasEntry v)) = entry
  generalize (scenes v root.classes).isEmpty = bare
  generalize root.imports.any (Import.brings v.importModule) = imported
  cases imported <;> cases bare <;> cases entry <;> simp

end Issues

/-! ## Order and bases -/

/-- What is asked of a class: its name, the names of its bases and those of its methods. -/
def profile (cls : Tree) : Option Text × List Text × List (Option Text) :=
  (cls.name?, ClassDef.baseNames cls, (ClassDef.methods cls).map Tree.name?)

section Congruence

variable {v : Vocabulary} {classes others : List Tree} {root other cls : Tree} {name : Text}
  {bases : List Text} {t : Text}

theorem hasMethod_congr {c : Tree} (h : profile c = profile cls) :
    HasMethod name c ↔ HasMethod name cls := by
  simp only [profile, Prod.mk.injEq] at h
  rw [hasMethod_iff, hasMethod_iff, h.2.2]

/-- A class of one program has the profile of a class of another. -/
theorem exists_of_subset (h : classes.map profile ⊆ others.map profile) (hcls : cls ∈ classes) :
    ∃ c ∈ others, profile c = profile cls :=
  List.mem_map.1 (h (List.mem_map_of_mem hcls))

theorem Derives.congr (h : classes.map profile ⊆ others.map profile)
    (hname : Derives v classes name) : Derives v others name := by
  obtain ⟨start, hstart, hchain⟩ := hname
  refine ⟨start, hstart, Relation.TransGen.mono ?_ start name hchain⟩
  rintro base name ⟨cls, hcls, hname, hbase⟩
  obtain ⟨c, hc, heq⟩ := exists_of_subset h hcls
  simp only [profile, Prod.mk.injEq] at heq
  exact ⟨c, hc, heq.1 ▸ hname, heq.2.1 ▸ hbase⟩

theorem IsScene.congr (h : root.classes.map profile ⊆ other.classes.map profile)
    (hcls : IsScene v root cls) : ∃ c, IsScene v other c ∧ profile c = profile cls := by
  obtain ⟨hmem, name, hname, hderives⟩ := hcls
  obtain ⟨c, hc, heq⟩ := exists_of_subset h hmem
  have hcname : c.name? = cls.name? := congrArg Prod.fst heq
  exact ⟨c, ⟨hc, name, hcname.trans hname, hderives.congr h⟩, heq⟩

theorem IsCandidate.congr (h : root.classes.map profile ⊆ other.classes.map profile)
    (h' : other.classes.map profile ⊆ root.classes.map profile) (hcls : IsCandidate v root cls) :
    ∃ c, IsCandidate v other c ∧ profile c = profile cls := by
  rcases hcls with hscene | ⟨hmem, hnone⟩
  · obtain ⟨c, hc, heq⟩ := hscene.congr h
    exact ⟨c, .inl hc, heq⟩
  · obtain ⟨c, hc, heq⟩ := exists_of_subset h hmem
    refine ⟨c, .inr ⟨hc, fun d hd => ?_⟩, heq⟩
    obtain ⟨e, he, -⟩ := hd.congr h'
    exact hnone e he

/-- The issues depend on what is imported and on the profiles of the classes, and not on
their order or on how often they are there. -/
theorem issuesOf_congr (himports : ∀ i, i ∈ root.imports ↔ i ∈ other.imports)
    (hclasses : ∀ p, p ∈ root.classes.map profile ↔ p ∈ other.classes.map profile) :
    issuesOf v root = issuesOf v other := by
  have hto : root.classes.map profile ⊆ other.classes.map profile := fun p => (hclasses p).1
  have hback : other.classes.map profile ⊆ root.classes.map profile := fun p => (hclasses p).2
  have himported : root.imports.any (Import.brings v.importModule) =
      other.imports.any (Import.brings v.importModule) := by
    rw [Bool.eq_iff_iff, List.any_eq_true, List.any_eq_true]
    exact exists_congr fun i => and_congr_left fun _ => himports i
  have hnone : (scenes v root.classes).isEmpty = (scenes v other.classes).isEmpty := by
    rw [Bool.eq_iff_iff, isEmpty_scenes, isEmpty_scenes]
    constructor
    · intro h c hc
      obtain ⟨d, hd, -⟩ := hc.congr hback
      exact h d hd
    · intro h c hc
      obtain ⟨d, hd, -⟩ := hc.congr hto
      exact h d hd
  have hentry : (if (scenes v root.classes).isEmpty then root.classes
        else scenes v root.classes).any (hasEntry v) =
      (if (scenes v other.classes).isEmpty then other.classes
        else scenes v other.classes).any (hasEntry v) := by
    rw [Bool.eq_iff_iff, List.any_eq_true, List.any_eq_true]
    simp only [mem_candidates, hasEntry_iff]
    constructor
    · rintro ⟨cls, hcls, hmethod⟩
      obtain ⟨c, hc, heq⟩ := hcls.congr hto hback
      exact ⟨c, hc, (hasMethod_congr heq).2 hmethod⟩
    · rintro ⟨cls, hcls, hmethod⟩
      obtain ⟨c, hc, heq⟩ := hcls.congr hback hto
      exact ⟨c, hc, (hasMethod_congr heq).2 hmethod⟩
  simp only [issuesOf]
  rw [himported, hentry, hnone]

/-- With more bases in the vocabulary, a program without issues has none. -/
theorem issuesOf_mono (hbases : v.sceneBases ⊆ bases) (h : issuesOf v root = []) :
    issuesOf { v with sceneBases := bases } root = [] := by
  obtain ⟨himports, cls, hcls, hentry⟩ := issuesOf_eq_nil.1 h
  refine issuesOf_eq_nil.2 ⟨himports, cls, ?_, hentry⟩
  obtain ⟨hmem, name, hname, base, hbase, hchain⟩ := mem_scenes.1 hcls
  exact mem_scenes.2 ⟨hmem, name, hname, base, hbases hbase, hchain⟩

theorem check_of_ok (h : (parse t).ok = true) (v : Vocabulary) :
    check v t = issuesOf v (parse t).tree := by
  have hfaults : (parse t).faults = [] := by simpa [Parse.ok] using h
  simp only [check, inspect, Parse.firstFault?, Fault.first?_eq_none.2 hfaults]

/-- The check of a program. Its issues are, in this order, that no statement imports the
module, that no class derives from a base, and that no candidate has the method, each if and
only if it is so. The search ends when nothing more is found, and more rounds would find
nothing. Neither the order of imports and classes matters nor how often one is there, and more
bases bring no issues. -/
theorem check_exact (v : Vocabulary) (t : Text) (h : (parse t).ok = true) :
    ((check v t).Sublist [.missingImport v.importModule, .missingEntryType v.sceneBases,
        .missingEntryMethod v.entryMethod] ∧
      (.missingImport v.importModule ∈ check v t ↔ ¬ ∃ stmt ∈ (parse t).tree.children,
        ∃ path, Imports stmt path ∧ Inside v.importModule path) ∧
      (.missingEntryType v.sceneBases ∈ check v t ↔ ¬ ∃ cls, IsScene v (parse t).tree cls) ∧
      (.missingEntryMethod v.entryMethod ∈ check v t ↔
        ¬ ∃ cls, IsCandidate v (parse t).tree cls ∧ HasMethod v.entryMethod cls)) ∧
    ((parse t).tree.classes.foldl (addClass v) (names v (parse t).tree.classes) =
        names v (parse t).tree.classes ∧
      ∀ rounds, (parse t).tree.classes.length < rounds →
        grow v (parse t).tree.classes rounds [] = names v (parse t).tree.classes) ∧
    (∀ u, (parse u).ok = true →
      (∀ i, i ∈ (parse u).tree.imports ↔ i ∈ (parse t).tree.imports) →
      (∀ p, p ∈ (parse u).tree.classes.map profile ↔ p ∈ (parse t).tree.classes.map profile) →
      check v u = check v t) ∧
    ∀ bases, v.sceneBases ⊆ bases → check v t = [] →
      check { v with sceneBases := bases } t = [] := by
  refine ⟨?_, ⟨isClosed_names, fun rounds => grow_eq_names⟩, ?_, ?_⟩
  · rw [check_of_ok h]
    exact issuesOf_exact v (parse t).tree
  · intro u hu himports hclasses
    rw [check_of_ok h, check_of_ok hu]
    exact issuesOf_congr himports hclasses
  · intro bases hbases hvalid
    rw [check_of_ok h] at hvalid ⊢
    exact issuesOf_mono hbases hvalid

/-- A vocabulary of short names. -/
def short : Vocabulary :=
  { importModule := "m".toList, sceneBases := ["S".toList], entryMethod := "f".toList }

/-- A program in which a class comes before its base and two are each other's bases. -/
def tangled : Text := "import m\nclass A(B):\n def f(): x\nclass B(A, S): x\n".toList

/-- The same program with its classes in another order. -/
def untangled : Text := "import m\nclass B(A, S): x\nclass A(B):\n def f(): x\n".toList

theorem check_exact_tangled : (parse tangled).ok = true ∧ check short tangled = [] ∧
    (∃ cls, IsScene short (parse tangled).tree cls) ∧
    (∃ cls, IsCandidate short (parse tangled).tree cls ∧ HasMethod "f".toList cls) ∧
    check short untangled = [] := by
  have hread : (parse tangled).ok = true ∧ check short tangled = [] := by decide +kernel
  obtain ⟨hok, hvalid⟩ := hread
  obtain ⟨⟨-, -, htype, hmethod⟩, -, horder, -⟩ := check_exact short tangled hok
  rw [hvalid] at htype hmethod horder
  refine ⟨hok, hvalid, not_not.1 (mt htype.2 List.not_mem_nil),
    not_not.1 (mt hmethod.2 List.not_mem_nil), ?_⟩
  have halike : (parse untangled).ok = true ∧
      (parse untangled).tree.imports = (parse tangled).tree.imports ∧
      ((parse untangled).tree.classes.map profile).Perm
        ((parse tangled).tree.classes.map profile) := by decide +kernel
  obtain ⟨hok', himports, hclasses⟩ := halike
  exact horder untangled hok' (fun i => by rw [himports]) fun p => hclasses.mem_iff

end Congruence

end SceneGate.Scene
