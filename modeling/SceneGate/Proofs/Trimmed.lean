/-
Where trivia stands in the tree of a program. No node begins or ends with trivia, and
none is empty (`trimmed_parse`): what waits is given to the open node before a node
opens, and a node is closed right behind a word. So of the trees that have the same
outline and spell the same words there is only one (`Tree.unplaced_eq`).
-/
import SceneGate.Proofs.Replays

namespace SceneGate

namespace Tree

/-- Whether a tree is a piece of trivia. -/
def isTrivia : Tree → Bool
  | .leaf k => k.isTrivia
  | .node _ _ => false

/-- Parts of which the first and the last are no trivia, and there are some. -/
structure Trim (ts : List Tree) : Prop where
  ne : ts ≠ []
  first : ∀ t ∈ ts.head?, t.isTrivia = false
  last : ∀ t ∈ ts.getLast?, t.isTrivia = false

/-- A node of such parts. -/
def Trimmed (_ : Kind) (ts : List Tree) : Prop := Trim ts

theorem trim_singleton {t : Tree} (h : t.isTrivia = false) : Trim [t] :=
  ⟨by simp, by simpa using h, by simpa using h⟩

/-- Parts behind others, perhaps with trivia between them. -/
theorem Trim.append {ts us : List Tree} (h : Trim ts) (between : List Tree) (h' : Trim us) :
    Trim (ts ++ between ++ us) where
  ne := by simp [h.ne]
  first t ht := by
    obtain ⟨u, ts', rfl⟩ := List.exists_cons_of_ne_nil h.ne
    exact h.first t (by simpa using ht)
  last t ht := by
    rw [List.getLast?_append, Option.or_of_isSome (by simpa using h'.ne)] at ht
    exact h'.last t ht

end Tree

/-! ## Readings -/

/-- The kinds that the next token may be of. -/
def Sight.kinds (S : Sight) : KindSet := S.down.union S.up

theorem Sight.has_kinds {S : Sight} {flag : Bool} {k : Kind} (h : S.has flag k = true) :
    S.kinds.has k = true := by
  cases flag <;> simp_all [Sight.has, Sight.kinds]

/-- Whether each node and each run in a form takes a token, and takes one before it
becomes a node, and whether a token is only taken where there is one. -/
def Form.trims (inRun : Bool) : Form → Sight → Bool
  | .take, S => !S.kinds.has .endOfFile
  | .seq first second, S =>
    trims inRun first S && trims inRun second (Watch.headway.after first S).either
  | .cond test yes no, S =>
    trims inRun test S && trims inRun yes (Watch.headway.after test S).yes &&
      trims inRun no (Watch.headway.after test S).no
  | .loop test body, S =>
    let T := Watch.headway.round test body S
    trims inRun test T && trims inRun body (Watch.headway.after test T).yes
  | .node _ body, S | .mark body, S =>
    S.isEmpty || (body.movesOn S.kinds && trims true body ⟨S.kinds, .none⟩)
  | .wrap _ body, S =>
    S.isEmpty ||
      (inRun && trims true body S && (Watch.headway.after body S).either.down.isEmpty)
  | .enclosed bracket body, S =>
    !S.kinds.has .endOfFile && bracket != .endOfFile && trims inRun body (Watch.headway.taken S)
  | .answer _, _ | .next _, _ | .nextTwo _ _, _ | .complain _, _ | .complainOfToken, _
  | .call _, _ => true

/-- Only the parameters of a `lambda` may be empty, in front of a token that is then
missing a colon. -/
theorem Phrase.trims_form (p : Phrase) : (p == .lambda || p.form.trims false ⟨p.startsOn, .none⟩) = true := by
  revert p
  decide +kernel

namespace Progress

/-- Since a run of parts began behind `base` and in front of `start`, nothing was taken, or
trimmed parts were built; all nodes in them are trimmed. -/
structure Neat (start : List Lexeme) (base : List Tree) (s : Progress) : Prop where
  built : s.flush.built = base ∧ s.rest = start ∨
    ∃ new, s.built = new ++ base ∧ (∀ t ∈ new, t.Each Tree.Trimmed) ∧ Tree.Trim new.reverse ∧
      s.rest.length < start.length
  sorted : s.Sorted

variable {start : List Lexeme} {base : List Tree} {s s' : Progress}

theorem neat_here (hs : s.Sorted) : s.Neat s.rest s.flush.built := ⟨.inl ⟨rfl, rfl⟩, hs⟩

theorem neat_inside (hs : s.Sorted) : s.inside.Neat s.rest [] := neat_here hs.inside

/-- A run in which something was taken. -/
theorem Neat.trim (h : s.Neat start base) (hmoved : s.rest.length < start.length) :
    ∃ new, s.built = new ++ base ∧ (∀ t ∈ new, t.Each Tree.Trimmed) ∧ Tree.Trim new.reverse := by
  obtain ⟨⟨-, rfl⟩ | ⟨new, hnew, heach, htrim, -⟩, -⟩ := h
  · exact absurd hmoved (Nat.lt_irrefl _)
  · exact ⟨new, hnew, heach, htrim⟩

/-- Parts that are put behind what waits. -/
theorem Neat.concat (h : s.Neat start base) (parts : List Tree) (hp : Tree.Trim parts.reverse)
    (heach : ∀ t ∈ parts, t.Each Tree.Trimmed) (hs' : s'.Sorted)
    (hb : s'.built = parts ++ s.flush.built) (hrest : s'.rest.length < s.rest.length) :
    s'.Neat start base := by
  obtain ⟨⟨rfl, rfl⟩ | ⟨new, hnew, hnews, htrim, hmoved⟩, hsorted⟩ := h
  · exact ⟨.inr ⟨parts, hb, heach, hp, hrest⟩, hs'⟩
  · refine ⟨.inr ⟨parts ++ (s.pending.map Tree.leaf).reverse ++ new, ?_, ?_, ?_, by omega⟩, hs'⟩
    · rw [hb, Progress.flush, hnew]
      simp
    · intro t ht
      simp only [List.mem_append, List.mem_reverse, List.mem_map] at ht
      rcases ht with (ht | ⟨k, -, rfl⟩) | ht
      · exact heach t ht
      · exact Tree.each_leaf k
      · exact hnews t ht
    · simpa using htrim.append (s.pending.map Tree.leaf) hp

theorem Neat.take (h : s.Neat start base) (hk : s.current ≠ .endOfFile) :
    s.take.Neat start base := by
  obtain ⟨l, ls, hl, -⟩ := exists_of_current rfl hk
  have hword := (h.sorted.rest l (by simp [hl])).1
  refine h.concat [.leaf l.token] (Tree.trim_singleton hword) (by simp) h.sorted.take ?_ ?_
  · rw [take_of_cons hl]; rfl
  · rw [take_of_cons hl, hl]; simp

/-- What was built in a node or in a run of parts. -/
theorem Neat.rejoin (h : s.Neat start base) (parts : List Tree) (hp : Tree.Trim parts.reverse)
    (heach : ∀ t ∈ parts, t.Each Tree.Trimmed) (hs' : s'.Sorted)
    (hrest : s'.rest.length < s.rest.length) : (s.rejoin s' parts).Neat start base :=
  h.concat parts hp heach ⟨hs'.pending, hs'.rest⟩ rfl hrest

end Progress

open Progress

section Reading

variable {env : Surroundings} {s s' : Progress} {b r : Bool} {start : List Lexeme}
  {base : List Tree} {S : Sight} {f : Form}

/-- What it means that a phrase leaves its run trimmed. -/
def Phrase.Trims (p : Phrase) (s : Progress) (_ : Bool) (s' : Progress) : Prop :=
  p.startsOn.has s.current = true → s'.faults = [] →
    ∀ start base, s.Neat start base → s'.Neat start base

/-- Where a form finds no fault, it leaves its run trimmed, if the phrases in it do. The
induction is on the form; a node and a run of parts are runs of their own, in which
nothing was taken yet. -/
theorem Form.Reads.neat
    (h : Form.Reads env (fun q s b s' => Phrase.Reads env q s b s' ∧ q.Trims s b s') f s b s')
    (hg : s'.faults = []) {origin : List Lexeme} (hrun : r = true → base = [] ∧ origin = start)
    (hf : Watch.headway.fits true f S = true) (ht : f.trims r S = true)
    (hm : Holds Moved origin S s) (hs : s.Neat start base) : s'.Neat start base := by
  have alone {f s b s'}
      (h : Form.Reads env (fun q s b s' => Phrase.Reads env q s b s' ∧ q.Trims s b s') f s b s') :
      Form.Reads env (Phrase.Reads env) f s b s' :=
    h.imp fun _ _ _ _ hq => hq.1
  have moved {f s b s'} (h : Form.Reads env (Phrase.Reads env) f s b s') {S : Sight} {origin : List Lexeme}
      (hg : s'.faults = []) (hf : Watch.headway.fits true f S = true) (hm : Holds Moved origin S s) :
      Holds Moved origin ((Watch.headway.after f S).of b) s' :=
    (Watch.headway_sound env).holds (h.imp fun _ _ _ _ hq => ⟨hq, hq.restsOn⟩) hg
      (fun _ => ⟨origin, rfl⟩) hf hm
  have reached {from_ : List Lexeme} {S : Sight} {s : Progress} (h : Holds Moved from_ S s) :
      S.isEmpty = false := by
    obtain ⟨flag, -, hk⟩ := h
    exact Sight.isEmpty_of_has hk
  induction f generalizing s b s' S r start base origin with
  | answer | next | nextTwo => cases h; exact hs
  | take =>
    cases h
    refine hs.take fun hend => ?_
    obtain ⟨flag, -, hk⟩ := hm
    simp [trims, hend ▸ Sight.has_kinds hk] at ht
  | complain | complainOfToken =>
    cases h
    exact absurd hg (faults_complain_ne _ _ _)
  | seq first second ih₁ ih₂ =>
    simp only [Watch.fits, trims, Bool.and_eq_true] at hf ht
    cases h with
    | seq h₁ h₂ =>
      have hg₁ := (alone h₂).faults_eq hg
      exact ih₂ h₂ hg hrun hf.2 ht.2 (moved (alone h₁) hg₁ hf.1 hm).either
        (ih₁ h₁ hg₁ hrun hf.1 ht.1 hm hs)
  | cond test yes no ih iy ino =>
    simp only [Watch.fits, trims, Bool.and_eq_true] at hf ht
    cases h with
    | condYes h₁ h₂ =>
      have hg₁ := (alone h₂).faults_eq hg
      exact iy h₂ hg hrun hf.1.2 ht.1.2 (moved (alone h₁) hg₁ hf.1.1 hm)
        (ih h₁ hg₁ hrun hf.1.1 ht.1.1 hm hs)
    | condNo h₁ h₂ =>
      have hg₁ := (alone h₂).faults_eq hg
      exact ino h₂ hg hrun hf.2 ht.2 (moved (alone h₁) hg₁ hf.1.1 hm)
        (ih h₁ hg₁ hrun hf.1.1 ht.1.1 hm hs)
  | loop test body iht ihb =>
    simp only [Watch.fits, trims, Bool.and_eq_true] at hf ht
    obtain ⟨⟨hft, hfb⟩, hback⟩ := hf
    obtain ⟨-, s₀, ⟨hs₀, hm₀⟩, h₀⟩ := h.of_loop
      (P := fun s => s.Neat start base ∧ Holds Moved origin (Watch.headway.round test body S) s)
      ⟨hs, hm.left⟩ fun hP h₁ h₂ h₃ => by
        have hg₂ := (alone h₃).faults_eq hg
        have hg₁ := (alone h₂).faults_eq hg₂
        have hm₁ := moved (alone h₁) hg₁ hft hP.2
        exact ⟨ihb h₂ hg₂ hrun hfb ht.2 hm₁ (iht h₁ hg₁ hrun hft ht.1 hP.2 hP.1),
          (moved (alone h₂) hg₂ hfb hm₁).either.within hback⟩
    exact iht h₀ hg hrun hft ht.1 hm₀ hs₀
  | call p =>
    cases h with
    | call h =>
      refine h.2 ?_ hg start base hs
      obtain ⟨flag, -, hk⟩ := hm
      have := Sight.has_of_within hf hk
      cases flag <;> exact this
  | node kind body ih =>
    cases h with
    | node h =>
      rename_i s₁
      simp only [trims, reached hm, Bool.false_or, Bool.and_eq_true] at ht
      obtain ⟨flag, -, hk⟩ := hm
      have hk := Sight.has_kinds hk
      have hfits : Watch.headway.fits true body ⟨S.kinds, .none⟩ = true := by
        have := ht.1
        simp only [movesOn, Bool.and_eq_true] at this
        exact this.1
      have hhere := neat_inside hs.sorted
      have hin := ih h hg (fun _ => ⟨rfl, rfl⟩) hfits ht.2 ⟨false, rfl, hk⟩ hhere
      have hlt : s₁.rest.length < s.rest.length := (alone h).moves hg ht.1 hk
      obtain ⟨new, hnew, heach, htrim⟩ := hin.trim hlt
      rw [List.append_nil] at hnew
      refine hs.rejoin [.node kind s₁.built.reverse] (Tree.trim_singleton rfl) ?_
        hin.sorted hlt
      rw [hnew]
      simpa [Tree.each_node, Tree.Trimmed] using And.intro htrim heach
  | mark body ih =>
    cases h with
    | mark h =>
      rename_i s₁
      simp only [trims, reached hm, Bool.false_or, Bool.and_eq_true] at ht
      obtain ⟨flag, -, hk⟩ := hm
      have hk := Sight.has_kinds hk
      have hfits : Watch.headway.fits true body ⟨S.kinds, .none⟩ = true := by
        have := ht.1
        simp only [movesOn, Bool.and_eq_true] at this
        exact this.1
      have hhere := neat_inside hs.sorted
      have hin := ih h hg (fun _ => ⟨rfl, rfl⟩) hfits ht.2 ⟨false, rfl, hk⟩ hhere
      have hlt : s₁.rest.length < s.rest.length := (alone h).moves hg ht.1 hk
      obtain ⟨new, hnew, heach, htrim⟩ := hin.trim hlt
      rw [List.append_nil] at hnew
      rw [hnew]
      exact hs.rejoin new htrim heach hin.sorted hlt
  | wrap kind body ih =>
    cases h with
    | wrap h =>
      rename_i s₁
      simp only [trims, reached hm, Bool.false_or, Bool.and_eq_true] at ht
      simp only [Watch.fits, Bool.and_eq_true] at hf
      obtain ⟨rfl, rfl⟩ := hrun ht.1.1
      have hin := ih h hg (fun _ => ⟨rfl, rfl⟩) hf.2 ht.1.2 hm hs
      obtain ⟨flag, hm₁, hk⟩ := (moved (alone h) hg hf.2 hm).either
      have hlt : s₁.rest.length < origin.length := by
        cases flag with
        | false => exact absurd (hk.symm.trans (KindSet.not_has_of_isEmpty ht.2)) (by simp)
        | true => exact hm₁
      obtain ⟨new, hnew, heach, htrim⟩ := hin.trim hlt
      rw [List.append_nil] at hnew
      refine ⟨.inr ⟨[.node kind s₁.built.reverse], rfl, ?_, Tree.trim_singleton rfl, hlt⟩,
        ⟨hin.sorted.pending, hin.sorted.rest⟩⟩
      rw [hnew]
      simpa [Tree.each_node, Tree.Trimmed] using And.intro htrim heach
  | enclosed bracket body ih =>
    simp only [Watch.fits, trims, Bool.and_eq_true, Bool.not_eq_true', bne_iff_ne] at hf ht
    cases h with
    | enclosed h =>
      obtain ⟨flag, hmoved, hk⟩ := hm
      have hopen : s.current ≠ .endOfFile := fun hend => by
        have := Sight.has_kinds hk
        rw [hend, ht.1.1] at this
        cases this
      rename_i s₁
      obtain ⟨hclose, heq⟩ := close_of_faults hg
      have hg₁ : s₁.faults = [] := List.suffix_nil.1 (hg ▸ (follows_close ..).faults)
      rw [heq]
      have hin := ih h hg₁ hrun hf.1.2 ht.2
        ((Watch.headway_sound env).take rfl ⟨flag, hmoved, hk⟩) (hs.take hopen)
      exact hin.take (hclose ▸ ht.1.2)

/-- Where there are parameters of a `lambda`, they are trimmed: if there were none, the
colon behind them would be missing. -/
theorem Form.Reads.neat_lambda
    (h : Form.Reads env (fun q s b s' => Phrase.Reads env q s b s' ∧ q.Trims s b s') .lambda s b s')
    (hk : Phrase.lambda.startsOn.has s.current = true) (hg : s'.faults = [])
    (hs : s.Neat start base) : s'.Neat start base := by
  have alone {f s b s'}
      (h : Form.Reads env (fun q s b s' => Phrase.Reads env q s b s' ∧ q.Trims s b s') f s b s') :
      Form.Reads env (Phrase.Reads env) f s b s' :=
    h.imp fun _ _ _ _ hq => hq.1
  cases h with
  | node h =>
  rename_i s₁
  have hlt : s₁.rest.length < s.rest.length :=
    (alone h).moves (K := .only [.lambdaKw]) hg (by decide +kernel) hk
  obtain ⟨_, s₂, htake, hmore⟩ := h.of_seq
  obtain ⟨_, s₃, hparameters, hbody⟩ := hmore.of_seq
  have hg₃ := (alone hbody).faults_eq hg
  have hs₂ : s₂.Neat s.rest [] := by
    cases htake
    refine (neat_inside hs.sorted).take fun hend => ?_
    rw [current_inside] at hend
    rw [hend] at hk
    cases hk
  have hs₃ : s₃.Neat s.rest [] := by
    obtain ⟨c, s₄, htest, hparameters⟩ := hparameters.of_cond
    obtain ⟨rfl, rfl⟩ := htest.of_nextNot
    cases hc : [Kind.colon].contains s₄.current with
    | true =>
      rw [hc] at hparameters
      cases hparameters
      exact hs₂
    | false =>
      rw [hc] at hparameters
      -- where no parameter follows, no colon does either
      have hsome : s₄.current ∉ [Kind.colon, .newline, .endOfFile] := by
        intro hnone
        have hcurrent : s₃.current = s₄.current := by
          cases hparameters with
          | node h =>
            obtain ⟨c, s₅, htest, hskip⟩ := h.of_cond
            obtain ⟨rfl, rfl⟩ := htest.of_nextNot
            rw [current_inside, List.contains_iff_mem.2 hnone] at hskip
            cases hskip
            rfl
        obtain ⟨c, s₅, hcolon, hrest⟩ := hbody.of_cond
        obtain ⟨d, s₆, hnext, hmissing⟩ := hcolon.of_cond
        obtain ⟨rfl, rfl⟩ := hnext.of_next
        rw [hcurrent, hc] at hmissing
        have hg₅ := (alone hrest).faults_eq hg
        cases hmissing
        exact faults_complain_ne _ _ _ hg₅
      refine hparameters.neat hg₃ (S := ⟨.allBut [.colon, .newline, .endOfFile], .none⟩)
        (r := false) (by simp) (by decide +kernel) (by decide +kernel)
        ⟨false, rfl, by simpa [Sight.has] using hsome⟩ hs₂
  have hs₁ : s₁.Neat s.rest [] := hbody.neat hg (S := ⟨.all, .none⟩) (r := false) (by simp)
    (by decide +kernel) (by decide +kernel) ⟨false, rfl, rfl⟩ hs₃
  obtain ⟨new, hnew, heach, htrim⟩ := hs₁.trim hlt
  rw [List.append_nil] at hnew
  refine hs.rejoin [.node .lambdaExpr s₁.built.reverse] (Tree.trim_singleton rfl) ?_
    hs₁.sorted hlt
  rw [hnew]
  simpa [Tree.each_node, Tree.Trimmed] using And.intro htrim heach

/-- Where a phrase finds no fault, it leaves its run trimmed. -/
theorem Phrase.Reads.trims {p : Phrase} (h : Phrase.Reads env p s b s') : p.Trims s b s' := by
  refine h.induct Phrase.Trims fun p s b s' h hk hg start base hs => ?_
  by_cases hp : p = .lambda
  · subst hp
    exact h.neat_lambda hk hg hs
  · have hform := p.trims_form
    rw [beq_eq_false_iff_ne.2 hp, Bool.false_or] at hform
    exact h.neat hg (by simp) p.headway_fits.1 hform ⟨false, rfl, hk⟩ hs

end Reading

/-- No node of a program begins or ends with trivia, and none is empty; the root may. -/
theorem trimmed_parse {t : Text} (h : (parse t).ok = true) :
    ∀ u ∈ (parse t).tree.parts, u.Each Tree.Trimmed := by
  obtain ⟨b, s, hreads, -, -, htree, hfaults⟩ := exists_reading t
  have hs : s.faults = [] := by simpa [Parse.ok, hfaults] using h
  have htrivia (ks : List Token) : ∀ u ∈ ks.map Tree.leaf, u.Each Tree.Trimmed := by simp
  have hneat := hreads.trims rfl hs _ _ (neat_here (sorted_start ..))
  intro u hu
  rw [htree] at hu
  rcases List.mem_append.1 hu with hu | hu
  · rw [List.mem_reverse] at hu
    obtain ⟨hbase, -⟩ | ⟨new, hnew, heach, -⟩ := hneat.built
    · have hmem : u ∈ s.flush.built := List.mem_append_right _ hu
      rw [hbase] at hmem
      simp only [Progress.flush, Progress.start, List.append_nil, List.mem_reverse] at hmem
      exact htrivia _ u hmem
    · rw [hnew] at hu
      rcases List.mem_append.1 hu with hu | hu
      · exact heach u hu
      · simp only [Progress.flush, Progress.start, List.append_nil, List.mem_reverse] at hu
        exact htrivia _ u hu
  · exact htrivia _ u hu

/-! ## Trees of the same outline -/

/-- Where a token stands is left open. -/
def Token.unplaced (k : Token) : Token := k.word.token

namespace Tree

mutual

/-- A tree without the places of its tokens. -/
def unplaced : Tree → Tree
  | .leaf k => .leaf k.unplaced
  | .node kind ts => .node kind (unplacedAll ts)

/-- Trees without the places of their tokens. -/
def unplacedAll : List Tree → List Tree
  | [] => []
  | t :: ts => t.unplaced :: unplacedAll ts

end

@[simp] theorem unplaced_leaf (k : Token) : (leaf k).unplaced = .leaf k.unplaced := by
  simp [unplaced]

@[simp] theorem unplaced_node (kind : Kind) (ts : List Tree) :
    (node kind ts).unplaced = .node kind (ts.map unplaced) := by
  have hall (ts : List Tree) : unplacedAll ts = ts.map unplaced := by
    induction ts with
    | nil => simp [unplacedAll]
    | cons t ts ih => simp [unplacedAll, ih]
  rw [unplaced, hall]

/-- The words of trees that stand side by side, trivia included. -/
def wordsOf (ts : List Tree) : List Word := (tokensOf ts).map Token.word

@[simp] theorem wordsOf_nil : wordsOf [] = [] := by simp [wordsOf]

@[simp] theorem wordsOf_cons (t : Tree) (ts : List Tree) :
    wordsOf (t :: ts) = t.tokens.map Token.word ++ wordsOf ts := by simp [wordsOf]

@[simp] theorem wordsOf_append (ts us : List Tree) : wordsOf (ts ++ us) = wordsOf ts ++ wordsOf us := by
  simp [wordsOf]

/-- Parts that are trimmed begin and end with a word, if they do not begin or end with
trivia. -/
theorem edges_trimmed (t : Tree) (h : t.Each Trimmed) (ht : t.isTrivia = false) :
    (∃ k ks, t.tokens = k :: ks ∧ k.isTrivia = false) ∧
      ∃ ks k, t.tokens = ks ++ [k] ∧ k.isTrivia = false := by
  match t with
  | .leaf k => exact ⟨⟨k, [], by simp, ht⟩, [], k, by simp, ht⟩
  | .node kind ts =>
    obtain ⟨htrim, heach⟩ := each_node.1 h
    obtain ⟨first, more, hfirst⟩ := List.exists_cons_of_ne_nil htrim.ne
    obtain ⟨front, last, hlast⟩ := List.eq_nil_or_concat ts |>.resolve_left htrim.ne
    have hmem : first ∈ ts := by simp [hfirst]
    have hmem' : last ∈ ts := by simp [hlast]
    obtain ⟨⟨k, ks, hk, hkt⟩, -⟩ := edges_trimmed first (heach _ hmem) (htrim.first _ (by simp [hfirst]))
    obtain ⟨-, ls, l, hl, hlt⟩ := edges_trimmed last (heach _ hmem') (htrim.last _ (by simp [hlast]))
    refine ⟨⟨k, ks ++ tokensOf more, by simp [hfirst, hk], hkt⟩,
      tokensOf front ++ ls, l, by simp [hlast, hl], hlt⟩
termination_by sizeOf t
decreasing_by
  · have := List.sizeOf_lt_of_mem hmem
    simp only [node.sizeOf_spec]
    omega
  · have := List.sizeOf_lt_of_mem hmem'
    simp only [node.sizeOf_spec]
    omega

end Tree

/-- Of two ways to divide a list, each behind a member of some sort, those with as many
such members in front are the same. -/
theorem append_inj_of_filter {α : Type} {p : α → Bool} {as bs cs ds : List α}
    (h : as ++ bs = cs ++ ds) (hlen : (as.filter p).length = (cs.filter p).length)
    (has : ∀ a ∈ as.getLast?, p a = true) (hcs : ∀ c ∈ cs.getLast?, p c = true) : as = cs ∧ bs = ds := by
  have hsame {as cs more : List α} (hc : cs = as ++ more)
      (hlen : (as.filter p).length = (cs.filter p).length)
      (hcs : ∀ c ∈ cs.getLast?, p c = true) : as = cs := by
    subst hc
    rcases List.eq_nil_or_concat more with rfl | ⟨front, last, rfl⟩
    · simp
    · have hlast : p last = true := hcs last (by simp [← List.append_assoc])
      simp [hlast] at hlen
  have has_eq : as = cs := by
    rcases List.append_eq_append_iff.1 h with ⟨more, hc, -⟩ | ⟨more, ha, -⟩
    · exact hsame hc hlen hcs
    · exact (hsame ha hlen.symm has).symm
  subst has_eq
  exact ⟨rfl, List.append_cancel_left h⟩

namespace Tree

/-- There is only one way to put trivia into a trimmed tree so that it spells given
words. -/
theorem unplaced_eq {ts us : List Tree} (hts : ∀ t ∈ ts, t.Each Trimmed)
    (hus : ∀ u ∈ us, u.Each Trimmed)
    (houtline : outlines Token.word ts = outlines Token.word us) (hwords : wordsOf ts = wordsOf us) :
    ts.map unplaced = us.map unplaced := by
  have hne {t : Tree} (h : t.Each Trimmed) : t.tokens ≠ [] := by
    cases t with
    | leaf k => simp
    | node kind ps =>
      obtain ⟨⟨k, ks, hk, -⟩, -⟩ := edges_trimmed _ h rfl
      simp [hk]
  have hleaf {k : Token} {kind : Kind} {ps ts us : List Tree} (h : (node kind ps).Each Trimmed)
      (houtline : outlines Token.word (.leaf k :: ts) = outlines Token.word (.node kind ps :: us))
      (hwords : wordsOf (.leaf k :: ts) = wordsOf (.node kind ps :: us)) : False := by
    obtain ⟨⟨l, ls, hl, hlt⟩, -⟩ := edges_trimmed _ h rfl
    rw [wordsOf_cons, wordsOf_cons, hl, tokens_leaf] at hwords
    have hkl : k.word = l.word := (List.cons.inj hwords).1
    have hkt : k.isTrivia = false := by
      rw [← hlt]
      exact congrArg (fun w : Word => w.kind.isTrivia) hkl
    rw [outlines_cons, outlines_cons, outline_leaf _ hkt, outline_node] at houtline
    cases (List.cons.inj houtline).1
  match ts, us with
  | [], [] => rfl
  | [], u :: us =>
    have := hne (hus u (by simp))
    simp_all
  | t :: ts, [] =>
    have := hne (hts t (by simp))
    simp_all
  | .leaf k :: ts, .leaf l :: us =>
    obtain ⟨-, hts⟩ := List.forall_mem_cons.1 hts
    obtain ⟨-, hus⟩ := List.forall_mem_cons.1 hus
    have hkl : k.word = l.word := by simpa using congrArg List.head? hwords
    have hmore : wordsOf ts = wordsOf us := by simpa using congrArg List.tail hwords
    have hsame : outline Token.word (.leaf k) = outline Token.word (.leaf l) := by
      have htrivia : k.isTrivia = l.isTrivia := congrArg (fun w : Word => w.kind.isTrivia) hkl
      simp [outline, hkl, htrivia]
    rw [outlines_cons, outlines_cons, hsame, List.append_cancel_left_eq] at houtline
    have ihs := unplaced_eq hts hus houtline hmore
    simp [ihs, Token.unplaced, hkl]
  | .leaf k :: ts, .node kind qs :: us => exact (hleaf (hus _ (by simp)) houtline hwords).elim
  | .node kind ps :: ts, .leaf l :: us =>
    exact (hleaf (hts _ (by simp)) houtline.symm hwords.symm).elim
  | .node kind ps :: ts, .node kind' qs :: us =>
    obtain ⟨hp, hts'⟩ := List.forall_mem_cons.1 hts
    obtain ⟨hq, hus'⟩ := List.forall_mem_cons.1 hus
    rw [outlines_cons, outlines_cons, outline_node, outline_node, List.singleton_append,
      List.singleton_append, List.cons.injEq, Outline.node.injEq] at houtline
    obtain ⟨⟨rfl, hparts⟩, hmore⟩ := houtline
    simp only [wordsOf_cons, tokens_node] at hwords
    have hlast {ps : List Tree} (h : (node kind ps).Each Trimmed) :
        ∀ w ∈ ((tokensOf ps).map Token.word).getLast?, (!w.kind.isTrivia) = true := by
      obtain ⟨-, ks, k, hk, hkt⟩ := edges_trimmed _ h rfl
      rw [tokens_node] at hk
      simpa [hk, Token.word, Token.isTrivia] using hkt
    have hcount (ps : List Tree) : (((tokensOf ps).map Token.word).filter fun w => !w.kind.isTrivia) =
        Outline.wordsOf (outlines Token.word ps) := by
      rw [words_outlines, significant, List.filter_map]
      rfl
    obtain ⟨hin, hout⟩ := append_inj_of_filter hwords (by rw [hcount, hcount, hparts])
      (hlast hp) (hlast hq)
    have ihp := unplaced_eq (each_node.1 hp).2 (each_node.1 hq).2 hparts hin
    have ihs := unplaced_eq hts' hus' hmore hout
    simp [ihp, ihs]

end Tree

end SceneGate
