/-
Lines that begin with an import. What is read as an import statement is written as one
(`Import.exists_statement`), and behind it the line ends, perhaps behind a semicolon, or
simple statements follow that would be a program by themselves. Every such line is a program,
and its view tells what the import brings in (`imports_parse`).
-/
import SceneGate.Proofs.ImportGrammar
import SceneGate.Proofs.LineRests

namespace SceneGate

open Form Progress

namespace Import

section Soundness

variable {env : Surroundings} {a : Bool} {s s' : Progress}

/-! ## What is read as an import -/

theorem exists_name (h : Phrase.Reads env .name s a s') (hg : s'.faults = []) :
    ∃ x : Word, x.kind = .ident ∧ s.words = x :: s'.words := by
  rcases h.form.of_cond_kind with ⟨hk, hform⟩ | ⟨-, hform⟩
  · obtain ⟨s₀, htake, rfl⟩ := hform.of_node
    cases htake
    exact words_take (s := s.inside) hk (by decide)
  · cases hform
    exact absurd hg (faults_complain_ne _ _ _)

/-- Behind any name the rest of a path is read. -/
theorem exists_dotted
    (h : Form.Reads env (Phrase.Reads env)
      (.loop (.nextTwo .dot .ident) (.seq .take (eat .ident))) s a s') :
    ∀ x : Word, x.kind = .ident →
      ∃ more, IsPath (x :: more) ∧ s.words = more ++ s'.words := by
  apply h.loop_back
  · intro s htest x hx
    obtain ⟨rfl, -⟩ := htest.of_nextTwo
    exact ⟨[], .name hx, rfl⟩
  · intro s s₁ b s₂ htest hbody _ ih x hx
    obtain ⟨rfl, htwo⟩ := htest.of_nextTwo
    obtain ⟨hdot, hident⟩ : s₁.current = .dot ∧ s₁.following = .ident := by simpa using htwo.symm
    obtain ⟨d, hd, hdwords⟩ := words_take hdot (by decide)
    have hnext : s₁.take.current = .ident := by
      rw [current_eq_words, ← hident, following_eq_words, hdwords, secondKind_cons]
    obtain ⟨_, _, htake, heat⟩ := hbody.of_seq
    cases htake
    cases b with
    | true =>
      obtain ⟨-, rfl⟩ := heat.of_eat_yes
      obtain ⟨y, hy, hywords⟩ := words_take hnext (by decide)
      obtain ⟨more, hmore, hmwords⟩ := ih y hy
      exact ⟨d :: y :: more, .dotted hx hd hmore, by rw [hdwords, hywords, hmwords]; rfl⟩
    | false => exact absurd hnext heat.of_eat_no.1

theorem exists_path (h : Phrase.Reads env .dottedName s a s') (hg : s'.faults = []) :
    ∃ path, IsPath path ∧ s.words = path ++ s'.words := by
  obtain ⟨s₀, hbody, rfl⟩ := h.form.of_node
  obtain ⟨c, s₁, hexpect, hloop⟩ := hbody.of_cond
  obtain ⟨rfl, hk, rfl⟩ := hexpect.of_expect (by cases c <;> exact hloop.faults_eq hg)
  obtain ⟨x, hx, hwords⟩ := words_take hk (by decide)
  obtain ⟨more, hmore, hmwords⟩ := exists_dotted hloop x hx
  refine ⟨x :: more, hmore, ?_⟩
  rw [← words_inside, hwords, hmwords]
  rfl

theorem exists_rename (h : Form.Reads env (Phrase.Reads env) asName s a s') (hg : s'.faults = []) :
    ∃ rename, IsRename rename ∧ s.words = rename ++ s'.words := by
  rcases h.of_cond_eat with ⟨hk, hname⟩ | ⟨-, hskip⟩
  · cases hname with
    | call hname =>
      obtain ⟨w, hw, hwords⟩ := words_take hk (by decide)
      obtain ⟨x, hx, hxwords⟩ := exists_name hname hg
      exact ⟨[w, x], .named hw hx, by rw [hwords, hxwords]; rfl⟩
  · cases hskip
    exact ⟨[], .nothing, rfl⟩

theorem exists_module (h : Phrase.Reads env .importAlias s a s') (hg : s'.faults = []) :
    ∃ ws m, IsModule ws m ∧ s.words = ws ++ s'.words := by
  obtain ⟨s₀, hbody, rfl⟩ := h.form.of_node
  obtain ⟨_, s₁, hpath, hname⟩ := hbody.of_seq
  cases hpath with
  | call hpath =>
    obtain ⟨path, hpath, hwords⟩ := exists_path hpath (hname.faults_eq hg)
    obtain ⟨rename, hrename, hrest⟩ := exists_rename hname hg
    refine ⟨path ++ rename, _, ⟨path, rename, rfl, hpath, hrename, rfl⟩, ?_⟩
    rw [← words_inside, hwords, hrest, List.append_assoc]
    rfl

theorem exists_imported (h : Phrase.Reads env .importedName s a s') (hg : s'.faults = []) :
    ∃ ws n, IsName ws n ∧ s.words = ws ++ s'.words := by
  obtain ⟨s₀, hbody, rfl⟩ := h.form.of_node
  obtain ⟨_, s₁, hname, hrename⟩ := hbody.of_seq
  cases hname with
  | call hname =>
    obtain ⟨x, hx, hwords⟩ := exists_name hname (hrename.faults_eq hg)
    obtain ⟨rename, hrename, hrest⟩ := exists_rename hrename hg
    refine ⟨x :: rename, _, ⟨x, rename, rfl, hx, hrename, rfl⟩, ?_⟩
    rw [← words_inside, hwords, hrest]
    rfl

/-- Behind an item further ones are read, each behind a comma. Behind the last no comma stands,
or one behind which the list does not go on. -/
theorem exists_moreItems {Item : List Word → Text → Prop} {p : Phrase} (kinds : List Kind)
    {again : Form} (hagain : again = skip ∨ again = nextNot kinds)
    (hitem : ∀ {s a s'}, Phrase.Reads env p s a s' → s'.faults = [] →
      ∃ ws m, Item ws m ∧ s.words = ws ++ s'.words)
    (h : Form.Reads env (Phrase.Reads env) (.loop (both (eat .comma) again) (.call p)) s a s')
    (hg : s'.faults = []) :
    ∀ ws m, Item ws m → ∃ vs ms, Separated Item (ws ++ vs) ms ∧ (s.words = vs ++ s'.words ∨
      ∃ c : Word, again = nextNot kinds ∧ c.kind = .comma ∧ s.words = vs ++ c :: s'.words) := by
  apply h.loop_back
  · intro s htest ws m h
    refine ⟨[], [m], by simpa using Separated.last h, ?_⟩
    rcases htest.of_cond_eat with ⟨hk, hmore⟩ | ⟨-, hmore⟩
    · obtain ⟨c, hc, hwords⟩ := words_take hk (by decide)
      rcases hagain with rfl | rfl
      · cases hmore
      · obtain ⟨rfl, -⟩ := hmore.of_nextNot
        exact .inr ⟨c, rfl, hc, hwords⟩
    · cases hmore
      exact .inl rfl
  · intro s s₂ b s₃ htest hbody hloop ih ws m h
    rcases htest.of_cond_eat with ⟨hk, hmore⟩ | ⟨-, hmore⟩
    · obtain ⟨c, hc, hwords⟩ := words_take hk (by decide)
      obtain rfl : s₂ = s.take := by
        rcases hagain with rfl | rfl
        · cases hmore
          rfl
        · exact hmore.of_nextNot.1
      cases hbody with
      | call hbody =>
        obtain ⟨us, n, hus, hitem⟩ := hitem hbody (hloop.faults_eq hg)
        obtain ⟨vs, ms, hvs, hend⟩ := ih us n hus
        refine ⟨c :: (us ++ vs), m :: ms, .more h hc hvs, ?_⟩
        rw [hwords, hitem]
        simpa using hend
    · cases hmore

theorem exists_separated {Item : List Word → Text → Prop} {p : Phrase} (kinds : List Kind)
    {again : Form} (hagain : again = skip ∨ again = nextNot kinds)
    (hitem : ∀ {s a s'}, Phrase.Reads env p s a s' → s'.faults = [] →
      ∃ ws m, Item ws m ∧ s.words = ws ++ s'.words)
    (h : Form.Reads env (Phrase.Reads env) (commaList again (.call p)) s a s')
    (hg : s'.faults = []) :
    ∃ ws ms, Separated Item ws ms ∧ (s.words = ws ++ s'.words ∨
      ∃ c : Word, again = nextNot kinds ∧ c.kind = .comma ∧ s.words = ws ++ c :: s'.words) := by
  obtain ⟨_, s₁, hfirst, hloop⟩ := h.of_seq
  cases hfirst with
  | call hfirst =>
    obtain ⟨ws, m, hws, hwords⟩ := hitem hfirst (hloop.faults_eq hg)
    obtain ⟨vs, ms, hvs, hend⟩ := exists_moreItems kinds hagain hitem hloop hg ws m hws
    exact ⟨ws ++ vs, ms, hvs, by rw [hwords]; simpa using hend⟩

theorem exists_modules
    (h : Form.Reads env (Phrase.Reads env) (commaList skip (.call .importAlias)) s a s')
    (hg : s'.faults = []) : ∃ ws ms, Separated IsModule ws ms ∧ s.words = ws ++ s'.words := by
  obtain ⟨ws, ms, hws, hend⟩ := exists_separated [] (.inl rfl) exists_module h hg
  exact ⟨ws, ms, hws, hend.resolve_right fun ⟨_, hskip, _⟩ => nomatch hskip⟩

theorem exists_areImported
    (h : Form.Reads env (Phrase.Reads env) (select (commaList skip (.call .importedName)) [
      (eat .star, skip),
      (.next [.lParen], .enclosed .rParen (commaList (nextNot [.rParen]) (.call .importedName)))])
      s a s') (hg : s'.faults = []) : ∃ ws, AreImported ws ∧ s.words = ws ++ s'.words := by
  rcases h.of_cond_eat with ⟨hk, hskip⟩ | ⟨-, hrest⟩
  · cases hskip
    obtain ⟨w, hw, hwords⟩ := words_take hk (by decide)
    exact ⟨[w], .all hw, hwords⟩
  · rcases hrest.of_cond_kind with ⟨hk, hbrackets⟩ | ⟨-, hnames⟩
    · cases hbrackets with
      | enclosed hbody =>
        obtain ⟨hclose, htake⟩ := close_of_faults hg
        rw [htake] at hg ⊢
        obtain ⟨o, ho, howords⟩ := words_take hk (by decide)
        obtain ⟨c, hc, hcwords⟩ := words_take hclose (by decide)
        obtain ⟨ws, ns, hws, hend⟩ := exists_separated _ (.inr rfl) exists_imported hbody
          (List.suffix_nil.1 (hg ▸ (follows_take _).faults))
        rw [howords]
        rcases hend with hend | ⟨d, -, hd, hend⟩
        · exact ⟨_, .bracketed ho hws hc, by simp [hend, hcwords]⟩
        · exact ⟨_, .trailing ho hws hd hc, by simp [hend, hcwords]⟩
    · obtain ⟨ws, ns, hws, hend⟩ :=
        exists_separated [] (.inl rfl) exists_imported hnames hg
      exact ⟨ws, .names hws, hend.resolve_right fun ⟨_, hskip, _⟩ => nomatch hskip⟩

theorem exists_source
    (h : Form.Reads env (Phrase.Reads env) (opt (.next [.ident]) (.call .dottedName)) s a s')
    (hg : s'.faults = []) : ∃ path m, IsSource path m ∧ s.words = path ++ s'.words := by
  rcases h.of_cond_kind with ⟨-, hform⟩ | ⟨-, hform⟩
  · cases hform with
    | call hpath =>
      obtain ⟨path, hpath, hwords⟩ := exists_path hpath hg
      exact ⟨path, _, .path hpath, hwords⟩
  · cases hform
    exact ⟨[], none, .none, rfl⟩

theorem exists_dots
    (h : Form.Reads env (Phrase.Reads env) (.loop (.next [.dot, .ellipsis]) .take) s a s') :
    ∃ ds : List Word, (∀ d ∈ ds, d.kind ∈ [.dot, .ellipsis]) ∧ s.words = ds ++ s'.words := by
  apply h.loop_back
  · intro s htest
    obtain ⟨rfl, -⟩ := htest.of_next
    exact ⟨[], by simp, rfl⟩
  · intro s s₁ b s₂ htest htake _ ih
    obtain ⟨rfl, hk⟩ := htest.of_next
    cases htake
    have hk : s₁.current ∈ [Kind.dot, .ellipsis] := List.contains_iff_mem.1 hk.symm
    obtain ⟨d, hd, hwords⟩ := words_take (s := s₁) rfl (by intro heof; simp [heof] at hk)
    obtain ⟨ds, hds, hrest⟩ := ih
    exact ⟨d :: ds, List.forall_mem_cons.2 ⟨hd ▸ hk, hds⟩, by rw [hwords, hrest]; rfl⟩

/-- What is read as a statement that begins as an import does is written as one. -/
theorem exists_statement (h : Phrase.Reads env .smallStatement s a s') (hg : s'.faults = [])
    (hk : s.current ∈ [.importKw, .fromKw]) :
    ∃ ws i, IsStatement ws i ∧ s.words = ws ++ s'.words := by
  simp only [List.mem_cons, List.not_mem_nil, or_false] at hk
  rcases hk with hk | hk
  · have hform := h.form.of_chosen (by rw [hk]; rfl)
    obtain ⟨s₀, hbody, rfl⟩ := hform.of_node
    obtain ⟨_, _, htake, hlist⟩ := hbody.of_seq
    cases htake
    obtain ⟨k, hk, hwords⟩ := words_take (s := s.inside) hk (by decide)
    obtain ⟨ws, ms, hws, hrest⟩ := exists_modules hlist hg
    exact ⟨k :: ws, _, .plain hk hws, by rw [← words_inside, hwords, hrest]; rfl⟩
  · have hform : Form.Reads env (Phrase.Reads env) (.call .importFrom) s a s' :=
      h.form.of_chosen (by rw [hk]; rfl)
    cases hform with
    | call hfrom =>
      obtain ⟨s₀, hbody, rfl⟩ := hfrom.form.of_node
      obtain ⟨_, _, htake, hbody⟩ := hbody.of_seq
      cases htake
      obtain ⟨_, s₁, hdots, hbody⟩ := hbody.of_seq
      obtain ⟨_, s₂, hsource, hopt⟩ := hbody.of_seq
      obtain ⟨c, s₃, hexpect, hnames⟩ := hopt.of_cond
      have hg₃ : s₃.faults = [] := by cases c <;> exact hnames.faults_eq hg
      obtain ⟨rfl, hi, rfl⟩ := hexpect.of_expect hg₃
      obtain ⟨k, hk, hwords⟩ := words_take (s := s.inside) hk (by decide)
      obtain ⟨ds, hds, hdwords⟩ := exists_dots hdots
      obtain ⟨path, m, hpath, hpwords⟩ := exists_source hsource (hexpect.faults_eq hg₃)
      obtain ⟨i, hi, hiwords⟩ := words_take hi (by decide)
      obtain ⟨ws, hws, hrest⟩ := exists_areImported hnames hg
      refine ⟨_, _, .fromModule hk hds hpath hi hws, ?_⟩
      rw [← words_inside, hwords, hdwords, hpwords, hiwords, hrest]
      simp
      rfl

end Soundness

/-! ## Words of imports stand on one line -/

/-- The kinds of words in the items of an import. -/
def inItems : List Kind := [.ident, .dot, .asKw, .comma]

section Words

variable {ws rename path : List Word} {m : Text} {ms : List Text} {i : Import} {d : Nat}

theorem IsModule.kinds (h : IsModule ws m) : ∀ w ∈ ws, w.kind ∈ inItems := by
  obtain ⟨path, rename, rfl, hpath, hrename, -⟩ := h
  have hpaths : [Kind.ident, .dot] ⊆ inItems := by decide
  have hrenames : [Kind.asKw, .ident] ⊆ inItems := by decide
  exact List.forall_mem_append.2
    ⟨fun w hw => hpaths (hpath.kinds w hw), fun w hw => hrenames (hrename.kinds w hw)⟩

theorem IsName.kinds (h : IsName ws m) : ∀ w ∈ ws, w.kind ∈ inItems := by
  obtain ⟨x, rename, rfl, hx, hrename, -⟩ := h
  exact IsModule.kinds ⟨[x], rename, rfl, .name hx, hrename, rfl⟩

theorem Separated.kinds {Item : List Word → Text → Prop} (h : Separated Item ws ms)
    (hitem : ∀ {ws m}, Item ws m → ∀ w ∈ ws, w.kind ∈ inItems) : ∀ w ∈ ws, w.kind ∈ inItems := by
  induction h with
  | last h => exact hitem h
  | more h hc _ ih =>
    exact List.forall_mem_append.2 ⟨hitem h, List.forall_mem_cons.2 ⟨hc ▸ by decide, ih⟩⟩

/-- Items open no bracket. -/
theorem depthBehind_items (h : ∀ w ∈ ws, w.kind ∈ inItems) : Word.depthBehind d ws = d := by
  have hitems : ∀ k ∈ inItems, k.isBracket = false := by decide
  exact Word.depthBehind_of_not_isBracket (fun w hw => hitems _ (h w hw)) d

theorem AreImported.depth (h : AreImported ws) : Word.depthBehind d ws = d := by
  cases h with
  | all hw => simp [hw, Layout.depthAfter]
  | names h => exact depthBehind_items (h.kinds IsName.kinds)
  | bracketed ho h hc => simp [ho, hc, depthBehind_items (h.kinds IsName.kinds), Layout.depthAfter]
  | trailing ho h hd hc =>
    simp [ho, hd, hc, depthBehind_items (h.kinds IsName.kinds), Layout.depthAfter]

/-- Behind an import no bracket is open that was not open before. -/
theorem IsStatement.depth (h : IsStatement ws i) : Word.depthBehind d ws = d := by
  cases h with
  | plain hk h =>
    simp [hk, depthBehind_items (h.kinds IsModule.kinds), Layout.depthAfter]
  | @fromModule k i ds path ws m hk hds hsource hi h =>
    have hdots : ∀ k ∈ [Kind.dot, .ellipsis], k.isBracket = false := by decide
    have hpaths : [Kind.ident, .dot] ⊆ inItems := by decide
    have hpath : Word.depthBehind d path = d := by
      cases hsource with
      | none => rfl
      | path h => exact depthBehind_items fun w hw => hpaths (h.kinds w hw)
    have hfront := Word.depthBehind_of_not_isBracket (fun w hw => hdots _ (hds w hw)) d
    simp [hk, hi, hfront, hpath, h.depth, Layout.depthAfter]

theorem AreImported.no_break (h : AreImported ws) : ∀ w ∈ ws, w.kind ≠ .newline := by
  have hitems : ∀ k ∈ inItems, k ≠ .newline := by decide
  have hnames {ws : List Word} {ns : List Text} (h : Separated IsName ws ns) :
      ∀ w ∈ ws, w.kind ≠ .newline := fun w hw => hitems _ (h.kinds IsName.kinds w hw)
  cases h with
  | all hw => simp [hw]
  | names h => exact hnames h
  | bracketed ho h hc => simpa [ho, hc, or_imp, forall_and] using hnames h
  | trailing ho h hd hc => simpa [ho, hd, hc, or_imp, forall_and] using hnames h

/-- An import stands on one line. -/
theorem IsStatement.no_break (h : IsStatement ws i) : ∀ w ∈ ws, w.kind ≠ .newline := by
  have hitems : ∀ k ∈ inItems, k ≠ .newline := by decide
  cases h with
  | plain hk h =>
    exact List.forall_mem_cons.2
      ⟨by simp [hk], fun w hw => hitems _ (h.kinds IsModule.kinds w hw)⟩
  | fromModule hk hds hsource hi h =>
    have hdots : ∀ k ∈ [Kind.dot, .ellipsis], k ≠ .newline := by decide
    have hpaths : ∀ k ∈ [Kind.ident, .dot], k ≠ .newline := by decide
    refine List.forall_mem_cons.2 ⟨by simp [hk], List.forall_mem_append.2
      ⟨fun w hw => hdots _ (hds w hw), List.forall_mem_append.2
        ⟨fun w hw => ?_, List.forall_mem_cons.2 ⟨by simp [hi], h.no_break⟩⟩⟩⟩
    cases hsource with
    | none => cases hw
    | path h => exact hpaths _ (h.kinds w hw)

end Words

/-! ## Lines of imports -/

/-- Lines that begin with an import, as they end with the word, with what the first statement
and what the statements behind it bring in. Behind the import the line ends, perhaps behind a
semicolon, or simple statements follow that would be a program by themselves. -/
inductive IsLine (v : Word) : List Word → Import → List Import → Prop
  | alone {ws : List Word} {i : Import} : IsStatement ws i → IsLine v ws i []
  | closed {ws : List Word} {c : Word} {i : Import} : IsStatement ws i → c.kind = .semicolon →
      IsLine v (ws ++ [c]) i []
  | followed {ws vs : List Word} {c : Word} {i : Import} {u : Text} : IsStatement ws i →
      c.kind = .semicolon → vs ≠ [] → nextKind vs ∉ Kind.compoundStarts → OneLine u vs v →
      (parse u).ok = true → IsLine v (ws ++ c :: vs) i (parse u).tree.imports

section Lines

variable {t : Text} {ws : List Word} {v : Word} {i : Import} {is : List Import}

/-- The imports among the statements of a program of the outline. -/
def importsOf (os : List (Outline Word)) : List Import := (Outline.node .sourceFile os).tree.imports

theorem importsOf_cons_node {k : Kind} {ps os : List (Outline Word)}
    (h : ofTree? (Outline.node k ps).tree = some i) :
    importsOf (.node k ps :: os) = i :: importsOf os := by
  rw [importsOf, Tree.imports, Outline.tree, Outline.trees]
  exact List.filterMap_cons_some h

theorem importsOf_cons_word (w : Word) (os : List (Outline Word)) :
    importsOf (.word w :: os) = importsOf os := rfl

/-- The outline of a program tells its imports. -/
theorem imports_of_outline {os : List (Outline Word)}
    (h : (parse t).tree.outline Token.word = [.node .sourceFile os]) :
    (parse t).tree.imports = importsOf os := by
  have hbare : (parse t).tree.bare Token.word = (Outline.node .sourceFile os).tree := by
    obtain ⟨parts, htree⟩ := parse_root t
    rw [htree, Tree.outline_node] at h
    rw [htree, Tree.bare, (List.cons.inj h).1]
  rw [importsOf, ← hbare, Tree.imports_bare Token.telling_word (spelled_parse t)]

/-- A line that begins with an import is read as simple statements. -/
theorem IsLine.simpleLine (h : IsLine v ws i is) (hv : v.kind = .newline) :
    ∃ os, SimpleLine (ws ++ [v]) os ∧ importsOf os = i :: is := by
  cases h with
  | alone h =>
    obtain ⟨k, ps, htakes, hview⟩ := h.takes [v] (by simp [hv])
    exact ⟨[.node k ps, .word v], .of_takes htakes (makes_lineRest hv _), importsOf_cons_node hview⟩
  | @closed ws c _ h hc =>
    obtain ⟨k, ps, htakes, hview⟩ := h.takes [c, v] (by simp [hc])
    rw [List.append_assoc]
    exact ⟨[.node k ps, .word c, .word v], .of_takes htakes (makes_lineRest_closed hc hv _),
      importsOf_cons_node hview⟩
  | @followed ws vs c _ u h hc hne hstart hu hok =>
    obtain ⟨k, ps, htakes, hview⟩ := h.takes (c :: (vs ++ [v])) (by simp [hc])
    obtain ⟨os, hos⟩ := hu.simpleLine hne hstart hok
    have hnext : nextKind (vs ++ [v]) ≠ .newline := fun hnl =>
      (hu.begins hne hstart).1 (by simp [hnl])
    have hrest := hos.makes_lineRest hc hnext [.node k ps]
    refine ⟨.node k ps :: .word c :: os, ?_, ?_⟩
    · rw [List.append_assoc, List.cons_append]
      exact .of_takes htakes (by simpa using hrest)
    · rw [importsOf_cons_node hview, importsOf_cons_word,
        imports_of_outline (hu.parse hne hstart hos).2]

theorem IsStatement.ne_nil {ws : List Word} (h : IsStatement ws i) : ws ≠ [] := by
  cases h <;> exact List.cons_ne_nil _ _

/-- What is read behind a semicolon would be a program by itself. -/
theorem exists_followed {env : Surroundings} {s s' : Progress} {a : Bool} {front vs : List Word}
    {c : Word} (h : OneLine t (front ++ c :: vs) v) (hfront : IsStatement front i)
    (hc : c.kind = .semicolon) (hvs : vs ≠ []) (hreads : Phrase.Reads env .simpleStatements s a s')
    (hs : s.Sorted) (hg : s'.faults = []) (hwords : s.words = vs ++ [v]) (hnone : s'.words = []) :
    ∃ is, IsLine v (front ++ c :: vs) i is := by
  obtain ⟨u, hu⟩ := h.exists_rest hfront.ne_nil hfront.depth hc hvs
  obtain ⟨os, hos⟩ := hreads.simpleLine hs hg hnone
  have hstart : nextKind vs ∉ Kind.compoundStarts := by
    obtain ⟨_, _, hcall, hrest⟩ := hreads.form.of_seq
    cases hcall with
    | call hsmall =>
      have hrefuses := hsmall.refuses rfl (hrest.faults_eq hg)
      rw [current_eq_words, hwords] at hrefuses
      obtain ⟨w, vs, rfl⟩ := List.exists_cons_of_ne_nil hvs
      exact hrefuses
  exact ⟨_, .followed hfront hc hvs hstart hu (hu.parse hvs hstart (hwords ▸ hos)).1⟩

/-- No compound statement begins as an import does. -/
theorem begins_simple (h : nextKind ws ∈ [.importKw, .fromKw]) :
    ws ≠ [] ∧ nextKind ws ∉ Kind.compoundStarts := by
  have hkinds : ∀ k ∈ [Kind.importKw, .fromKw], k ≠ .endOfFile ∧ k ∉ Kind.compoundStarts := by
    decide
  obtain ⟨hend, hsimple⟩ := hkinds _ h
  exact ⟨fun hnil => hend (by rw [hnil]; rfl), hsimple⟩

/-- What is read behind an import ends the line, or would be a program by itself. -/
theorem exists_isLine_of_rest {env : Surroundings} {s s' : Progress} {a : Bool} {front : List Word}
    (h : OneLine t ws v) (hfront : IsStatement front i)
    (hrest : Form.Reads env (Phrase.Reads env) lineRest s a s') (hs : s.Sorted)
    (hg : s'.faults = []) (hwords : ws ++ [v] = front ++ s.words) (hnone : s'.words = []) :
    ∃ is, IsLine v ws i is := by
  rcases hrest.lineRest hg with heof | ⟨u, hu, hline⟩ | ⟨c, hc, hline, hmore⟩
  · -- an import goes on neither over the end of its line nor over the end of the text
    rw [current_eq_words] at heof
    cases hleft : s.words with
    | nil =>
      rw [hleft, List.append_nil] at hwords
      exact absurd h.ends (hfront.no_break v (hwords ▸ by simp))
    | cons w rest =>
      rw [hleft] at hwords heof
      have hends : ∀ w ∈ ws ++ [v], w.kind ≠ .endOfFile :=
        List.forall_mem_append.2
          ⟨fun w hw heof => h.line w hw (by simp [heof, Kind.addedByLayout]), by simp [h.ends]⟩
      exact absurd heof (hends w (hwords ▸ by simp))
  · rw [hline, hnone] at hwords
    obtain ⟨rfl, -⟩ := List.append_inj' hwords rfl
    exact ⟨[], .alone hfront⟩
  · rw [hline] at hwords
    rcases hmore with ⟨u, hu, hend⟩ | ⟨hnext, hsimples⟩
    · rw [hend, hnone, List.append_cons front] at hwords
      obtain ⟨rfl, -⟩ := List.append_inj' hwords rfl
      exact ⟨[], .closed hfront hc⟩
    · rcases s.take.words.eq_nil_or_concat with hnil | ⟨vs, u, hvs⟩
      · rw [hnil] at hwords
        obtain ⟨-, hvc⟩ := List.append_inj' hwords rfl
        obtain rfl : v = c := (List.cons.inj hvc).1
        exact absurd (h.ends.symm.trans hc) (by decide)
      · rw [List.concat_eq_append] at hvs
        rw [hvs, List.append_cons front, ← List.append_assoc] at hwords
        obtain ⟨rfl, hvu⟩ := List.append_inj' hwords rfl
        obtain rfl : v = u := (List.cons.inj hvu).1
        rw [← List.append_cons] at h ⊢
        have hne : vs ≠ [] := by
          rintro rfl
          exact hnext (by rw [current_eq_words, hvs]; exact h.ends)
        exact exists_followed h hfront hc hne hsimples hs.take hg hvs hnone

/-- A program of one line that begins with an import is such a line. -/
theorem exists_isLine (h : OneLine t ws v) (hstart : nextKind ws ∈ [.importKw, .fromKw])
    (hok : (parse t).ok = true) : ∃ i is, IsLine v ws i is := by
  obtain ⟨hne, hsimple⟩ := begins_simple hstart
  obtain ⟨env, s, a, s', hreads, hs, hg, hwords, hnone⟩ := h.exists_reading hne hsimple hok
  have hfirst : s.current = nextKind ws := by
    rw [current_eq_words, hwords]
    obtain ⟨w, ws, rfl⟩ := List.exists_cons_of_ne_nil hne
    rfl
  obtain ⟨_, s₁, hcall, hrest⟩ := hreads.form.of_seq
  cases hcall with
  | call hsmall =>
    obtain ⟨front, i, hfront, hfwords⟩ :=
      exists_statement hsmall (hrest.faults_eq hg) (hfirst ▸ hstart)
    rw [hwords] at hfwords
    exact ⟨i, exists_isLine_of_rest h hfront hrest (hsmall.sorted hs) hg hfwords hnone⟩

end Lines

end Import

/-- A line that begins with `import` or `from` is a program exactly if it is a line of an
import; and then its imports are those that are written on it. -/
theorem imports_parse {t : Text} {ws : List Word} {v : Word} (h : OneLine t ws v)
    (hstart : nextKind ws ∈ [.importKw, .fromKw]) :
    ((parse t).ok = true ↔ ∃ i is, Import.IsLine v ws i is) ∧
      ∀ i is, Import.IsLine v ws i is → (parse t).tree.imports = i :: is := by
  obtain ⟨hne, hsimple⟩ := Import.begins_simple hstart
  refine ⟨⟨Import.exists_isLine h hstart, ?_⟩, ?_⟩
  · rintro ⟨i, is, hline⟩
    obtain ⟨os, hos, -⟩ := hline.simpleLine h.ends
    exact (h.parse hne hsimple hos).1
  · intro i is hline
    obtain ⟨os, hos, hview⟩ := hline.simpleLine h.ends
    rw [Import.imports_of_outline (h.parse hne hsimple hos).2, hview]

/-- Names imported relative to the program, in brackets and with a comma behind the last, then
another import and a statement that is none. -/
theorem imports_parse_relative : ∃ ws v,
    OneLine "from ..a.b import (c as d, e,); import x.y as z, w; pass\n".toList ws v ∧
      nextKind ws ∈ [.importKw, .fromKw] ∧ ∃ i is, Import.IsLine v ws i is ∧
        i :: is = [.fromModule (some "a.b".toList) 2, .plain ["x.y".toList, "w".toList]] := by
  have hline : OneLine "from ..a.b import (c as d, e,); import x.y as z, w; pass\n".toList
      ((significant (layout
        "from ..a.b import (c as d, e,); import x.y as z, w; pass\n".toList).tokens).map
          Token.word).dropLast ⟨.newline, "\n".toList⟩ :=
    ⟨by decide +kernel, rfl, by decide +kernel⟩
  have hparse := imports_parse hline (by decide +kernel)
  obtain ⟨i, is, h⟩ := hparse.1.1 (by decide +kernel)
  exact ⟨_, _, hline, by decide +kernel, i, is, h, (hparse.2 i is h).symm.trans (by decide +kernel)⟩

/-- Where neither dots nor a path stand behind `from`, nothing is reported. -/
theorem from_nowhere : ∃ ws v, OneLine "from import x\n".toList ws v ∧
    ws.map Word.kind = [.fromKw, .importKw, .ident] ∧ (parse "from import x\n".toList).ok = true ∧
      (parse "from import x\n".toList).tree.imports = [.fromModule none 0] :=
  ⟨[⟨.fromKw, "from".toList⟩, ⟨.importKw, "import".toList⟩, ⟨.ident, "x".toList⟩],
    ⟨.newline, "\n".toList⟩, ⟨by decide +kernel, rfl, by decide⟩, rfl, by decide +kernel,
    by decide +kernel⟩

end SceneGate
