/-
Where nodes begin and end. No node but the root begins with trivia, whatever the text
(`leading_parse`): trivia waits until something that means more is read into the run of
parts that is open. In the tree of a program no node is without text
(`written_parse`): it holds a word of the text, or the line break before an indented
block, which is not the one that ends an unfinished last line.
-/
import SceneGate.Proofs.ProgramTrees

namespace SceneGate

/-! ## Beginnings -/

/-- The first token of a node, if it has any, is no trivia. -/
def Tree.Leading (_ : Kind) (ts : List Tree) : Prop :=
  ∀ k ∈ (Tree.tokensOf ts).head?, k.isTrivia = false

/-- Whether parts are put into a node only where a run of parts began in the form, or
before it if `inRun` says so. -/
def Form.wrapsInRuns (inRun : Bool) : Form → Bool
  | .seq first second => first.wrapsInRuns inRun && second.wrapsInRuns inRun
  | .cond test yes no =>
    test.wrapsInRuns inRun && yes.wrapsInRuns inRun && no.wrapsInRuns inRun
  | .loop test body => test.wrapsInRuns inRun && body.wrapsInRuns inRun
  | .node _ body | .mark body => body.wrapsInRuns true
  | .wrap _ body => inRun && body.wrapsInRuns inRun
  | .enclosed _ body => body.wrapsInRuns inRun
  | .answer _ | .next _ | .nextTwo _ _ | .take | .complain _ | .complainOfToken | .call _ => true

theorem Phrase.wrapsInRuns (p : Phrase) : p.form.wrapsInRuns false = true := by
  revert p
  decide +kernel

namespace Progress

variable {s s' : Progress}

/-- The run of parts that is open does not begin with trivia: what has been built of it
begins with something else, and as long as nothing has been, no trivia waits. -/
structure Led (s : Progress) : Prop where
  first : ∀ k ∈ (Tree.tokensOf s.built.reverse).head?, k.isTrivia = false
  pending : Tree.tokensOf s.built.reverse = [] → s.pending = []

theorem led_inside (s : Progress) : s.inside.Led := by
  constructor <;> simp [inside, flush]

theorem Led.flush (h : s.Led) : s.flush.Led := by
  obtain ⟨hfirst, hpending⟩ := h
  refine ⟨?_, fun _ => rfl⟩
  simp only [Progress.flush, List.reverse_append, List.reverse_reverse, Tree.tokensOf_append,
    Tree.tokensOf_leaves]
  cases hbuilt : Tree.tokensOf s.built.reverse with
  | nil => simp [hpending hbuilt]
  | cons k ks => simpa [hbuilt] using hfirst

/-- Parts behind those of the run, perhaps the first of it. -/
theorem Led.concat (h : s.Led) (parts : List Tree)
    (hparts : ∀ k ∈ (Tree.tokensOf parts.reverse).head?, k.isTrivia = false)
    (hpending : Tree.tokensOf parts.reverse = [] → s'.pending = [])
    (hs : s'.built = parts ++ s.flush.built) : s'.Led := by
  have hflush := h.flush
  constructor
  · rw [hs, List.reverse_append, Tree.tokensOf_append]
    cases hbuilt : Tree.tokensOf s.flush.built.reverse with
    | nil => simpa using hparts
    | cons k ks => simpa [hbuilt] using hflush.first
  · rw [hs, List.reverse_append, Tree.tokensOf_append]
    exact fun hnil => hpending (List.append_eq_nil_iff.1 hnil).2

theorem Led.take (h : s.Led) (hs : s.Sorted) : s.take.Led := by
  cases hr : s.rest with
  | nil =>
    rw [take_of_nil hr]
    exact h.flush
  | cons l ls =>
    have hword := (hs.rest l (by simp [hr])).1
    rw [take_of_cons hr]
    exact h.concat [.leaf l.token] (by simpa using hword) (by simp) rfl

theorem Led.record (h : s.Led) (f : Fault) : (s.record f).Led := by
  unfold Progress.record
  split <;> exact ⟨h.first, h.pending⟩

/-- What is read inside a node or a run is led, and so is the run around it. -/
theorem Led.rejoin (h : s.Led) (h' : s'.Led) {parts : List Tree}
    (hparts : Tree.tokensOf parts.reverse = Tree.tokensOf s'.built.reverse) :
    (s.rejoin s' parts).Led :=
  h.concat parts (hparts ▸ h'.first) (hparts ▸ h'.pending) rfl

/-- What reading keeps: nodes do not begin with trivia, and neither does the run that is
open. -/
structure KeepsLed (s s' : Progress) : Prop where
  each : s.Each Tree.Leading → s'.Each Tree.Leading
  led : s.Led → s'.Led

theorem KeepsLed.refl (s : Progress) : KeepsLed s s := ⟨id, id⟩

theorem KeepsLed.trans {s₁ s₂ s₃ : Progress} (h : KeepsLed s₁ s₂) (h' : KeepsLed s₂ s₃) :
    KeepsLed s₁ s₃ :=
  ⟨fun he => h'.each (h.each he), fun hl => h'.led (h.led hl)⟩

theorem keepsLed_take (hs : s.Sorted) : KeepsLed s s.take := ⟨Each.take, fun h => h.take hs⟩

theorem keepsLed_record (s : Progress) (f : Fault) : KeepsLed s (s.record f) :=
  ⟨fun h => h.record f, fun h => h.record f⟩

variable {env : Surroundings}

theorem keepsLed_complain (s : Progress) (cause : Fault.Cause) :
    KeepsLed s (s.complain env cause) := by
  obtain ⟨f, hf⟩ := exists_complain_eq env cause s
  rw [hf]
  exact keepsLed_record s f

theorem keepsLed_close (hs : s.Sorted) (bracket : Kind) (opened : Nat) :
    KeepsLed s (s.close env bracket opened) := by
  by_cases hb : s.current = bracket
  · rw [close, if_pos hb]
    exact keepsLed_take hs
  · obtain ⟨f, hf⟩ := exists_close_eq env opened hb
    rw [hf]
    exact keepsLed_record s f

/-- What is read inside a node or a run comes out of it. -/
theorem KeepsLed.rejoin (h : KeepsLed s.inside s') {parts : List Tree}
    (hparts : Tree.tokensOf parts.reverse = Tree.tokensOf s'.built.reverse)
    (heach : s'.Each Tree.Leading → s'.Led → ∀ t ∈ parts, t.Each Tree.Leading) :
    KeepsLed s (s.rejoin s' parts) where
  each he := he.rejoin (heach (h.each (by simp [Progress.Each, inside])) (h.led (led_inside s)))
  led hl := hl.rejoin (h.led (led_inside s)) hparts

end Progress

open Progress

/-- A form keeps nodes and runs led, if the phrases in it do. Where parts are put into a node,
the run that they are in must be led. -/
theorem Form.Reads.keepsLed {env f b s s'} {r : Bool}
    (h : Form.Reads env (fun q s b s' => Phrase.Reads env q s b s' ∧ (s.Sorted → KeepsLed s s'))
      f s b s')
    (hf : f.wrapsInRuns r = true) (hs : s.Sorted) (hrun : r = true → s.Led) :
    KeepsLed s s' := by
  have sorted {f s b s'}
      (h : Form.Reads env (fun q s b s' => Phrase.Reads env q s b s' ∧ (s.Sorted → KeepsLed s s'))
        f s b s') (hs : s.Sorted) : s'.Sorted :=
    (h.imp fun _ _ _ _ hq => hq.1.sorted).sorted hs
  induction h generalizing r with
  | answer | next | nextTwo => exact .refl _
  | take => exact keepsLed_take hs
  | complain | complainOfToken => exact keepsLed_complain _ _
  | seq h₁ _ ih₁ ih₂ =>
    simp only [Form.wrapsInRuns, Bool.and_eq_true] at hf
    have hfirst := ih₁ hf.1 hs hrun
    exact hfirst.trans (ih₂ hf.2 (sorted h₁ hs) fun hr => hfirst.led (hrun hr))
  | condYes h₁ _ ih₁ ih₂ =>
    simp only [Form.wrapsInRuns, Bool.and_eq_true] at hf
    have htest := ih₁ hf.1.1 hs hrun
    exact htest.trans (ih₂ hf.1.2 (sorted h₁ hs) fun hr => htest.led (hrun hr))
  | condNo h₁ _ ih₁ ih₂ =>
    simp only [Form.wrapsInRuns, Bool.and_eq_true] at hf
    have htest := ih₁ hf.1.1 hs hrun
    exact htest.trans (ih₂ hf.2 (sorted h₁ hs) fun hr => htest.led (hrun hr))
  | loopEnd _ ih =>
    simp only [Form.wrapsInRuns, Bool.and_eq_true] at hf
    exact ih hf.1 hs hrun
  | loopAgain h₁ h₂ _ ih₁ ih₂ ih₃ =>
    have hloop := hf
    simp only [Form.wrapsInRuns, Bool.and_eq_true] at hf
    have htest := ih₁ hf.1 hs hrun
    have hs₁ := sorted h₁ hs
    have hstep := htest.trans (ih₂ hf.2 hs₁ fun hr => htest.led (hrun hr))
    exact hstep.trans (ih₃ hloop (sorted h₂ hs₁) fun hr => hstep.led (hrun hr))
  | call h => exact h.2 hs
  | node _ ih =>
    have hin := ih (r := true) hf hs.inside fun _ => led_inside _
    exact hin.rejoin (by simp) fun he hl => he.node hl.first
  | mark _ ih =>
    have hin := ih (r := true) hf hs.inside fun _ => led_inside _
    exact hin.rejoin rfl fun he _ => he
  | wrap _ ih =>
    simp only [Form.wrapsInRuns, Bool.and_eq_true] at hf
    have hin := ih hf.2 hs hrun
    refine ⟨fun he => (hin.each he).node (hin.led (hrun hf.1)).first, fun hl => ?_⟩
    have hl := hin.led hl
    exact ⟨by simpa using hl.first, by simpa using hl.pending⟩
  | enclosed h ih =>
    have htake := keepsLed_take hs
    have hin := ih hf hs.take fun hr => htake.led (hrun hr)
    exact (htake.trans hin).trans (keepsLed_close (sorted h hs.take) _ _)

theorem Phrase.Reads.keepsLed {env p b s s'} (h : Phrase.Reads env p s b s') (hs : s.Sorted) :
    KeepsLed s s' :=
  h.induct (fun _ s _ s' => s.Sorted → KeepsLed s s')
    (fun p _ _ _ h hs => h.keepsLed p.wrapsInRuns hs (by simp)) hs

/-- No node begins with trivia; the root may. -/
theorem leading_parse (t : Text) : Tree.EachOf Tree.Leading (parse t).tree.parts := by
  obtain ⟨b, s, hreads, -, -, htree, -⟩ := exists_reading t
  rw [htree]
  exact ((hreads.keepsLed (sorted_start ..)).each (Progress.each_start _ _)).root

/-! ## Text -/

/-- Kinds of words that may be without text: line breaks and what a layout adds. -/
def Kind.mayBeEmpty : List Kind := [.newline, .indent, .dedent]

namespace Word

variable {w : Word} {ws vs : List Word}

/-- A line break that stands before an indented block has a text. -/
def Broken (ws : List Word) : Prop :=
  ws.Pairwise fun w v => w.kind = .newline → v.kind = .indent → w.text ≠ []

theorem Broken.cons (h : Broken ws)
    (hw : w.kind = .newline → w.text ≠ [] ∨ ∀ v ∈ ws, v.kind ≠ .indent) : Broken (w :: ws) := by
  refine List.pairwise_cons.2 ⟨fun v hv hbreak hindent => ?_, h⟩
  rcases hw hbreak with hne | hnone
  · exact hne
  · exact absurd hindent (hnone v hv)

/-- Words in front that are no line breaks. -/
theorem Broken.append (h : Broken vs) (hws : ∀ w ∈ ws, w.kind ≠ .newline) : Broken (ws ++ vs) := by
  induction ws with
  | nil => exact h
  | cons w ws ih =>
    obtain ⟨hw, hws⟩ := List.forall_mem_cons.1 hws
    exact (ih hws).cons fun hbreak => absurd hbreak hw

theorem Broken.dedents (h : Broken vs) (n : Nat) : Broken (List.replicate n .dedent ++ vs) := by
  refine h.append fun w hw => ?_
  rw [List.eq_of_mem_replicate hw]
  decide

theorem Broken.onLine (h : Broken ws) (hw : w.OnLine) : Broken (w :: ws) := by
  refine h.cons fun hbreak => absurd hw.kind ?_
  simp [hbreak]

theorem Broken.behind (h : Broken vs) (hheld : ∀ w ∈ ws, w.Between) : Broken (ws ++ vs) := by
  refine h.append fun w hw hbreak => ?_
  have htrivia := (hheld w hw).trivia
  rw [hbreak] at htrivia
  cases htrivia

end Word

/-- In a layout without faults, line breaks without a text stand at the end only. -/
theorem Settled.broken {levels d fresh ws} (h : Settled levels d fresh ws) : Word.Broken ws := by
  have hnil : Word.Broken [] := .nil
  induction h with
  | @stop levels _ =>
    have hdedents : Word.Broken (List.replicate levels.length .dedent) := by
      simpa using hnil.dedents levels.length
    refine hdedents.cons fun _ => .inr fun v hv => ?_
    rw [List.eq_of_mem_replicate hv]
    decide
  | stopFresh hheld =>
    have h := (hnil.behind hheld).dedents
    rw [List.append_nil] at h
    exact h _
  | endLine _ hne _ ih => exact ih.cons fun _ => .inl hne
  | joinLines hj _ _ ih => exact ih.cons fun _ => .inl fun h => by simp [Word.joins, h] at hj
  | inLine hw _ ih => exact ih.onLine hw
  | indent hheld hw _ _ _ ih => exact ((ih.onLine hw).cons fun hn => by cases hn).behind hheld
  | begin inner _ hheld hw _ _ _ _ ih =>
    rw [List.append_assoc]
    exact ((ih.onLine hw).behind hheld).dedents _

/-- The words of a program have texts, but for words that a layout adds and for line breaks
that end the program. -/
structure Word.Spelt (ws : List Word) : Prop where
  text_ne : ∀ w ∈ ws, w.kind ∉ Kind.mayBeEmpty → w.text ≠ []
  broken : Broken ws

theorem Word.Spelt.of_sublist {ws vs : List Word} (h : Spelt vs) (hws : ws.Sublist vs) : Spelt ws :=
  ⟨fun w hw => h.text_ne w (hws.subset hw), h.broken.sublist hws⟩

/-! ### What nodes hold -/

namespace Tree

variable {ts us : List Tree} {t : Tree}

/-- Parts among which there is a node, a word that has a text, or a line break before an
indented block. -/
inductive Full (ts : List Tree) : Prop
  | node (t : Tree) : t ∈ ts → t.isNode = true → Full ts
  | word (k : Token) : .leaf k ∈ ts → k.kind ∉ Kind.mayBeEmpty → Full ts
  | lineBreak (k l : Token) : [.leaf k, .leaf l].Sublist ts → k.kind = .newline →
      l.kind = .indent → Full ts

theorem Full.mono (h : Full ts) (hts : ts.Sublist us) : Full us := by
  cases h with
  | node t ht hnode => exact .node t (hts.subset ht) hnode
  | word k hk hkind => exact .word k (hts.subset hk) hkind
  | lineBreak k l hkl hk hl => exact .lineBreak k l (hkl.trans hts) hk hl

/-- A node that has no parts but trivia, or among whose parts there is text. -/
def Filled (_ : Kind) (ts : List Tree) : Prop := solid ts = [] ∨ Full ts

/-- A node that has a token with a text. -/
def Written (_ : Kind) (ts : List Tree) : Prop := ∃ k ∈ tokensOf ts, k.text ≠ []

theorem tokensOf_sublist (h : ts.Sublist us) : (tokensOf ts).Sublist (tokensOf us) := by
  induction h with
  | slnil => simp
  | cons t _ ih => rw [tokensOf_cons]; exact ih.trans (List.sublist_append_right _ _)
  | cons_cons t _ ih => rw [tokensOf_cons, tokensOf_cons]; exact (List.Sublist.refl _).append ih

/-- The tokens of a part, among those of all parts. -/
theorem tokens_sublist (h : t ∈ ts) : t.tokens.Sublist (tokensOf ts) := by
  simpa using tokensOf_sublist (List.singleton_sublist.2 h)

theorem Trim.solid_ne (h : Trim ts) : solid ts ≠ [] := by
  obtain ⟨t, more, rfl⟩ := List.exists_cons_of_ne_nil h.ne
  simp [solid, h.first t rfl]

/-- Where nodes are trimmed and filled, they have text, if their words do. -/
theorem each_written (t : Tree) (htrim : t.Each Trimmed) (hfill : t.Each Filled)
    (hs : Word.Spelt (t.tokens.map Token.word)) : t.Each Written := by
  match t with
  | .leaf k => exact each_leaf k
  | .node kind ts =>
    obtain ⟨htrim, htrims⟩ := each_node.1 htrim
    obtain ⟨hfill, hfills⟩ := each_node.1 hfill
    rw [tokens_node] at hs
    have hparts : ∀ u ∈ ts, u.Each Written := fun u hu =>
      each_written u (htrims u hu) (hfills u hu)
        (hs.of_sublist ((tokens_sublist hu).map Token.word))
    refine each_node.2 ⟨?_, hparts⟩
    rcases hfill with hnone | hfull
    · exact absurd hnone htrim.solid_ne
    cases hfull with
    | node u hu hnode =>
      cases u with
      | leaf k => cases hnode
      | node kind us =>
        obtain ⟨k, hk, hne⟩ := (each_node.1 (hparts _ hu)).1
        exact ⟨k, (tokens_sublist hu).subset (by simpa using hk), hne⟩
    | word k hk hkind =>
      have hmem : k ∈ tokensOf ts := (tokens_sublist hk).subset (by simp)
      exact ⟨k, hmem, hs.text_ne k.word (List.mem_map_of_mem hmem) hkind⟩
    | lineBreak k l hkl hk hl =>
      have hwords : [k.word, l.word].Sublist ((tokensOf ts).map Token.word) := by
        simpa using (tokensOf_sublist hkl).map Token.word
      have hpair := hs.broken.sublist hwords
      refine ⟨k, (tokensOf_sublist hkl).subset (by simp), ?_⟩
      exact List.rel_of_pairwise_cons hpair (List.mem_singleton.2 rfl) hk hl
termination_by sizeOf t
decreasing_by
  have := List.sizeOf_lt_of_mem hu
  simp only [node.sizeOf_spec]
  omega

end Tree

/-! ### The account -/

/-- What is told of whether there is text in parts. -/
inductive Fill where
  /-- The point is never reached. -/
  | never
  /-- There are no parts but trivia. -/
  | nothing
  /-- There is text. -/
  | full
  /-- There are no parts but trivia, or there is text. -/
  | optional
  /-- There is a line break. -/
  | lineBreak
  /-- There is the beginning of an indented block. -/
  | indent
  | unknown
deriving DecidableEq, Repr

namespace Fill

open SceneGate.Tree

/-- The parts are what is told. -/
def Tells : Fill → List Tree → Prop
  | never, _ => False
  | nothing, ts => solid ts = []
  | full, ts => Full ts
  | optional, ts => solid ts = [] ∨ Full ts
  | lineBreak, ts => ∃ k, .leaf k ∈ ts ∧ k.kind = .newline
  | indent, ts => ∃ k, .leaf k ∈ ts ∧ k.kind = .indent
  | unknown, _ => True

/-- One behind the other. -/
def append : Fill → Fill → Fill
  | never, _ | _, never => never
  | nothing, b => b
  | a, nothing => a
  | full, _ | _, full => full
  | optional, optional => optional
  | lineBreak, indent => full
  | _, _ => unknown

/-- Whether the first is seen to allow no more than the second. -/
def within (a b : Fill) : Bool :=
  a == never || a == b || b == unknown || b == optional && (a == nothing || a == full)

/-- What either of the two allows. -/
def union (a b : Fill) : Fill :=
  if within a b then b else if within b a then a
  else if within a optional && within b optional then optional else unknown

/-- A word of one of the kinds. -/
def word (K : KindSet) : Fill :=
  if K.isEmpty then never
  else if K.within (.allBut Kind.mayBeEmpty) then if K.has .endOfFile then optional else full
  else if K.within (.only [.newline]) then lineBreak
  else if K.within (.only [.indent]) then indent
  else unknown

/-- The account of which nodes have text. -/
def account : Account Fill where
  empty := nothing
  nothing := never
  append := append
  union := union
  within := within
  word := word
  node _ a := if a = never then never else full
  mayBe _ a := a.within optional
  phrase
    | .program | .statement | .unexpectedIndent => unknown
    | .simpleStatements | .smallStatement | .expressionStatement | .importFrom => full
    | _ => optional

variable {a b : Fill} {ts us : List Tree}

theorem Tells.within (hab : a.within b = true) (h : a.Tells ts) : b.Tells ts := by
  simp only [Fill.within, Bool.or_eq_true, Bool.and_eq_true, beq_iff_eq] at hab
  rcases hab with ((rfl | rfl) | rfl) | ⟨rfl, rfl | rfl⟩
  · exact h.elim
  · exact h
  · trivial
  · exact .inl h
  · exact .inr h

theorem Tells.append (h : a.Tells ts) (h' : b.Tells us) : (a.append b).Tells (ts ++ us) := by
  have front : Full ts → Full (ts ++ us) := fun h => h.mono (List.sublist_append_left ..)
  have back : Full us → Full (ts ++ us) := fun h => h.mono (List.sublist_append_right ..)
  have broken : Tells lineBreak ts → Tells indent us → Full (ts ++ us) := by
    rintro ⟨k, hk, hnewline⟩ ⟨l, hl, hindent⟩
    have hsub := (List.singleton_sublist.2 hk).append (List.singleton_sublist.2 hl)
    exact .lineBreak k l hsub hnewline hindent
  have solid_append : solid (ts ++ us) = solid ts ++ solid us := Mold.solid_append ts us
  cases a <;> cases b <;>
    simp only [Fill.append, Tells, solid_append, List.append_eq_nil_iff, List.mem_append]
      at h h' broken ⊢ <;> grind

theorem Tells.left (h : a.Tells ts) : (a.union b).Tells ts := by
  unfold Fill.union
  split
  · rename_i hab
    exact h.within hab
  · split
    · exact h
    · split
      · rename_i hboth
        exact h.within (Bool.and_eq_true_iff.1 hboth).1
      · trivial

theorem Tells.right (h : b.Tells ts) : (a.union b).Tells ts := by
  unfold Fill.union
  split
  · exact h
  · split
    · rename_i hba
      exact h.within hba
    · split
      · rename_i hboth
        exact h.within (Bool.and_eq_true_iff.1 hboth).2
      · trivial

theorem Tells.trivia (h : a.Tells ts) {ks : List Token} (hks : ∀ k ∈ ks, k.isTrivia = true) :
    a.Tells (ts ++ ks.map .leaf) := by
  have hfull : Full ts → Full (ts ++ ks.map .leaf) := fun h => h.mono (List.sublist_append_left ..)
  have hsolid : solid (ts ++ ks.map .leaf) = solid ts := by
    rw [Mold.solid_append, Mold.solid_trivia hks, List.append_nil]
  cases a <;> simp only [Tells, hsolid, List.mem_append] at h ⊢ <;> grind

theorem tells_word {K : KindSet} {k : Token} (hk : K.has k.kind = true) :
    (word K).Tells [.leaf k] := by
  unfold word
  rw [KindSet.isEmpty_of_has hk]
  split
  · contradiction
  split
  · rename_i hplain
    have hkind := KindSet.has_of_within hplain hk
    have hfull : Full [.leaf k] := .word k (by simp) (by simpa using hkind)
    split
    · exact .inr hfull
    · exact hfull
  split
  · rename_i hbreak
    exact ⟨k, by simp, by simpa using KindSet.has_of_within hbreak hk⟩
  split
  · rename_i hindent
    exact ⟨k, by simp, by simpa using KindSet.has_of_within hindent hk⟩
  · trivial

theorem tells_noWord {K : KindSet} (hK : K.has .endOfFile = true) : (word K).Tells [] := by
  unfold word
  rw [KindSet.isEmpty_of_has hK, hK]
  split
  · contradiction
  split
  · exact .inl rfl
  split
  · rename_i hbreak
    exact absurd (KindSet.has_of_within hbreak hK) (by decide)
  split
  · rename_i hindent
    exact absurd (KindSet.has_of_within hindent hK) (by decide)
  · trivial

theorem sound : account.Sound Tells Filled where
  empty := rfl
  append := Tells.append
  trivia _ h hks := h.trivia hks
  left := Tells.left
  right := Tells.right
  within := Tells.within
  word hk _ := tells_word hk
  noWord := tells_noWord
  node := by
    intro kind a ts hmay h
    refine ⟨h.within hmay, ?_⟩
    have hfull : Full [.node kind ts] := .node (.node kind ts) List.mem_cons_self rfl
    simp only [account]
    split
    · rename_i hnever
      rw [hnever] at h
      exact h.elim
    · exact hfull

end Fill

theorem Phrase.fill_fits (p : Phrase) : Fill.account.fitsPhrase Watch.faultless p = true := by
  revert p
  decide +kernel

/-- In the tree of a program, every node but the root has text. -/
theorem written_parse {t : Text} (h : (parse t).ok = true) :
    Tree.EachOf Tree.Written (parse t).tree.parts := by
  obtain ⟨ts, htree, -, hfill⟩ := Fill.sound.told_of_ok Phrase.fill_fits h
  have htrim := trimmed_parse h
  have hsettled := (settled_layout (faults_layout_of_ok h)).1
  have hspelt : Word.Spelt _ := ⟨hsettled.text_ne, hsettled.broken⟩
  rw [← tokens_parse] at hspelt
  rw [htree] at htrim hspelt ⊢
  rw [Tree.tokens_node] at hspelt
  refine Tree.eachOf_iff.2 fun u hu => Tree.each_written u (htrim u hu) (hfill u hu) ?_
  exact hspelt.of_sublist ((Tree.tokens_sublist hu).map Token.word)

/-! ## Edges -/

/-- What is said of all nodes of a tree is said of all nodes of every node. -/
theorem Tree.Each.each {P : Kind → List Tree → Prop} (t : Tree) (h : t.Each P) :
    t.Each fun kind ts => (Tree.node kind ts).Each P := by
  match t with
  | .leaf k => exact each_leaf k
  | .node kind ts => exact each_node.2 ⟨h, fun u hu => ((each_node.1 h).2 u hu).each⟩
termination_by sizeOf t
decreasing_by
  have := List.sizeOf_lt_of_mem hu
  simp only [node.sizeOf_spec]
  omega

/-- A node that lies in trees of which all nodes are as `P` says. -/
theorem Tree.each_of_mem_locateAll {P : Kind → List Tree → Prop} {ts : List Tree} {o d : Nat}
    {l : Located} (h : ∀ u ∈ ts, u.Each P) (hl : l ∈ Tree.locateAll o d ts)
    (hnode : l.tree.isNode = true) : l.tree.Each P := by
  have heach := Tree.eachOf_iff.2 fun u hu => (h u hu).each
  have hat := (Tree.eachOf_iff_locate o d ts).1 heach l hl hnode
  obtain ⟨start, depth, tree⟩ := l
  cases tree with
  | leaf k => cases hnode
  | node kind us => exact hat

/-- What lies in a tree, and is not the tree, lies in its parts. -/
theorem Tree.mem_locateAll_of_depth {root : Tree} {l : Located} (hl : l ∈ root.locate 0 0)
    (hdepth : 0 < l.depth) : l ∈ Tree.locateAll 0 1 root.parts := by
  cases root with
  | leaf k =>
    simp only [Tree.locate, List.mem_singleton] at hl
    subst hl
    exact absurd hdepth (Nat.lt_irrefl 0)
  | node kind ts =>
    rw [Tree.locate] at hl
    rcases List.mem_cons.1 hl with rfl | hl
    · exact absurd hdepth (Nat.lt_irrefl 0)
    · exact hl

/-- Where the nodes below the root begin and end. In the tree of a program each of them has
text, and its first and its last token are no trivia. In the tree of any text the first token
of a node, if it has any, is no trivia. -/
theorem nodes_exclude_trivia (t : Text) :
    ((parse t).ok = true → ∀ l ∈ (parse t).tree.locate 0 0, 0 < l.depth → l.tree.isNode = true →
      l.start < l.stop ∧ (∃ k ks, l.tree.tokens = k :: ks ∧ k.isTrivia = false) ∧
        ∃ ks k, l.tree.tokens = ks ++ [k] ∧ k.isTrivia = false) ∧
    ∀ l ∈ (parse t).tree.locate 0 0, 0 < l.depth → l.tree.isNode = true →
      ∀ k ks, l.tree.tokens = k :: ks → k.isTrivia = false := by
  constructor
  · rintro h ⟨start, depth, tree⟩ hl hdepth hnode
    have hbelow := Tree.mem_locateAll_of_depth hl hdepth
    have htrimmed := Tree.each_of_mem_locateAll (trimmed_parse h) hbelow hnode
    obtain ⟨k, hk, hne⟩ := (Tree.eachOf_iff_locate 0 1 _).1 (written_parse h) _ hbelow hnode
    cases tree with
    | leaf k => cases hnode
    | node kind ts =>
      have hbytes : 0 < (Tree.node kind ts).bytes := by
        refine Text.bytes_pos fun hempty => hne ?_
        rw [Tree.text, spelling, List.flatMap_eq_nil_iff, Tree.tokens_node] at hempty
        exact hempty k hk
      exact ⟨Nat.lt_add_of_pos_right hbytes, Tree.edges_trimmed _ htrimmed rfl⟩
  · rintro ⟨start, depth, tree⟩ hl hdepth hnode k ks htokens
    have hbelow := Tree.mem_locateAll_of_depth hl hdepth
    have hlead := (Tree.eachOf_iff_locate 0 1 _).1 (leading_parse t) _ hbelow hnode
    cases tree with
    | leaf k => cases hnode
    | node kind ts =>
      have htokens : Tree.tokensOf ts = k :: ks := by simpa using htokens
      exact hlead k (by simp [htokens, Tree.parts])

/-- A program with comments and blanks between its statements and in them. -/
def commented : Text := "# a\nif x:\n # b\n y( z ) # c\n".toList

theorem nodes_exclude_trivia_commented : (parse commented).ok = true ∧
    ∀ l ∈ (parse commented).tree.locate 0 0, 0 < l.depth → l.tree.isNode = true →
      l.start < l.stop := by
  have hok : (parse commented).ok = true := by decide +kernel
  exact ⟨hok, fun l hl hdepth hnode =>
    ((nodes_exclude_trivia commented).1 hok l hl hdepth hnode).1⟩

end SceneGate
