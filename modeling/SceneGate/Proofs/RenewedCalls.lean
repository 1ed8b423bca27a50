/-
Calls of the old constructor of text, written with the new one. A call whose first argument is
given by position is renewed: the new constructor is called, and behind the first argument the
font is passed, if it is not passed yet (`renew`). Calls may lie in further arguments of others.
What is told of the words, of the text and of the outlines of renewed trees follows by one
induction on where calls are renewed (`Renewed`), and so the text of a program whose calls are
renewed is a program, and its tree is the renewed one (`parse_renewed`). Calls at given places are
renewed where each of them is fit for it (`Fit`).
-/
import SceneGate.Proofs.GroupedTokens
import SceneGate.Proofs.RegroupedTrees
import SceneGate.Proofs.RenewedWords
import SceneGate.Proofs.RuleSpans
import SceneGate.Rules.LegacyText

namespace SceneGate

/-- The arguments of a call. -/
def Call.arguments (call : Tree) : List Argument :=
  ((Call.argumentList? call).map Tree.arguments).getD []

/-- The same argument, with its tree changed. -/
def Argument.map (f : Tree → Tree) : Argument → Argument
  | .positional t => .positional (f t)
  | .keyword t => .keyword (f t)
  | .starred t => .starred (f t)
  | .doubleStarred t => .doubleStarred (f t)

/-! ## Outlines with one more argument -/

namespace Outline

variable {D : Outline Word → Outline Word → Prop} {os ps : List (Outline Word)}

/-- Where lists of arguments are exchanged, no argument gets another sort. -/
theorem forall_isOf_swap (hD : ArgumentSwaps D) (hlist : ∀ o ∈ os, isOf .argList o = false)
    (h : List.Forall₂ (Swap D) os ps) (hno : ∀ o ∈ os, isOf .arg o = false) :
    ∀ p ∈ ps, isOf .arg p = false := by
  induction h with
  | nil => simp
  | cons hp _ ih =>
    obtain ⟨ho, hno⟩ := List.forall_mem_cons.1 hno
    obtain ⟨hlist₀, hlist⟩ := List.forall_mem_cons.1 hlist
    refine List.forall_mem_cons.2 ⟨?_, ih hlist hno⟩
    cases hp with
    | word => rfl
    | node => exact ho
    | here h =>
      obtain ⟨⟨w, qs, rfl, -⟩, -⟩ := hD _ _ h
      cases hlist₀

/-- A list of arguments, and the one in which a string is passed by a name behind the first
argument. No other argument is given by position, and lists of arguments in them may be
exchanged, too. -/
def Lengthened (x : Identifier) (text : Text) (o p : Outline Word) : Prop :=
  ∃ D, ArgumentSwaps D ∧ ∃ v first os w ps, v.kind = .lParen ∧ w.kind = .rParen ∧
    RemainArguments false (first :: os) ∧ (∀ q ∈ os, isOf .arg q = false) ∧
    List.Forall₂ (Swap D) os ps ∧
    o = .node .argList (.word v :: (first :: os ++ [.word w])) ∧
    p = .node .argList (.word v ::
      (first :: .word .comma :: keywordString x ⟨.string, text⟩ :: ps ++ [.word w]))

/-- Such lists are read wherever arguments are. -/
theorem argumentSwaps_lengthened (x : Identifier) (text : Text) :
    ArgumentSwaps (Lengthened x text) := by
  rintro _ _ ⟨D, hD, v, first, os, w, ps, hv, hw, hremain, hno, hps, rfl, rfl⟩
  have hswapped : AreArguments false (first :: ps) :=
    hremain D hD _ (.cons (swap_refl first) hps)
  have hlist : ∀ o ∈ os, isOf .argList o = false := fun o ho => by
    rcases hremain.are.mem (List.mem_cons_of_mem _ ho) with ⟨w, rfl, -⟩ | ⟨kind, qs, rfl, hkind⟩
    · rfl
    · exact beq_eq_false_iff_ne.2 fun heq => absurd (heq ▸ hkind) (by decide)
  have hargs : AreArguments false (first :: .word .comma :: keywordString x ⟨.string, text⟩ :: ps) :=
    hswapped.insertKeyword (forall_isOf_swap hD hlist hps hno) rfl (standsIn_keywordString x text)
  refine ⟨⟨v, _, rfl, hv⟩, v, wordsOf (first :: .word .comma :: keywordString x ⟨.string, text⟩ :: ps) ++ [w],
    hv, fun b vs => ?_⟩
  have hread := hargs.answers (v := v) hw b vs
  rwa [List.cons_append, List.append_assoc, List.singleton_append]

end Outline

namespace LegacyText

open Tree GroupTargets

theorem text_leaf (k : Token) : (leaf k).text = k.text := by simp [text]

/-! ## Calls that are renewed -/

/-- The name that a font is passed by. -/
def fontName : Identifier := ⟨'f', "ont".toList, by decide, by decide, by decide⟩

/-- The font as an argument. -/
def fontArgument (v : Vocabulary) : Tree :=
  .node .keywordArg [.node .name [ofWord fontName.word], ofWord .equals,
    .node .stringLiteral [ofWord (.stringOf v.defaultFont)]]

/-- The font behind another argument, if it is not passed yet. -/
def fontBehind (v : Vocabulary) (passed : Bool) : List Tree :=
  if passed then [] else [ofWord .comma, ofWord .blank, fontArgument v]

/-- Whether arguments pass a font. -/
def passesFont (args : List Argument) : Bool := args.any (·.isNamed fontName.word.text)

/-- Whether a tree is a call of the old constructor by its bare name. -/
def isBareCall (v : Vocabulary) (t : Tree) : Bool :=
  t.isNode && t.kind == .callExpr && (Call.callee? t).any fun callee =>
    callee.kind == .nameRef && callee.bareText == v.legacyTextConstructor

/-- What is called instead. -/
def constructorRef (v : Vocabulary) : Tree := .node .nameRef [ofWord ⟨.ident, v.textConstructor⟩]

mutual

/-- A tree that begins at `start`, with the calls of the old constructor renewed that begin at
certain places. -/
def renew (v : Vocabulary) (places : List Nat) : (start : Nat) → Tree → Tree
  | _, .leaf k => .leaf k
  | start, .node kind ts =>
    if places.contains start && isBareCall v (.node kind ts) then
      match ts with
      | [callee, .node list (o :: first :: more)] =>
        .node kind [constructorRef v,
          .node list (o :: first :: (fontBehind v (passesFont (Call.arguments (.node kind ts))) ++
            renewAll v places (start + callee.bytes + o.bytes + first.bytes) more))]
      | _ => .node kind ts
    else .node kind (renewAll v places start ts)

/-- The same for trees that stand side by side. -/
def renewAll (v : Vocabulary) (places : List Nat) : (start : Nat) → List Tree → List Tree
  | _, [] => []
  | start, t :: ts => renew v places start t :: renewAll v places (start + t.bytes) ts

end

variable {v : Vocabulary} {places : List Nat} {start : Nat} {kind : Kind} {ts us parts : List Tree}
  {front : Text} {spans : List Span}

theorem renew_leaf (k : Token) : renew v places start (.leaf k) = .leaf k := by
  rw [renew.eq_def]

theorem renew_node (h : (places.contains start && isBareCall v (.node kind ts)) = false) :
    renew v places start (.node kind ts) = .node kind (renewAll v places start ts) := by
  rw [renew.eq_def]
  simp only [h, Bool.false_eq_true, if_false]

theorem renew_call {callee o first : Tree} {list : Kind} {more : List Tree}
    (h : (places.contains start &&
      isBareCall v (.node kind [callee, .node list (o :: first :: more)])) = true) :
    renew v places start (.node kind [callee, .node list (o :: first :: more)]) =
      .node kind [constructorRef v, .node list (o :: first ::
        (fontBehind v (passesFont (Call.arguments (.node kind [callee, .node list (o :: first :: more)]))) ++
          renewAll v places (start + callee.bytes + o.bytes + first.bytes) more))] := by
  rw [renew.eq_def]
  simp only [h, if_true]

@[simp] theorem renewAll_nil : renewAll v places start [] = [] := by
  rw [renewAll.eq_def]

theorem renewAll_cons (t : Tree) (ts : List Tree) : renewAll v places start (t :: ts) =
    renew v places start t :: renewAll v places (start + t.bytes) ts := by
  rw [renewAll.eq_def]

theorem renewAll_concat (k : Token) (ts : List Tree) :
    renewAll v places start (ts ++ [.leaf k]) = renewAll v places start ts ++ [.leaf k] := by
  induction ts generalizing start with
  | nil => rw [List.nil_append, renewAll_cons, renew_leaf, renewAll_nil, renewAll_nil, List.nil_append]
  | cons t ts ih => rw [List.cons_append, renewAll_cons, ih, renewAll_cons, List.cons_append]

@[simp] theorem kind_renew (t : Tree) : (renew v places start t).kind = t.kind := by
  rw [renew.eq_def]
  split
  · rfl
  · split
    · split <;> rfl
    · rfl

@[simp] theorem isNode_renew (t : Tree) : (renew v places start t).isNode = t.isNode := by
  rw [renew.eq_def]
  split
  · rfl
  · split
    · split <;> rfl
    · rfl

/-- Renewing calls in an argument leaves it one of the same sort. -/
theorem ofTree?_renew (t : Tree) : Argument.ofTree? (renew v places start t) =
    (Argument.ofTree? t).map (Argument.map (renew v places start)) := by
  unfold Argument.ofTree?
  rw [kind_renew]
  cases t.kind <;> rfl

theorem kind_of_isBareCall {t : Tree} (h : isBareCall v t = true) : t.kind = .callExpr := by
  simp only [isBareCall, Bool.and_eq_true, beq_iff_eq] at h
  exact h.1.2

theorem node_of_isBareCall {t : Tree} (h : isBareCall v t = true) : t = .node .callExpr t.parts := by
  cases t with
  | leaf => cases h
  | node kind ts => rw [show kind = .callExpr from kind_of_isBareCall h]; rfl

/-- The parts of a call that is renewed: it stands in a program, calls the old constructor by its
name, and the first argument stands right behind the bracket and is given by position. If no font
is passed, no further argument is given by position. -/
structure Renewable (v : Vocabulary) (ts : List Tree) (k o : Token) (first : Tree) (more : List Tree)
    (c : Token) : Prop where
  inProgram : (Tree.node .callExpr ts).InProgram
  parts : CallParts ts (.node .nameRef [.leaf k]) [] o (first :: more) c
  callee : k.word = ⟨.ident, v.legacyTextConstructor⟩
  opens : o.word = .leftParen
  isNode : first.isNode = true
  kind : first.kind = .arg
  keywords : passesFont (Call.arguments (.node .callExpr ts)) = false → argumentsOf .arg more = []

/-- What is written for the font behind another argument. -/
def fontSource (v : Vocabulary) (passed : Bool) : Text :=
  if passed then [] else ", font=\"".toList ++ v.defaultFont ++ ['"']

/-- The edit that renews a call, up to the end of its first argument. -/
def renewal (v : Vocabulary) (start : Nat) (first : Text) (passed : Bool) : Span :=
  ⟨start, (v.legacyTextConstructor ++ '(' :: first).bytes,
    v.textConstructor ++ '(' :: (first ++ fontSource v passed)⟩

/-- Trees behind `front`, the same trees with some calls renewed, and the edits for these. In front
of a name that gives way to another stands nothing that a number is written with. -/
inductive Renewed (v : Vocabulary) : (front : Text) → List Tree → List Tree → List Span → Prop
  | nil {front : Text} : Renewed v front [] [] []
  | leaf {front : Text} (k : Token) {ts us : List Tree} {spans : List Span} :
      Renewed v (front ++ k.text) ts us spans →
      Renewed v front (.leaf k :: ts) (.leaf k :: us) spans
  | node {front : Text} {kind : Kind} {parts parts' ts us : List Tree} {spans spans' : List Span} :
      Renewed v front parts parts' spans →
      Renewed v (front ++ (Tree.node kind parts).text) ts us spans' →
      Renewed v front (.node kind parts :: ts) (.node kind parts' :: us) (spans ++ spans')
  | call {front : Text} {parts more more' ts us : List Tree} {k o c : Token} {first : Tree}
      {spans spans' : List Span} : Renewable v parts k o first more c →
      (∀ p ∈ front.getLast?, NumberLiteral.mayHold p = false) →
      Renewed v (front ++ (k.text ++ o.text ++ first.text)) more more' spans →
      Renewed v (front ++ (Tree.node .callExpr parts).text) ts us spans' →
      Renewed v front (.node .callExpr parts :: ts)
        (.node .callExpr [constructorRef v, .node .argList (.leaf o :: first ::
          (fontBehind v (passesFont (Call.arguments (.node .callExpr parts))) ++
            (more' ++ [.leaf c])))] :: us)
        (renewal v front.bytes first.text (passesFont (Call.arguments (.node .callExpr parts))) ::
          (spans ++ spans'))

namespace Renewable

variable {k o c : Token} {first : Tree} {more : List Tree} (h : Renewable v ts k o first more c)

include h

theorem parts_eq : ts = [.node .nameRef [.leaf k], .node .argList (.leaf o :: first :: (more ++ [.leaf c]))] := by
  simpa using h.parts.eq

theorem text : (Tree.node .callExpr ts).text =
    k.text ++ o.text ++ first.text ++ (more.flatMap Tree.text ++ c.text) := by
  rw [h.parts_eq]
  simp [text_node, text_leaf]

theorem calleeText : k.text = v.legacyTextConstructor := congrArg Word.text h.callee

theorem opensText : o.text = ['('] := congrArg Word.text h.opens

/-- The name and the brackets are no trivia. -/
theorem isTrivia_eq_false : k.isTrivia = false ∧ o.isTrivia = false ∧ c.isTrivia = false := by
  have hk : k.kind = .ident := congrArg Word.kind h.callee
  refine ⟨?_, ?_, ?_⟩
  · rw [Token.isTrivia, hk]; rfl
  · rw [Token.isTrivia, h.parts.opens]; rfl
  · rw [Token.isTrivia, h.parts.closes]; rfl

/-- The list of arguments is exchanged for one with the font in it, or what lies in it is. -/
theorem swap_list {p : Outline Word} {more' : List Tree} (hp : first.outline Token.word = [p])
    (hmore : List.Forall₂ (Outline.Swap (Outline.Lengthened fontName (Word.stringOf v.defaultFont).text))
      (outlines Token.word more) (outlines Token.word more')) :
    Outline.Swap (Outline.Lengthened fontName (Word.stringOf v.defaultFont).text)
      (.node .argList (.word o.word :: (p :: outlines Token.word more ++ [.word c.word])))
      (.node .argList (.word o.word :: (p :: (outlines Token.word
        (fontBehind v (passesFont (Call.arguments (.node .callExpr ts)))) ++
          outlines Token.word more') ++ [.word c.word]))) := by
  cases hpassed : passesFont (Call.arguments (.node .callExpr ts)) with
  | true =>
    exact .node (.cons (Outline.swap_refl _) (.cons (Outline.swap_refl _)
      (List.rel_append hmore (Outline.forall₂_swap_refl _))))
  | false =>
    have hremain := h.parts.remains
    rw [outlines_cons, hp, List.singleton_append] at hremain
    have hno : ∀ q ∈ outlines Token.word more, Outline.isOf .arg q = false := by
      have hfilter := outlines_argumentsOf .arg more
      rw [h.keywords hpassed, outlines_nil] at hfilter
      simpa using List.filter_eq_nil_iff.1 hfilter.symm
    have hfont : outlines Token.word (fontBehind v false) =
        [.word .comma, Outline.keywordString fontName (.stringOf v.defaultFont)] := rfl
    rw [hfont]
    exact .here ⟨_, Outline.argumentSwaps_lengthened _ _, o.word, p, _, c.word, _,
      h.parts.opens, h.parts.closes, hremain, hno, hmore, rfl, rfl⟩

end Renewable

/-- The font as an argument has no trivia at the edges of nodes. -/
theorem each_fontBehind (v : Vocabulary) (passed : Bool) : ∀ u ∈ fontBehind v passed, u.Each Trimmed := by
  cases passed with
  | true => simp [fontBehind]
  | false =>
    have hliteral : (Tree.node .stringLiteral [ofWord (.stringOf v.defaultFont)]).Each Trimmed :=
      each_node.2 ⟨trim_singleton rfl, List.forall_mem_singleton.2 (each_leaf _)⟩
    have hkeyword : (Tree.node .name [ofWord fontName.word]).Each Trimmed :=
      each_node.2 ⟨trim_singleton rfl, List.forall_mem_singleton.2 (each_leaf _)⟩
    have hfont : (fontArgument v).Each Trimmed :=
      each_node.2 ⟨(trim_singleton rfl).append [_] (trim_singleton rfl), by
        simpa [ofWord] using And.intro hkeyword hliteral⟩
    simpa [fontBehind, ofWord] using hfont

namespace Renewed

/-- The edits make the text of the renewed trees of that of the trees. -/
theorem substituted (h : Renewed v front ts us spans) :
    Substituted front.bytes spans (ts.flatMap text) (us.flatMap text) := by
  induction h with
  | nil => exact .keep _ _
  | leaf k _ ih =>
    rw [Text.bytes_append] at ih
    simpa [text_leaf] using ih.behind k.text
  | @node front kind parts parts' ts us spans spans' _ _ ihparts ih =>
    rw [List.flatMap_cons, List.flatMap_cons, text_node, text_node]
    rw [Text.bytes_append, text_node] at ih
    exact ihparts.append ih
  | @call front parts more more' ts us k o c first spans spans' hcall _ _ _ ihmore ih =>
    generalize passesFont (Call.arguments (.node .callExpr parts)) = passed
    have hfont : (fontBehind v passed).flatMap Tree.text = fontSource v passed := by
      cases passed with
      | true => rfl
      | false => simp [fontBehind, fontSource, fontArgument, text_node, text_ofWord, Word.comma,
          Word.blank, Word.equals, Word.stringOf, fontName, Identifier.word]
    have hopening : v.legacyTextConstructor ++ '(' :: first.text = k.text ++ o.text ++ first.text := by
      simp [hcall.calleeText, hcall.opensText]
    have hstop : (renewal v front.bytes first.text passed).stop =
        (front ++ (k.text ++ o.text ++ first.text)).bytes := by
      rw [Text.bytes_append, ← hopening]
      rfl
    have hrest : Substituted (renewal v front.bytes first.text passed).stop (spans ++ spans')
        (more.flatMap Tree.text ++ (c.text ++ ts.flatMap Tree.text))
        (more'.flatMap Tree.text ++ (c.text ++ us.flatMap Tree.text)) := by
      rw [hstop]
      refine ihmore.append (.behind c.text ?_)
      have hbytes : (front ++ (Tree.node .callExpr parts).text).bytes =
          (front ++ (k.text ++ o.text ++ first.text)).bytes + Text.bytes (more.flatMap Tree.text) +
            Text.bytes c.text := by
        rw [hcall.text]
        simp only [Text.bytes_append, Nat.add_assoc]
      rwa [← hbytes]
    have hreplace := Substituted.replace (s := renewal v front.bytes first.text passed) []
      (k.text ++ o.text ++ first.text) rfl (by rw [renewal, hopening]) hrest
    have hout : Tree.text (.node .callExpr [constructorRef v, .node .argList (.leaf o :: first ::
        (fontBehind v passed ++ (more' ++ [.leaf c])))]) =
          (renewal v front.bytes first.text passed).replacement ++ (more'.flatMap Tree.text ++ c.text) := by
      simp [text_node, text_leaf, constructorRef, text_ofWord, renewal, hfont, hcall.opensText]
    rw [List.flatMap_cons, List.flatMap_cons, hcall.text, hout]
    simpa using hreplace

/-- Where the trees begin with a leaf, so do the renewed ones. -/
theorem of_leaf {k : Token} (h : Renewed v front (.leaf k :: ts) us spans) :
    ∃ us', us = .leaf k :: us' := by
  cases h with
  | leaf => exact ⟨_, rfl⟩

/-- The words of the renewed trees are the words with some names and fonts renewed. -/
theorem words {M N : Identifier} (hM : v.legacyTextConstructor = M.word.text)
    (hN : v.textConstructor = N.word.text) (h : Renewed v front ts us spans) :
    Word.Renewed M N (Word.stringBehind fontName v.defaultFont) front (wordsOf ts) (wordsOf us) := by
  induction h with
  | nil => exact .nil
  | leaf k _ ih => simpa using Word.Renewed.keep k.word ih
  | @node front kind parts parts' ts us spans spans' _ _ ihparts ih =>
    rw [← spell_written, written_node] at ih
    have hboth := ihparts.append ih
    simpa [wordsOf] using hboth
  | @call front parts more more' ts us k o c first spans spans' hcall hfront hmore _ ihmore ih =>
    generalize passesFont (Call.arguments (.node .callExpr parts)) = passed
    have hfirst : first ∈ first :: more := by simp
    obtain ⟨hpiece, -⟩ := hcall.parts.piece hcall.inProgram hfirst hcall.isNode
    have hinside : ∀ w ∈ first.written, w.Inside := fun w hw =>
      hcall.parts.inside w (by simpa [written] using Or.inl hw)
    have hclose : Word.Renewed M N (Word.stringBehind fontName v.defaultFont)
        (front ++ M.word.text ++ Word.leftParen.text ++ Word.spell first.written)
        (wordsOf more ++ c.word :: wordsOf ts) (wordsOf more' ++ c.word :: wordsOf us) := by
      rw [spell_written, ← hM, ← hcall.calleeText, ← hcall.opens, List.append_assoc, List.append_assoc]
      rw [hcall.text] at ih
      have hspelt : Word.spell (wordsOf more) = more.flatMap Tree.text := by
        rw [← written_node .argList, spell_written, text_node]
      simp only [List.append_assoc] at ihmore ih ⊢
      refine ihmore.append (.keep c.word ?_)
      simpa [hspelt, show c.word.text = c.text from rfl] using ih
    -- behind the first argument stands something that ends words
    have hbetween : Word.Renewed M N (Word.stringBehind fontName v.defaultFont)
        (front ++ M.word.text ++ Word.leftParen.text) (first.written ++ (wordsOf more ++ c.word :: wordsOf ts))
        (first.written ++ (wordsOf (fontBehind v passed) ++ (wordsOf more' ++ c.word :: wordsOf us))) := by
      cases passed with
      | true => exact (Word.Renewed.refl ..).append hclose
      | false =>
        have hfont : wordsOf (fontBehind v false) = Word.stringBehind fontName v.defaultFont := rfl
        rw [hfont]
        cases more with
        | nil =>
          cases hmore
          have hmem : c.word ∈ (Tree.node .callExpr parts).written := by
            rw [hcall.parts.written_eq]
            simp
          have hkind : c.word.kind = .rParen := hcall.parts.closes
          have htext := hcall.inProgram.placed.text_ne hmem (by rw [hkind]; decide)
          exact .behind_piece hpiece hinside htext (by rw [hkind]; rfl) hclose
        | cons u more =>
          obtain ⟨j, rfl, hj⟩ := behind_of_areArguments hcall.parts.holds
            (show first :: u :: more = [] ++ first :: (u :: more) from rfl) hcall.isNode u rfl
          obtain ⟨more', rfl⟩ := hmore.of_leaf
          rw [wordsOf_cons, wordsOf_cons] at hclose ⊢
          exact .behind_piece hpiece hinside (hcall.parts.inside j.word (by simp [wordsOf])).text_ne hj hclose
    have hcalled := Word.Renewed.name (M := M) (N := N) hfront (.keep Word.leftParen hbetween)
    have hold : k.word = M.word := by rw [hcall.callee, hM]; rfl
    have hnew : (ofWord ⟨.ident, N.word.text⟩).tokens.map Token.word = [N.word] := rfl
    rw [wordsOf_cons, hcall.parts_eq]
    simpa [hold, hcall.opens, constructorRef, hN, hnew, wordsOf, written] using hcalled

/-- Trivia stays where it is. -/
theorem isTrivia_eq (h : Renewed v front ts us spans) : us.map isTrivia = ts.map isTrivia := by
  induction h with
  | nil => rfl
  | leaf k _ ih => exact congrArg (k.isTrivia :: ·) ih
  | node _ _ _ ih | call _ _ _ _ _ ih => exact congrArg (false :: ·) ih

/-- In renewed trees lists of arguments are exchanged for longer ones. -/
theorem swap (h : Renewed v front ts us spans) :
    List.Forall₂ (Outline.Swap (Outline.Lengthened fontName (Word.stringOf v.defaultFont).text))
      (outlines Token.word ts) (outlines Token.word us) := by
  induction h with
  | nil => exact .nil
  | leaf k _ ih =>
    rw [outlines_cons, outlines_cons]
    exact List.rel_append (Outline.forall₂_swap_refl _) ih
  | node _ _ ihparts ih =>
    rw [outlines_cons, outlines_cons, outline_node, outline_node]
    exact List.rel_append (.cons (.node ihparts) .nil) ih
  | @call front parts more more' ts us k o c first spans spans' hcall _ _ _ ihmore ih =>
    obtain ⟨hk, ho, hc⟩ := hcall.isTrivia_eq_false
    obtain ⟨p, hp⟩ := outline_of_isNode hcall.isNode
    have hlist := hcall.swap_list hp ihmore
    have hkind : k.word.kind = .ident := congrArg Word.kind hcall.callee
    have hname : Outline.Swap (Outline.Lengthened fontName (Word.stringOf v.defaultFont).text)
        (.node .nameRef [.word k.word]) (.node .nameRef [.word ⟨.ident, v.textConstructor⟩]) :=
      .node (.cons (.word hkind) .nil)
    generalize passesFont (Call.arguments (.node .callExpr parts)) = passed at hlist ⊢
    have hcalls : Outline.Swap (Outline.Lengthened fontName (Word.stringOf v.defaultFont).text)
        (.node .callExpr _) (.node .callExpr _) := .node (.cons hname (.cons hlist .nil))
    have hnew : (ofWord ⟨.ident, v.textConstructor⟩).outline Token.word =
        [.word ⟨.ident, v.textConstructor⟩] := outline_ofWord rfl
    rw [outlines_cons, outlines_cons, hcall.parts_eq]
    refine List.rel_append ?_ ih
    simpa [outline_leaf _ hk, outline_leaf _ ho, outline_leaf _ hc, hp, hnew, constructorRef]
      using hcalls

/-- Renewing calls leaves no trivia at the edges of nodes. -/
theorem trimmed (h : Renewed v front ts us spans) (hts : ∀ t ∈ ts, t.Each Trimmed) :
    ∀ u ∈ us, u.Each Trimmed := by
  induction h with
  | nil => simp
  | leaf k _ ih =>
    obtain ⟨-, hts⟩ := List.forall_mem_cons.1 hts
    exact List.forall_mem_cons.2 ⟨each_leaf k, ih hts⟩
  | node hparts _ ihparts ih =>
    obtain ⟨ht, hts⟩ := List.forall_mem_cons.1 hts
    obtain ⟨htrim, hin⟩ := each_node.1 ht
    exact List.forall_mem_cons.2
      ⟨each_node.2 ⟨Trim.of_map_eq htrim hparts.isTrivia_eq, ihparts hin⟩, ih hts⟩
  | @call front parts more more' ts us k o c first spans spans' hcall _ _ _ ihmore ih =>
    obtain ⟨ht, hts⟩ := List.forall_mem_cons.1 hts
    refine List.forall_mem_cons.2 ⟨?_, ih hts⟩
    generalize passesFont (Call.arguments (.node .callExpr parts)) = passed
    rw [hcall.parts_eq] at ht
    obtain ⟨-, hin⟩ := each_node.1 ht
    obtain ⟨-, hin⟩ := each_node.1 (hin _ (List.mem_cons_of_mem _ (List.mem_singleton.2 rfl)))
    have hmore' : ∀ u ∈ more', u.Each Trimmed := ihmore fun t ht => hin t (by simp [ht])
    have hfirst : first.Each Trimmed := hin first (by simp)
    obtain ⟨-, ho, hc⟩ := hcall.isTrivia_eq_false
    have hname : (constructorRef v).Each Trimmed :=
      each_node.2 ⟨trim_singleton rfl, List.forall_mem_singleton.2 (each_leaf _)⟩
    have hbrackets : Trim (.leaf o :: first :: (fontBehind v passed ++ (more' ++ [.leaf c]))) := by
      simpa using (trim_singleton (t := .leaf o) ho).append (first :: (fontBehind v passed ++ more'))
        (trim_singleton (t := .leaf c) hc)
    have hlist : (Tree.node .argList (.leaf o :: first ::
        (fontBehind v passed ++ (more' ++ [.leaf c])))).Each Trimmed := by
      refine each_node.2 ⟨hbrackets, ?_⟩
      simp only [List.forall_mem_cons, List.forall_mem_append]
      exact ⟨each_leaf o, hfirst, each_fontBehind v passed, hmore', each_leaf c, by simp⟩
    exact each_node.2 ⟨(trim_singleton rfl).append [] (trim_singleton rfl),
      List.forall_mem_cons.2 ⟨hname, List.forall_mem_singleton.2 hlist⟩⟩

end Renewed

/-! ## Where calls are renewed -/

/-- What a call that is renewed becomes. -/
theorem Renewable.renew_eq {k o c : Token} {first : Tree} {more : List Tree}
    (h : Renewable v parts k o first more c)
    (hcall : (places.contains start && isBareCall v (.node .callExpr parts)) = true) :
    renew v places start (.node .callExpr parts) =
      .node .callExpr [constructorRef v, .node .argList (.leaf o :: first ::
        (fontBehind v (passesFont (Call.arguments (.node .callExpr parts))) ++
          (renewAll v places (start + (k.text ++ o.text ++ first.text).bytes) more ++ [.leaf c])))] := by
  have hbytes : start + (Tree.node .nameRef [.leaf k]).bytes + (Tree.leaf o).bytes + first.bytes =
      start + (k.text ++ o.text ++ first.text).bytes := by
    simp only [bytes, text_node, text_leaf, List.flatMap_singleton, Text.bytes_append]
    omega
  rw [h.parts_eq] at hcall ⊢
  rw [renew_call hcall, hbytes, renewAll_concat]

/-- The edit for a call that is renewed. -/
def edit? (v : Vocabulary) (places : List Nat) (l : Located) : Option Span :=
  if places.contains l.start && isBareCall v l.tree then
    match Call.arguments l.tree with
    | .positional first :: _ =>
      some (renewal v l.start first.text (passesFont (Call.arguments l.tree)))
    | _ => none
  else none

theorem edit?_of_kind {l : Located} (h : l.tree.kind ≠ .callExpr) : edit? v places l = none := by
  refine if_neg fun hcall => h ?_
  rw [Bool.and_eq_true] at hcall
  exact kind_of_isBareCall hcall.2

/-- The arguments of a call are those between its brackets. -/
theorem arguments_eq {callee : Tree} {gap : List Token} {o c : Token} {mid : List Tree}
    (hp : CallShape ts callee gap o mid c) : Call.arguments (.node .callExpr ts) =
      (mid.filter Tree.isNode).filterMap Argument.ofTree? := by
  rw [Call.arguments, hp.argumentList?, Option.map_some, Option.getD_some, Tree.arguments,
    Tree.children, Tree.parts, List.filter_append, List.filter_cons_of_neg (by simp [Tree.isNode]),
    List.filter_cons_of_neg (by simp [Tree.isNode]), List.filter_nil, List.append_nil]

theorem Renewable.arguments {k o c : Token} {first : Tree} {more : List Tree}
    (h : Renewable v ts k o first more c) : Call.arguments (.node .callExpr ts) =
      .positional first :: (more.filter Tree.isNode).filterMap Argument.ofTree? := by
  have hfirst : Argument.ofTree? first = some (.positional first) := by
    rw [Argument.ofTree?, h.kind]
  rw [arguments_eq h.parts.toCallShape, List.filter_cons_of_pos h.isNode,
    List.filterMap_cons_some hfirst]

/-- The arguments among trees, with calls in them renewed. -/
theorem forall₂_arguments_renewAll (start : Nat) (ts : List Tree) :
    List.Forall₂ (fun a b => ∃ n, b = a.map (renew v places n))
      ((ts.filter Tree.isNode).filterMap Argument.ofTree?)
      (((renewAll v places start ts).filter Tree.isNode).filterMap Argument.ofTree?) := by
  induction ts generalizing start with
  | nil =>
    rw [renewAll_nil]
    exact .nil
  | cons t ts ih =>
    rw [renewAll_cons, List.filter_cons, List.filter_cons, isNode_renew]
    split
    · rw [List.filterMap_cons, List.filterMap_cons, ofTree?_renew]
      cases Argument.ofTree? t with
      | none => exact ih _
      | some a => exact .cons ⟨start, rfl⟩ (ih _)
    · exact ih _

/-- The font among arguments, if it is not passed yet. -/
def fontPassed (v : Vocabulary) (passed : Bool) : List Argument :=
  if passed then [] else [.keyword (fontArgument v)]

/-- Whether a call of the new constructor keeps the arguments of one of the old: the first argument
is the same, then comes the font if none was passed, and the other arguments are the same but for
the calls in them that are renewed. -/
structure KeepsArguments (v : Vocabulary) (places : List Nat) (call new : Tree) : Prop where
  name : Call.calleeName? new = some v.textConstructor
  arguments : ∃ first others others', Call.arguments call = .positional first :: others ∧
    Call.arguments new =
      .positional first :: (fontPassed v (passesFont (Call.arguments call)) ++ others') ∧
    List.Forall₂ (fun a b => ∃ n, b = a.map (renew v places n)) others others'

theorem Renewable.keepsArguments {k o c : Token} {first : Tree} {more : List Tree}
    (h : Renewable v ts k o first more c)
    (hcall : (places.contains start && isBareCall v (.node .callExpr ts)) = true) :
    KeepsArguments v places (.node .callExpr ts) (renew v places start (.node .callExpr ts)) := by
  have hfirst : Argument.ofTree? first = some (.positional first) := by
    rw [Argument.ofTree?, h.kind]
  refine ⟨?_, first, _, _, h.arguments, ?_,
    forall₂_arguments_renewAll (start + (k.text ++ o.text ++ first.text).bytes) more⟩
  · rw [h.renew_eq hcall]
    have hname : (constructorRef v).tailName? = some v.textConstructor := by
      simp [Tree.tailName?, constructorRef, Tree.kind, bareText, ofWord, Word.token, Token.isTrivia,
        Kind.isTrivia, spelling]
    exact hname
  · rw [h.renew_eq hcall]
    generalize passesFont (Call.arguments (.node .callExpr ts)) = passed
    generalize renewAll v places (start + (k.text ++ o.text ++ first.text).bytes) more = more'
    have hshape : CallShape [constructorRef v, .node .argList (.leaf o :: first ::
        (fontBehind v passed ++ (more' ++ [.leaf c])))] (constructorRef v) [] o
          (first :: (fontBehind v passed ++ more')) c := ⟨by simp, rfl, fun heq => by cases heq⟩
    have hfont : ((fontBehind v passed).filter Tree.isNode).filterMap Argument.ofTree? =
        fontPassed v passed := by
      cases passed <;> rfl
    rw [arguments_eq hshape, List.filter_cons_of_pos h.isNode, List.filterMap_cons_some hfirst,
      List.filter_append, List.filterMap_append, hfont]

theorem Renewable.edit? {k o c : Token} {first : Tree} {more : List Tree} {l : Located}
    (h : Renewable v ts k o first more c) (hl : l.tree = .node .callExpr ts)
    (hcall : (places.contains l.start && isBareCall v l.tree) = true) :
    edit? v places l =
      some (renewal v l.start first.text (passesFont (Call.arguments (.node .callExpr ts)))) := by
  rw [LegacyText.edit?, if_pos hcall, hl]
  simp only [h.arguments]

theorem locateAll_append (ts us : List Tree) (o d : Nat) : locateAll o d (ts ++ us) =
    locateAll o d ts ++ locateAll (o + Text.bytes (ts.flatMap text)) d us := by
  induction ts generalizing o with
  | nil => simp [locateAll]
  | cons t ts ih =>
    rw [List.cons_append, locateAll, locateAll, ih, List.append_assoc, List.flatMap_cons,
      Text.bytes_append, bytes, Nat.add_assoc]

/-- The trees in a call that is renewed: its name, and between brackets the arguments. -/
theorem Renewable.locateAll_eq {k o c : Token} {first : Tree} {more : List Tree}
    (h : Renewable v ts k o first more c) (n d : Nat) : locateAll n (d + 1) ts =
      [⟨n, d + 1, .node .nameRef [.leaf k]⟩, ⟨n, d + 2, .leaf k⟩,
        ⟨n + k.text.bytes, d + 1, .node .argList (.leaf o :: first :: (more ++ [.leaf c]))⟩,
        ⟨n + k.text.bytes, d + 2, .leaf o⟩] ++
      (first.locate (n + (k.text ++ o.text).bytes) (d + 2) ++
        (locateAll (n + (k.text ++ o.text ++ first.text).bytes) (d + 2) more ++
          [⟨n + (k.text ++ o.text ++ first.text).bytes + Text.bytes (more.flatMap Tree.text), d + 2,
            .leaf c⟩])) := by
  have hname : (Tree.node .nameRef [.leaf k]).bytes = k.text.bytes := by
    simp [bytes, text_node, text_leaf]
  have hparen : (Tree.leaf o).bytes = o.text.bytes := by rw [bytes, text_leaf]
  have hfirst : first.bytes = first.text.bytes := rfl
  rw [h.parts_eq]
  simp only [locateAll, locate, hname, hparen, hfirst, locateAll_append, List.append_nil,
    List.cons_append, List.nil_append, Text.bytes_append, Nat.add_assoc]

/-- The edits for a call that is renewed are those for its arguments: its name is no call. -/
theorem Renewable.edits_eq {k o c : Token} {first : Tree} {more : List Tree}
    (h : Renewable v ts k o first more c) (n d : Nat) :
    (locateAll n (d + 1) ts).filterMap (LegacyText.edit? v places) =
      (first.locate (n + (k.text ++ o.text).bytes) (d + 2)).filterMap (LegacyText.edit? v places) ++
        (locateAll (n + (k.text ++ o.text ++ first.text).bytes) (d + 2) more).filterMap
          (LegacyText.edit? v places) := by
  have hleaf (n d : Nat) (k : Token) : LegacyText.edit? v places ⟨n, d, .leaf k⟩ = none :=
    if_neg (by simp [isBareCall, Tree.isNode])
  have hnode {n d : Nat} {kind : Kind} {us : List Tree} (hkind : kind ≠ .callExpr) :
      LegacyText.edit? v places ⟨n, d, .node kind us⟩ = none := edit?_of_kind hkind
  rw [h.locateAll_eq]
  simp [List.filterMap_append, hleaf, hnode]

/-- A call is not empty. -/
theorem bytes_pos_of_isBareCall {t : Tree} (h : t.InProgram) (hcall : isBareCall v t = true) :
    0 < t.bytes := by
  cases t with
  | leaf k => cases hcall
  | node kind ts =>
    obtain rfl : kind = .callExpr := kind_of_isBareCall hcall
    obtain ⟨callee, gap, o, mid, c, hp⟩ := exists_callParts h
    have hmem : o.word ∈ (Tree.node .callExpr ts).written := by rw [hp.written_eq]; simp
    have hkind : o.word.kind = .lParen := hp.opens
    have htext : o.word.text ≠ [] := h.placed.text_ne hmem (by rw [hkind]; decide)
    rw [bytes, ← spell_written]
    exact Text.bytes_pos fun hnil => htext (List.flatMap_eq_nil_iff.1 hnil _ hmem)

/-- What makes a call that begins at `start` fit to be renewed: it has the parts, in front of it
stands nothing that a number is written with, and no call that begins in its name or in its first
argument is renewed. -/
structure Ready (v : Vocabulary) (places : List Nat) (full : Text) (start : Nat) (parts : List Tree)
    (k o : Token) (first : Tree) (more : List Tree) (c : Token) : Prop where
  renewable : Renewable v parts k o first more c
  front : ∀ front back : Text, full = front ++ (Tree.node .callExpr parts).text ++ back →
    front.bytes = start → ∀ p ∈ front.getLast?, NumberLiteral.mayHold p = false
  apart : ∀ n ∈ places, n ≤ start ∨ start + (k.text ++ o.text ++ first.text).bytes ≤ n

/-- No call in the first argument is renewed. -/
theorem Ready.forall_first {full : Text} {k o c : Token} {first : Tree} {more : List Tree}
    (h : Ready v places full start parts k o first more c) {d : Nat} :
    ∀ l ∈ first.locate (start + (k.text ++ o.text).bytes) d,
      ¬ (places.contains l.start && isBareCall v l.tree) = true := by
  intro l hl hcall
  rw [Bool.and_eq_true] at hcall
  have hfirst := h.renewable.parts.inProgram h.renewable.inProgram (t := first) (by simp)
  obtain ⟨hin, hstart, hstop⟩ := inProgram_of_mem_locate hfirst hl
  have hpos := bytes_pos_of_isBareCall hin hcall.2
  have hopen : 0 < (k.text ++ o.text).bytes := by
    rw [h.renewable.opensText]
    exact Text.bytes_pos (by simp)
  have hplace := h.apart l.start (List.contains_iff_mem.1 hcall.1)
  rw [Text.bytes_append _ first.text] at hplace
  rw [Located.stop, bytes] at hstop
  rw [bytes] at hpos
  rw [bytes] at hstop
  omega

/-- No leaf is renewed. -/
theorem ne_leaf {l : Located} (hcall : (places.contains l.start && isBareCall v l.tree) = true)
    (n d : Nat) (k : Token) : l ≠ ⟨n, d, .leaf k⟩ := by
  rintro rfl
  simp [isBareCall, Tree.isNode] at hcall

/-- A call that is renewed inside another lies in a further argument of it. -/
theorem Ready.mem_more {full : Text} {k o c : Token} {first : Tree} {more : List Tree}
    (h : Ready v places full start parts k o first more c) {l : Located} {d : Nat}
    (hl : l ∈ locateAll start (d + 1) parts)
    (hcall : (places.contains l.start && isBareCall v l.tree) = true) :
    l ∈ locateAll (start + (k.text ++ o.text ++ first.text).bytes) (d + 2) more := by
  have hkind : l.tree.kind = .callExpr := kind_of_isBareCall (Bool.and_eq_true_iff.1 hcall).2
  rw [h.renewable.locateAll_eq] at hl
  simp only [List.mem_append, List.mem_cons, List.not_mem_nil, or_false] at hl
  rcases hl with (rfl | hl | rfl | hl) | hl | hl | hl
  · cases hkind
  · exact (ne_leaf hcall _ _ _ hl).elim
  · cases hkind
  · exact (ne_leaf hcall _ _ _ hl).elim
  · exact absurd hcall (h.forall_first l hl)
  · exact hl
  · exact (ne_leaf hcall _ _ _ hl).elim

/-- Trees behind `front`, where each call at one of the places is fit to be renewed. -/
inductive Fit (v : Vocabulary) (places : List Nat) (full : Text) : (front : Text) → List Tree → Prop
  | nil {front : Text} : Fit v places full front []
  | leaf {front : Text} (k : Token) {ts : List Tree} :
      Fit v places full (front ++ k.text) ts → Fit v places full front (.leaf k :: ts)
  | node {front : Text} {kind : Kind} {parts ts : List Tree} :
      (places.contains front.bytes && isBareCall v (.node kind parts)) = false →
      Fit v places full front parts → Fit v places full (front ++ (Tree.node kind parts).text) ts →
      Fit v places full front (.node kind parts :: ts)
  | call {front back : Text} {parts more ts : List Tree} {k o c : Token} {first : Tree} :
      (places.contains front.bytes && isBareCall v (.node .callExpr parts)) = true →
      full = front ++ (Tree.node .callExpr parts).text ++ back →
      Ready v places full front.bytes parts k o first more c →
      Fit v places full (front ++ (k.text ++ o.text ++ first.text)) more →
      Fit v places full (front ++ (Tree.node .callExpr parts).text) ts →
      Fit v places full front (.node .callExpr parts :: ts)

namespace Fit

variable {full : Text} (h : Fit v places full front ts)

include h

/-- The calls are renewed. -/
theorem renewed (d : Nat) : Renewed v front ts (renewAll v places front.bytes ts)
    ((locateAll front.bytes d ts).filterMap (edit? v places)) := by
  induction h generalizing d with
  | nil => exact .nil
  | leaf k _ ih =>
    have hnone (n : Nat) : edit? v places ⟨n, d, .leaf k⟩ = none :=
      if_neg fun hcall => by simp [isBareCall, Tree.isNode] at hcall
    rw [locateAll, locate, List.singleton_append, renewAll_cons, renew_leaf,
      List.filterMap_cons_none (hnone _), bytes, text_leaf, ← Text.bytes_append]
    exact .leaf k (ih d)
  | @node front kind parts ts hcall _ _ ihparts ih =>
    have hnone : edit? v places ⟨front.bytes, d, .node kind parts⟩ = none :=
      if_neg (by simpa using hcall)
    rw [locateAll, locate, List.filterMap_append, List.filterMap_cons_none hnone, renewAll_cons,
      renew_node hcall, bytes, ← Text.bytes_append]
    exact .node (ihparts (d + 1)) (ih d)
  | @call front back parts more ts k o c first hcall hfull h _ _ ihmore ih =>
    have hsome := h.renewable.edit? (l := ⟨front.bytes, d, .node .callExpr parts⟩) rfl hcall
    have hfirst : (first.locate (front.bytes + (k.text ++ o.text).bytes) (d + 2)).filterMap
        (edit? v places) = [] :=
      List.filterMap_eq_nil_iff.2 fun l hl => if_neg (h.forall_first l hl)
    rw [locateAll, locate, List.filterMap_append, List.filterMap_cons_some hsome, h.renewable.edits_eq,
      hfirst, List.nil_append, List.cons_append, renewAll_cons, h.renewable.renew_eq hcall, bytes,
      ← Text.bytes_append, ← Text.bytes_append]
    exact .call h.renewable (h.front front back hfull rfl) (ihmore (d + 2)) (ih d)

/-- What a call becomes that is renewed stands in the renewed trees. -/
theorem exists_mem {d : Nat} {l : Located} (hl : l ∈ locateAll front.bytes d ts)
    (hcall : (places.contains l.start && isBareCall v l.tree) = true) (n : Nat) :
    ∃ l' ∈ locateAll n d (renewAll v places front.bytes ts), l'.tree = renew v places l.start l.tree := by
  induction h generalizing n d with
  | nil => simp [locateAll] at hl
  | leaf k _ ih =>
    rw [locateAll, locate, List.singleton_append, bytes, text_leaf, ← Text.bytes_append] at hl
    have hrest := (List.mem_cons.1 hl).resolve_left fun heq => ne_leaf hcall _ _ _ heq
    obtain ⟨l', hl', htree⟩ := ih hrest (n + k.text.bytes)
    rw [renewAll_cons, renew_leaf, locateAll, bytes, text_leaf, ← Text.bytes_append]
    exact ⟨l', List.mem_append_right _ hl', htree⟩
  | @node front kind parts ts hno _ _ ihparts ih =>
    have hbytes : front.bytes + (Tree.node kind parts).bytes = (front ++ (Tree.node kind parts).text).bytes :=
      (Text.bytes_append ..).symm
    rw [locateAll, locate, hbytes, List.cons_append, List.mem_cons, List.mem_append] at hl
    rw [renewAll_cons, renew_node hno, hbytes, locateAll, locate]
    rcases hl with rfl | hl | hl
    · rw [hcall] at hno
      cases hno
    · obtain ⟨l', hl', htree⟩ := ihparts hl n
      exact ⟨l', List.mem_append_left _ (List.mem_cons_of_mem _ hl'), htree⟩
    · obtain ⟨l', hl', htree⟩ := ih hl _
      exact ⟨l', List.mem_append_right _ hl', htree⟩
  | @call front back parts more ts k o c first hhere _ hready _ _ ihmore ih =>
    have hbytes : front.bytes + (Tree.node .callExpr parts).bytes =
        (front ++ (Tree.node .callExpr parts).text).bytes := (Text.bytes_append ..).symm
    rw [locateAll, locate, hbytes, List.cons_append, List.mem_cons, List.mem_append] at hl
    rw [renewAll_cons, hbytes, locateAll]
    rcases hl with rfl | hl | hl
    · exact ⟨_, List.mem_append_left _ (self_mem_locate _ n d), rfl⟩
    · have hmore := hready.mem_more hl hcall
      rw [← Text.bytes_append] at hmore
      obtain ⟨l', hl', htree⟩ := ihmore hmore (n + (constructorRef v).bytes + o.text.bytes + first.bytes +
        Text.bytes ((fontBehind v (passesFont (Call.arguments (.node .callExpr parts)))).flatMap text))
      refine ⟨l', List.mem_append_left _ ?_, htree⟩
      rw [hready.renewable.renew_eq hhere, ← Text.bytes_append]
      generalize renewAll v places (front ++ (k.text ++ o.text ++ first.text)).bytes more = more' at hl' ⊢
      simp only [locate, locateAll, locateAll_append, List.mem_append, List.mem_cons, bytes, text_leaf] at hl' ⊢
      exact .inr (.inr (.inl (.inr (.inr (.inr (.inr (.inl hl')))))))
    · obtain ⟨l', hl', htree⟩ := ih hl _
      exact ⟨l', List.mem_append_right _ hl', htree⟩

end Fit

theorem sizeOf_lt_concat (ts : List Tree) (t : Tree) : sizeOf ts < sizeOf (ts ++ [t]) := by
  induction ts with
  | nil =>
    simp only [List.nil_append, List.cons.sizeOf_spec, List.nil.sizeOf_spec]
    omega
  | cons u ts ih =>
    simp only [List.cons_append, List.cons.sizeOf_spec]
    omega

/-- Where all calls at the places are fit for it, the trees are. -/
theorem fit_of_ready {full : Text} (ts : List Tree) (front back : Text) (d : Nat)
    (hfull : full = front ++ ts.flatMap text ++ back) (hts : ∀ t ∈ ts, t.InProgram)
    (hready : ∀ l ∈ locateAll front.bytes d ts,
      (places.contains l.start && isBareCall v l.tree) = true →
        ∃ k o first more c, Ready v places full l.start l.tree.parts k o first more c) :
    Fit v places full front ts := by
  match ts with
  | [] => exact .nil
  | .leaf k :: ts =>
    obtain ⟨-, hts⟩ := List.forall_mem_cons.1 hts
    rw [locateAll, locate, List.singleton_append, bytes, text_leaf, ← Text.bytes_append] at hready
    exact .leaf k (fit_of_ready ts (front ++ k.text) back d (by simp [hfull, text_leaf]) hts
      (List.forall_mem_cons.1 hready).2)
  | .node kind parts :: ts =>
    obtain ⟨ht, hts⟩ := List.forall_mem_cons.1 hts
    rw [locateAll, bytes, ← Text.bytes_append] at hready
    obtain ⟨hready, hbehind⟩ := List.forall_mem_append.1 hready
    rw [locate] at hready
    obtain ⟨hhere, hin⟩ := List.forall_mem_cons.1 hready
    have hrest := fit_of_ready ts (front ++ (node kind parts).text) back d (by simp [hfull]) hts hbehind
    have hfull' : full = front ++ (node kind parts).text ++ (ts.flatMap text ++ back) := by simp [hfull]
    cases hcall : places.contains front.bytes && isBareCall v (.node kind parts) with
    | false =>
      exact .node hcall (fit_of_ready parts front (ts.flatMap text ++ back) (d + 1)
        (by rw [← text_node kind]; exact hfull') (fun t ht' => ht.part ht') hin) hrest
    | true =>
      obtain rfl : kind = .callExpr := by
        rw [Bool.and_eq_true] at hcall
        exact kind_of_isBareCall hcall.2
      obtain ⟨k, o, first, more, c, h⟩ :
          ∃ k o first more c, Ready v places full front.bytes parts k o first more c := hhere hcall
      rw [h.renewable.locateAll_eq, ← Text.bytes_append front (k.text ++ o.text ++ first.text)] at hin
      exact .call hcall hfull' h
        (fit_of_ready more (front ++ (k.text ++ o.text ++ first.text))
          (c.text ++ (ts.flatMap text ++ back)) (d + 2)
          (by rw [hfull', h.renewable.text]; simp only [List.append_assoc])
          (fun t ht' => h.renewable.parts.inProgram ht (by simp [ht'])) fun l hl =>
            hin l (List.mem_append_right _ (List.mem_append_right _ (List.mem_append_left _ hl))))
        hrest
termination_by sizeOf ts
decreasing_by
  · simp only [List.cons.sizeOf_spec]
    omega
  · simp only [List.cons.sizeOf_spec]
    omega
  · simp only [List.cons.sizeOf_spec, Tree.node.sizeOf_spec]
    omega
  · have hsize := congrArg sizeOf h.renewable.parts_eq
    have hlast := sizeOf_lt_concat more (.leaf c)
    simp only [List.cons.sizeOf_spec, Tree.node.sizeOf_spec] at hsize ⊢
    omega

/-- The text of a program whose calls are renewed is a program, and its tree is the one in which
they are renewed. -/
theorem parse_renewed {M N : Identifier} (hM : v.legacyTextConstructor = M.word.text)
    (hN : v.textConstructor = N.word.text) (hM' : M.first ≠ '_') (hN' : N.first ≠ '_')
    (hfont : StringArgument.IsContent '"' v.defaultFont) {t : Text} (h : (parse t).ok = true)
    (hroot : (parse t).tree = .node .sourceFile ts) (hrenewed : Renewed v [] ts us spans) :
    (parse (Tree.node .sourceFile us).text).ok = true ∧
      (parse (Tree.node .sourceFile us).text).tree.unplaced = (Tree.node .sourceFile us).unplaced := by
  have hprogram := inProgram_parse h
  rw [hroot, Tree.parts] at hprogram
  have hwords := hrenewed.words hM hN
  have hextra := Word.insertion_stringBehind fontName hfont
  exact parse_rewritten (Outline.argumentSwaps_lengthened _ _) h hroot hrenewed.swap
    (hwords.recast hextra) (hwords.allCut hM' hN' hextra (sound_words hprogram))
    (hrenewed.trimmed fun t ht => (hprogram t ht).each.imp fun _ _ => ProgramNode.trim)

end LegacyText

end SceneGate
