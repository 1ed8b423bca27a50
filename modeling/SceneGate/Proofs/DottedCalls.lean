/-
Calls of dotted names. Where names with dots between them stand in front of a bracket with a
keyword argument in it, and no dot stands in front of them, they are what is called, as a
whole: the tree has a call of exactly these words there (`exists_dotted_call`).
-/
import SceneGate.Proofs.NodeParts
import SceneGate.Proofs.PartTraits
import SceneGate.Proofs.Sites
import SceneGate.Proofs.Successors

namespace SceneGate

/-- Names with dots between them. -/
inductive Dotted : List Token → Prop
  | one {k : Token} : k.kind = .ident → Dotted [k]
  | more {ks : List Token} {d k : Token} : Dotted ks → d.kind = .dot → k.kind = .ident →
      Dotted (ks ++ [d, k])

/-! ## Words in front -/

section Words

variable {o : Nat} {k : Token} {ts before before' after after' xs ys gap : List Token}

/-- A token that has characters stands in one place. -/
theorem Chained.before_unique (h : Chained o ts) (hk : k.text ≠ []) (hts : ts = before ++ k :: after)
    (hts' : ts = before' ++ k :: after') : before = before' := by
  have hpos : k.text.bytes ≠ 0 := by
    obtain ⟨c, cs, htext⟩ := List.exists_cons_of_ne_nil hk
    have := c.utf8Size_pos
    rw [htext, Text.bytes_cons]
    omega
  have hoffset := offset_eq (hts ▸ h)
  have hoffset' := offset_eq (hts' ▸ h)
  have shorter {before before' mid : List Token} {after after' : List Token}
      (hbefore : before' = before ++ mid) (hmid : k :: after = mid ++ k :: after')
      (hbytes : (spelling before).bytes = (spelling before').bytes) : before = before' := by
    cases mid with
    | nil => simp [hbefore]
    | cons j mid =>
      obtain ⟨rfl, -⟩ := List.cons.inj hmid
      simp [hbefore] at hbytes
      omega
  rcases List.append_eq_append_iff.1 (hts.symm.trans hts') with
    ⟨mid, hbefore, hmid⟩ | ⟨mid, hbefore, hmid⟩
  · exact shorter hbefore hmid (by omega)
  · exact (shorter hbefore hmid (by omega)).symm

/-- No trivia stands behind what ends in a word. -/
theorem eq_nil_of_trivia (hgap : ∀ j ∈ gap, j.isTrivia = true) (hk : k.isTrivia = false)
    (h : xs ++ gap = ys ++ [k]) : gap = [] := by
  rcases List.eq_nil_or_concat' gap with rfl | ⟨front, last, rfl⟩
  · rfl
  · rw [← List.append_assoc] at h
    obtain ⟨-, hlast⟩ := List.append_inj' h rfl
    obtain rfl : last = k := by simpa using hlast
    rw [hgap last (by simp)] at hk
    cases hk

/-- Trivia behind words is told by where they end. -/
theorem eq_of_trivia {gap' : List Token} {j : Token} (hgap : ∀ i ∈ gap, i.isTrivia = true)
    (hgap' : ∀ i ∈ gap', i.isTrivia = true) (hj : j.isTrivia = false) (hk : k.isTrivia = false)
    (h : xs ++ [j] ++ gap = ys ++ [k] ++ gap') : xs ++ [j] = ys ++ [k] ∧ gap = gap' := by
  rcases List.append_eq_append_iff.1 h with ⟨mid, hys, rfl⟩ | ⟨mid, hxs, rfl⟩
  · have hmid := eq_nil_of_trivia (fun i hi => hgap i (List.mem_append_left _ hi)) hk hys.symm
    subst hmid
    exact ⟨by simpa using hys.symm, rfl⟩
  · have hmid := eq_nil_of_trivia (fun i hi => hgap' i (List.mem_append_left _ hi)) hj hxs.symm
    subst hmid
    exact ⟨by simpa using hxs, rfl⟩

theorem endsIn_concat (hk : k.isTrivia = false) :
    endsIn k.kind (significant (xs ++ [k])) = true := by
  simp [endsIn, significant, hk]

end Words

open SceneGate.Tree

variable {t : Text} {A B before after ks gap mid : List Token} {ts front back : List Tree} {u : Tree}
  {o c d k : Token} {kind : Kind}

/-- A name that is a value stands behind no dot. -/
theorem endsIn_of_nameRef (h : (parse t).ok = true)
    (hsits : Sits (parse t).tree before (.node .nameRef [.leaf k]) after) (hkind : k.kind = .ident) :
    endsIn .dot (significant before) = false := by
  have htokens : (layout t).tokens = before ++ k :: after := by
    rw [← tokens_parse, hsits.tokens]
    simp
  have hk : k.isTrivia = false := by simp [Token.isTrivia, hkind, Kind.isTrivia]
  have hprogram : (Tree.node .nameRef [.leaf k]).InProgram := by
    refine (hsits.inProgram h).resolve_left fun heq => ?_
    obtain ⟨parts, hroot⟩ := parse_root t
    rw [hroot] at heq
    cases heq
  have htext : k.text ≠ [] :=
    hprogram.placed.text_ne (w := k.word) (by simp) (by simp [Token.word, hkind])
  refine Bool.eq_false_iff.2 fun hend => ?_
  have hD : StandBehind .dot (· = k) (significant (layout t).tokens) := by
    intro front j back hwords hj
    subst hj
    obtain ⟨F, K, hFK, rfl, hK⟩ := List.filter_eq_append_iff.1 hwords
    obtain ⟨pre, post, rfl, hpre, -, -⟩ := List.filter_eq_cons_iff.1 hK
    have hpretrivia : ∀ i ∈ pre, i.isTrivia = true := by simpa using hpre
    have hbefore : before = F ++ pre :=
      (chained_layout t).before_unique htext htokens (by simpa using hFK)
    rw [hbefore, significant_append, significant_of_trivia hpretrivia, List.append_nil] at hend
    exact hend
  have heach := values_stand_apart h (by decide) hD
  exact (each_node.1 (hsits.each heach)).1 rfl k (by simp) rfl

/-! ## Parts of nodes -/

/-- An attribute: what it is taken of, a dot and a name, and trivia between them. -/
theorem Tree.InProgram.attribute (h : (Tree.node .attributeExpr ts).InProgram) :
    ∃ (receiver : Tree) (gap : List Token) (d : Token) (gap' : List Token) (k : Token),
      ts = receiver :: gap.map .leaf ++ .leaf d :: gap'.map .leaf ++ [.node .name [.leaf k]] ∧
        (∀ j ∈ gap ++ gap', j.isTrivia = true) ∧ d.kind = .dot ∧ k.kind = .ident ∧
        receiver.isNode = true := by
  obtain ⟨receiver, _, hreceiver, hmore, hts⟩ :=
    List.forall₂_cons_left_iff.1 (Mold.tells_exactly h.node.mold)
  obtain ⟨dot, _, hdot, hlast, rfl⟩ := List.forall₂_cons_left_iff.1 hmore
  obtain ⟨name, _, hname, hnone, rfl⟩ := List.forall₂_cons_left_iff.1 hlast
  obtain rfl := List.forall₂_nil_left_iff.1 hnone
  rw [Part.fits_node] at hreceiver hname
  obtain ⟨d, rfl, hd⟩ := Part.fits_word.1 hdot
  obtain ⟨inner, rfl, hinner⟩ := h.node.trim.eq_append
    (show solid ts = receiver :: [.leaf d] ++ [name] from hts)
  obtain ⟨gap, gap', rfl, hgap, hgap', hdk⟩ : ∃ gap gap' : List Token,
      inner = gap.map .leaf ++ .leaf d :: gap'.map .leaf ∧ (∀ j ∈ gap, j.isTrivia = true) ∧
        (∀ j ∈ gap', j.isTrivia = true) ∧ d.isTrivia = false := by
    obtain ⟨pre, post, rfl, hpre, hdk, hpost⟩ := List.filter_eq_cons_iff.1 hinner
    obtain ⟨gap, rfl, hgap⟩ := solid_eq_nil (List.filter_eq_nil_iff.2 hpre)
    obtain ⟨gap', rfl, hgap'⟩ := solid_eq_nil hpost
    exact ⟨gap, gap', rfl, hgap, hgap', by simpa [isTrivia] using hdk⟩
  cases name with
  | leaf => cases hname.1
  | node kind us =>
    obtain rfl : kind = .name := by simpa [Tree.kind] using hname.2
    have hname : (Tree.node .name us).InProgram := h.part (by simp)
    obtain ⟨k, rfl, hk⟩ := hname.node.name (.inl rfl)
    exact ⟨receiver, gap, d, gap', k, by simp, List.forall_mem_append.2 ⟨hgap, hgap'⟩,
      by simpa using hd, hk, hreceiver.1⟩

/-- What arguments or a dot stand behind, and ends with a name, is the name or an attribute. -/
theorem operand_cases {xs : List Token} (h : u.InProgram) (hnode : u.isNode = true)
    (hoperand : u.IsOperand) (hk : k.kind = .ident) (htokens : before ++ u.tokens = xs ++ [k]) :
    (u = .node .nameRef [.leaf k] ∧ before = xs) ∨
      ∃ (receiver : Tree) (gap : List Token) (d : Token) (gap' : List Token),
        u = .node .attributeExpr
          (receiver :: gap.map .leaf ++ .leaf d :: gap'.map .leaf ++ [.node .name [.leaf k]]) ∧
        (∀ j ∈ gap ++ gap', j.isTrivia = true) ∧ d.kind = .dot ∧ receiver.isNode = true ∧
        xs = before ++ receiver.tokens ++ gap ++ d :: gap' := by
  cases u with
  | leaf => cases hnode
  | node kind ts =>
    rcases hoperand with hkind | hkind | hcloses
    · obtain rfl : kind = .nameRef := hkind
      obtain ⟨j, rfl, -⟩ := h.node.name (.inr rfl)
      obtain ⟨hbefore, rfl⟩ : before = xs ∧ j = k := by simpa using htokens
      exact .inl ⟨rfl, hbefore⟩
    · obtain rfl : kind = .attributeExpr := hkind
      obtain ⟨receiver, gap, d, gap', j, rfl, hgap, hd, -, hreceiver⟩ := h.attribute
      have hall : before ++ receiver.tokens ++ gap ++ d :: gap' ++ [j] = xs ++ [k] := by
        simpa using htokens
      obtain ⟨hxs, hj⟩ := List.append_inj' hall rfl
      obtain rfl : j = k := by simpa using hj
      exact .inr ⟨receiver, gap, d, gap', rfl, hgap, hd, hreceiver, hxs.symm⟩
    · obtain ⟨-, us, j, hlast, hj⟩ := h.edges rfl
      rw [hlast, ← List.append_assoc] at htokens
      obtain ⟨-, hjk⟩ := List.append_inj' htokens rfl
      obtain rfl : j = k := by simpa using hjk
      have := hcloses j.kind (by simp [wordKinds, hlast, significant, hj])
      rw [hk] at this
      exact absurd this (by decide)

/-- What an attribute is taken of, or what is called. -/
theorem Tree.Sits.operand {rest : List Tree} (hok : (parse t).ok = true)
    (hu : Sits (parse t).tree before (.node kind (u :: rest)) after)
    (hkind : kind ∈ [Kind.callExpr, .attributeExpr])
    (hprogram : (Tree.node kind (u :: rest)).InProgram) (hnode : u.isNode = true) :
    ∃ after, Sits (parse t).tree before u after ∧ u.InProgram ∧ u.IsOperand := by
  have huntraited := (each_node.1 (hu.each (traits_parse hok))).1
  have hfirst : (solid (u :: rest)).head? = some u := by
    rw [solid_cons (by cases u <;> first | rfl | cases hnode)]
    rfl
  have hsits := Sits.part [] rest hu
  rw [tokensOf_nil, List.append_nil] at hsits
  refine ⟨_, hsits, hprogram.part (by simp), ?_⟩
  by_contra hnot
  exact huntraited .looseFirst (by simp [Trait.barred, hkind]) ⟨u, hfirst, hnot⟩

/-- Behind a word and a dot, a name ends an attribute. -/
theorem attribute_of_dot {xs : List Token} {j : Token} (hok : (parse t).ok = true)
    (hu : Sits (parse t).tree before u after) (h : u.InProgram) (hnode : u.isNode = true)
    (hoperand : u.IsOperand) (hj : j.isTrivia = false) (hd : d.kind = .dot) (hk : k.kind = .ident)
    (htokens : before ++ u.tokens = xs ++ [j] ++ [d, k]) :
    ∃ receiver after, u = .node .attributeExpr [receiver, .leaf d, .node .name [.leaf k]] ∧
      Sits (parse t).tree before receiver after ∧ receiver.InProgram ∧ receiver.isNode = true ∧
        receiver.IsOperand ∧ before ++ receiver.tokens = xs ++ [j] := by
  have hdot : d.isTrivia = false := by simp [Token.isTrivia, hd, Kind.isTrivia]
  have hsplit : before ++ u.tokens = (xs ++ [j] ++ [d]) ++ [k] := by simpa using htokens
  rcases operand_cases h hnode hoperand hk hsplit with ⟨rfl, hbefore⟩ |
    ⟨receiver, gap, e, gap', rfl, hgap, -, hreceiver, hxs⟩
  · have hend := endsIn_of_nameRef hok hu hk
    rw [hbefore, ← hd, endsIn_concat hdot] at hend
    cases hend
  · obtain ⟨hfront, hback⟩ := List.forall_mem_append.1 hgap
    have hcut : before ++ receiver.tokens ++ gap ++ [e] ++ gap' = xs ++ [j] ++ [d] := by simp [hxs]
    obtain rfl : gap' = [] := eq_nil_of_trivia hback hdot hcut
    obtain ⟨hreceiverEnd, hde⟩ := List.append_inj' hxs rfl
    obtain rfl : d = e := by simpa using hde
    obtain rfl : gap = [] := eq_nil_of_trivia hfront hj hreceiverEnd.symm
    obtain ⟨after', hsits, hprogram, hoperand⟩ := hu.operand hok (by decide) h hreceiver
    exact ⟨receiver, after', rfl, hsits, hprogram, hreceiver, hoperand,
      by simpa using hreceiverEnd.symm⟩

theorem Dotted.exists_concat (h : Dotted ks) : ∃ front k, ks = front ++ [k] ∧ k.kind = .ident := by
  cases h with
  | @one k hk => exact ⟨[], k, rfl, hk⟩
  | @more ks d k _ _ hk => exact ⟨ks ++ [d], k, by simp, hk⟩

/-- What arguments or a dot stand behind are all of the dotted names that it ends with, if
no dot stands in front of them. -/
theorem Dotted.operand (h : Dotted ks) (hok : (parse t).ok = true)
    (hu : Sits (parse t).tree before u after) (hprogram : u.InProgram) (hnode : u.isNode = true)
    (hoperand : u.IsOperand) (htokens : before ++ u.tokens = A ++ ks)
    (hA : endsIn .dot (significant A) = false) : before = A := by
  induction h generalizing u after with
  | one hk =>
    rcases operand_cases hprogram hnode hoperand hk htokens with ⟨-, hbefore⟩ |
      ⟨receiver, gap, d, gap', rfl, hgap, hd, -, hxs⟩
    · exact hbefore
    · obtain ⟨hgap, hgap'⟩ := List.forall_mem_append.1 hgap
      have hdot : d.isTrivia = false := by simp [Token.isTrivia, hd, Kind.isTrivia]
      have hcut : A = (before ++ receiver.tokens ++ gap ++ [d]) ++ gap' := by simp [hxs]
      rw [hcut, significant_append, significant_of_trivia hgap', List.append_nil, ← hd,
        endsIn_concat hdot] at hA
      cases hA
  | @more ks d k hks hd hk ih =>
    obtain ⟨front, j, rfl, hj⟩ := hks.exists_concat
    have hword : j.isTrivia = false := by simp [Token.isTrivia, hj, Kind.isTrivia]
    have hsplit : before ++ u.tokens = A ++ front ++ [j] ++ [d, k] := by simpa using htokens
    obtain ⟨receiver, after', -, hsits, hreceiver, hreceiverNode, hreceiverOperand, hfront⟩ :=
      attribute_of_dot hok hu hprogram hnode hoperand hword hd hk hsplit
    exact ih hsits hreceiver hreceiverNode hreceiverOperand (by simpa using hfront)

/-! ## Brackets -/

/-- Behind a bracket among parts that pair off stands the one that closes it. -/
theorem Tree.Paired.exists_closing (h : Paired (front ++ .leaf o :: back)) (ho : o.kind = .lParen) :
    ∃ (inner : List Tree) (c : Token) (rest : List Tree),
      back = inner ++ .leaf c :: rest ∧ c.kind = .rParen := by
  have closing {p c : Token} (hp : p.Closes c) : c.kind ≠ .lParen := by
    intro hc
    rw [Token.Closes, hc] at hp
    cases hk : p.kind <;> simp [Kind.closer?, hk] at hp
  generalize hall : front ++ .leaf o :: back = all at h
  induction h generalizing front back with
  | nil => simp at hall
  | @other t ts ht _ ih =>
    cases front with
    | nil =>
      obtain ⟨rfl, -⟩ := List.cons.inj hall
      simp [isBracket, ho, Kind.isBracket] at ht
    | cons u front => exact ih (List.cons.inj hall).2
  | @pair p c inner after hclose _ _ ihinner ihafter =>
    cases front with
    | nil =>
      obtain ⟨hop, rfl⟩ := List.cons.inj hall
      cases hop
      exact ⟨inner, c, after, rfl, by simpa [Token.Closes, ho, Kind.closer?] using hclose.symm⟩
    | cons u front =>
      have hrest : front ++ .leaf o :: back = inner ++ .leaf c :: after := (List.cons.inj hall).2
      rcases List.append_eq_append_iff.1 hrest with ⟨mid, hinner, hmid⟩ | ⟨mid, hfront, hmid⟩
      · cases mid with
        | nil =>
          cases (List.cons.inj hmid).1
          exact absurd ho (closing hclose)
        | cons v mid =>
          obtain ⟨rfl, rfl⟩ := List.cons.inj hmid
          obtain ⟨inside, e, rest, rfl, he⟩ := ihinner hinner.symm
          exact ⟨inside, e, rest ++ .leaf c :: after, by simp, he⟩
      · cases mid with
        | nil =>
          cases (List.cons.inj hmid).1
          exact absurd ho (closing hclose)
        | cons v mid => exact ihafter (List.cons.inj hmid).2.symm

/-- Where brackets nest, the first of them opens. -/
theorem Word.Even.first_opens {ws vs : List Word} {w : Word} (h : Even (ws ++ w :: vs))
    (hws : ∀ v ∈ ws, v.kind.isBracket = false) : w.kind ≠ .rParen := by
  generalize hall : ws ++ w :: vs = all at h
  induction h generalizing ws with
  | nil => simp at hall
  | @other v all hv _ ih =>
    cases ws with
    | nil =>
      obtain ⟨rfl, -⟩ := List.cons.inj hall
      rintro hk
      simp [hk, Kind.isBracket] at hv
    | cons x ws => exact ih (List.forall_mem_cons.1 hws).2 (List.cons.inj hall).2
  | @pair p c inner after hc _ _ _ _ =>
    cases ws with
    | nil =>
      obtain ⟨rfl, -⟩ := List.cons.inj hall
      rintro hk
      simp [hk, Kind.closer?] at hc
    | cons x ws =>
      obtain ⟨rfl, -⟩ := List.cons.inj hall
      have := hws x List.mem_cons_self
      rw [(Kind.isBracket_of_closer? hc).1] at this
      cases this

/-! ## Rows -/

/-- A part has a role in the row that the parts of its node stand in. -/
theorem InRow.exists_role (h : InRow kind (front ++ u :: back)) (hrows : Role.rows kind ≠ [])
    (hnode : u.isNode = true) (hkind : u.kind ≠ .decorator) :
    ∃ rs r rs' lines row, rs ++ r :: rs' ∈ Role.rows kind ∧ solid front = lines ++ row ∧
      List.Forall₂ Role.Fits rs row ∧ r.Fits u := by
  obtain ⟨all, hall, lines, row, hsolid, hlines, -, hfits⟩ := h hrows
  have hline : u ∉ lines := by
    intro hmem
    rcases hlines u hmem with hdecorator | ⟨k, rfl, -⟩
    · exact hkind hdecorator
    · cases hnode
  rw [Mold.solid_append, solid_cons (by cases u <;> first | rfl | cases hnode)] at hsolid
  obtain ⟨mid, hfront, rfl⟩ := exists_append_of_notMem hline hsolid.symm
  obtain ⟨rs, more, rfl, hmid, hmore⟩ := forall₂_append hfits.flip
  obtain ⟨r, rs', hr, -, rfl⟩ := List.forall₂_cons_left_iff.1 hmore
  exact ⟨rs, r, rs', lines, mid, hall, hfront, hmid.flip, hr⟩

/-- A node in a place of its own has the role of its kind. -/
theorem Role.Fits.kind?_eq {r : Role} (h : r.Fits u) (hnode : u.isNode = true)
    (hplace : u.kind ∈ Role.places) : r.kind? = some u.kind := by
  cases r with
  | value => exact absurd hplace h.2
  | name | arguments | parameters | block => rw [h.2]; rfl
  | word | sign | operator =>
    obtain ⟨k, rfl, -⟩ := h
    cases hnode

/-- The arguments or parameters that a definition has of its own stand behind the word that
it begins with and its name. -/
theorem Role.before_list {kw place : Kind} (hplace : (kind, kw, place) ∈
      [(Kind.classDef, Kind.classKw, Kind.argList), (.functionDef, .defKw, .paramList)])
    {rs rs' : List Role} {r : Role} (hrow : rs ++ r :: rs' ∈ rows kind)
    (hr : r.kind? = some place) : ∃ front, rs = front ++ [word kw, name] := by
  have hall : ∀ entry ∈
      [(Kind.classDef, Kind.classKw, Kind.argList), (.functionDef, .defKw, .paramList)],
      ∀ row ∈ rows entry.1, ∀ n < row.length, row[n]?.bind kind? = some entry.2.2 →
        [word entry.2.1, name] <:+ row.take n := by decide
  have := hall _ hplace _ hrow rs.length (by simp) (by simpa using hr)
  rw [List.take_left] at this
  obtain ⟨front, hfront⟩ := this
  exact ⟨front, hfront.symm⟩

/-! ## Lists -/

theorem Tree.Sits.inProgram_of_ne (hok : (parse t).ok = true) (hu : Sits (parse t).tree before u after)
    (hkind : u.kind ≠ .sourceFile) : u ≠ (parse t).tree ∧ u.InProgram := by
  have hne : u ≠ (parse t).tree := by
    obtain ⟨parts, hroot⟩ := parse_root t
    rintro rfl
    rw [hroot] at hkind
    exact hkind rfl
  exact ⟨hne, (hu.inProgram hok).resolve_left hne⟩

/-- A bracket with a word and `=` in it is a part of a list of arguments or of parameters. -/
theorem exists_list {more : List Kind} (hok : (parse t).ok = true)
    (hsits : Sits (parse t).tree before (.leaf o) (mid ++ c :: B)) (ho : o.kind = .lParen)
    (hmid : ∀ k ∈ mid, k.kind.isBracket = false)
    (hwords : (significant mid).map Token.kind = .ident :: .eq :: more) :
    ∃ kind front back before' after, kind ∈ [Kind.argList, .paramList] ∧
      Sits (parse t).tree before' (.node kind (front ++ .leaf o :: back)) after ∧
        before = before' ++ tokensOf front ∧ mid ++ c :: B = tokensOf back ++ after := by
  generalize hbehind : mid ++ c :: B = behind at hsits
  cases hsits with
  | @part before' after kind _ front back h =>
    refine ⟨kind, front, back, before', after, ?_, h, rfl, rfl⟩
    obtain ⟨inner, e, rest, rfl, he⟩ :=
      (each_node.1 (h.each (fine_parse hok))).1.1.exists_closing ho
    -- what stands in the brackets goes on behind the words that are told
    obtain ⟨tail, htail⟩ : ∃ tail, tokensOf (inner ++ .leaf e :: rest) = mid ++ tail := by
      rw [tokensOf_append, tokensOf_cons, tokens_leaf, List.append_assoc] at hbehind
      rcases List.append_eq_append_iff.1 hbehind with ⟨tail, hinner, -⟩ | ⟨tail, hmidEq, htail⟩
      · exact ⟨tail ++ e :: tokensOf rest, by simp [hinner]⟩
      · cases tail with
        | nil => exact ⟨e :: tokensOf rest, by simp [hmidEq]⟩
        | cons x tail =>
          obtain ⟨rfl, -⟩ := List.cons.inj htail
          have := hmid e (by simp [hmidEq])
          simp [he, Kind.isBracket] at this
    have hopened : (Trait.opened .thenEq).Holds (front ++ .leaf o :: (inner ++ .leaf e :: rest)) := by
      refine ⟨front, o, _, rfl, ho, ?_⟩
      simp [wordKinds, htail, hwords, Front.Holds]
    by_contra hkind
    have huntraited := (each_node.1 (h.each (traits_parse hok))).1
    exact huntraited _ (by simp [Trait.barred, hkind]) hopened

/-- A list of arguments begins with its bracket and ends with the next one, if none stands
in it. -/
theorem Tree.InProgram.list_tokens (h : (Tree.node .argList (front ++ .leaf o :: back)).InProgram)
    (ho : o.kind = .lParen) (hc : c.kind = .rParen) (hmid : ∀ k ∈ mid, k.kind.isBracket = false)
    (hbehind : mid ++ c :: B = tokensOf back ++ after) :
    front = [] ∧ tokensOf back = mid ++ [c] ∧ after = B := by
  obtain ⟨p, inner, e, hparts, hp, he, hinner, heven, -⟩ := h.argumentList
  obtain ⟨rfl, hback⟩ : front = [] ∧ back = inner ++ [.leaf e] := by
    cases front with
    | nil => exact ⟨rfl, (List.cons.inj hparts).2⟩
    | cons u front =>
      have hrest : front ++ .leaf o :: back = inner ++ [.leaf e] := (List.cons.inj hparts).2
      have hmem : .leaf o ∈ inner ++ [.leaf e] := by simp [← hrest]
      rcases List.mem_append.1 hmem with hmem | hmem
      · rcases leaf_of_areArguments hinner.are hmem with hk | hk
        · simp [Token.isTrivia, ho, Kind.isTrivia] at hk
        · rw [ho] at hk
          cases hk
      · cases List.mem_singleton.1 hmem
        rw [ho] at he
        cases he
  subst hback
  rw [tokensOf_append, tokensOf_cons, tokens_leaf, tokensOf_nil, List.append_nil, List.append_assoc,
    List.singleton_append] at hbehind
  rcases List.append_eq_append_iff.1 hbehind with ⟨tail, hinnerEq, htail⟩ | ⟨tail, hmidEq, htail⟩
  · cases tail with
    | nil =>
      obtain ⟨rfl, rfl⟩ := List.cons.inj htail
      exact ⟨rfl, by simp [hinnerEq], rfl⟩
    | cons x tail =>
      obtain ⟨rfl, -⟩ := List.cons.inj htail
      rw [wordsOf, hinnerEq, List.map_append, List.map_cons] at heven
      refine absurd hc (heven.first_opens fun v hv => ?_)
      obtain ⟨k, hk, rfl⟩ := List.mem_map.1 hv
      exact hmid k hk
  · cases tail with
    | nil =>
      obtain ⟨rfl, rfl⟩ := List.cons.inj htail
      exact ⟨rfl, by simp [hmidEq], rfl⟩
    | cons x tail =>
      obtain ⟨rfl, -⟩ := List.cons.inj htail
      have := hmid e (by simp [hmidEq])
      simp [he, Kind.isBracket] at this

theorem Tree.wordKinds_solid (ts : List Tree) : wordKinds (solid ts) = wordKinds ts := by
  induction ts with
  | nil => rfl
  | cons u ts ih =>
    rw [← List.singleton_append, Mold.solid_append, wordKinds_append, wordKinds_append, ih]
    congr 1
    cases hu : u.isTrivia with
    | false => simp [solid, hu]
    | true =>
      cases u with
      | node => cases hu
      | leaf k =>
        have hk : k.isTrivia = true := hu
        simp [solid, hu, wordKinds, significant, hk]

/-- The words in front of the list of a definition. -/
theorem kinds_before_list {kw place : Kind} (hok : (parse t).ok = true)
    (h : Sits (parse t).tree before (.node kind (front ++ u :: back)) after)
    (hplace : (kind, kw, place) ∈
      [(Kind.classDef, Kind.classKw, Kind.argList), (.functionDef, .defKw, .paramList)])
    (hnode : u.isNode = true) (hu : u.kind = place) :
    ∃ ks, (significant (before ++ tokensOf front)).map Token.kind = ks ++ [kw, .ident] := by
  simp only [List.mem_cons, Prod.mk.injEq, List.not_mem_nil, or_false] at hplace
  have hprogram : (Tree.node kind (front ++ u :: back)).InProgram := by
    refine (h.inProgram_of_ne hok ?_).2
    rcases hplace with ⟨rfl, -⟩ | ⟨rfl, -⟩ <;> simp [Tree.kind]
  have hrow := (each_node.1 (h.each (rows_parse hok))).1
  have hrows : Role.rows kind ≠ [] := by rcases hplace with ⟨rfl, -⟩ | ⟨rfl, -⟩ <;> decide
  have hdecorator : u.kind ≠ .decorator := by
    rw [hu]
    rcases hplace with ⟨-, -, rfl⟩ | ⟨-, -, rfl⟩ <;> decide
  have hplaces : u.kind ∈ Role.places := by
    rw [hu]
    rcases hplace with ⟨-, -, rfl⟩ | ⟨-, -, rfl⟩ <;> decide
  obtain ⟨rs, r, rs', lines, row, hmem, hfront, hfits, hr⟩ := hrow.exists_role hrows hnode hdecorator
  have hkind := hr.kind?_eq hnode hplaces
  rw [hu] at hkind
  have hentry : (kind, kw, place) ∈
      [(Kind.classDef, Kind.classKw, Kind.argList), (.functionDef, .defKw, .paramList)] := by
    simpa using hplace
  obtain ⟨start, rfl⟩ := Role.before_list hentry hmem hkind
  obtain ⟨early, late, rfl, -, hlate⟩ := forall₂_append hfits
  simp only [List.forall₂_cons_left_iff, List.forall₂_nil_left_iff] at hlate
  obtain ⟨_, _, ⟨k, rfl, hk⟩, ⟨name, _, hname, rfl, rfl⟩, rfl⟩ := hlate
  have hin : name ∈ front := by
    have : name ∈ solid front := by simp [hfront]
    exact List.mem_of_mem_filter this
  cases name with
  | leaf => cases hname.1
  | node kind' us =>
    obtain rfl : kind' = .name := hname.2
    obtain ⟨n, rfl, hn⟩ := (hprogram.part (t := .node .name us) (by simp [hin])).node.name (.inl rfl)
    have hword : k.isTrivia = false := by
      rw [Token.isTrivia, hk]
      rcases hplace with ⟨-, rfl, -⟩ | ⟨-, rfl, -⟩ <;> rfl
    have hident : n.isTrivia = false := by simp [Token.isTrivia, hn, Kind.isTrivia]
    refine ⟨(significant before).map Token.kind ++ wordKinds (lines ++ early), ?_⟩
    have hkinds : wordKinds front = wordKinds (lines ++ early) ++ [kw, .ident] := by
      rw [← wordKinds_solid front, hfront, ← List.append_assoc, wordKinds_append]
      simp [wordKinds, significant, hword, hident, hk, hn]
    rw [significant_append, List.map_append, List.append_assoc, ← hkinds]
    rfl

/-- Names behind a dot stand behind no other word. -/
theorem ne_append_dot_ident {xs ys gs : List Kind} {kw : Kind} (hkw : kw ≠ .dot)
    (hgs : ∀ g ∈ gs, g ≠ .ident) : xs ++ [kw, .ident] ≠ ys ++ [.dot, .ident] ++ gs := by
  intro h
  rcases List.eq_nil_or_concat' gs with rfl | ⟨front, last, rfl⟩
  · have h : (xs ++ [kw]) ++ [.ident] = (ys ++ [.dot]) ++ [.ident] := by simpa using h
    obtain ⟨h, -⟩ := List.append_inj' h rfl
    obtain ⟨-, hkind⟩ := List.append_inj' h rfl
    exact hkw (by simpa using hkind)
  · have h : (xs ++ [kw]) ++ [.ident] = (ys ++ [.dot, .ident] ++ front) ++ [last] := by simpa using h
    obtain ⟨-, hlast⟩ := List.append_inj' h rfl
    exact hgs last (by simp) (by simpa using hlast.symm)

/-- What arguments or a dot stand behind ends with a name or a word that closes it. -/
theorem Tree.IsOperand.last {us : List Token} {e : Token} (hoperand : u.IsOperand)
    (h : u.InProgram) (hnode : u.isNode = true) (htokens : u.tokens = us ++ [e])
    (he : e.isTrivia = false) : e.kind ∈ .ident :: Kind.closers := by
  cases u with
  | leaf => cases hnode
  | node kind ts =>
    rcases hoperand with hkind | hkind | hcloses
    · obtain rfl : kind = .nameRef := hkind
      obtain ⟨j, rfl, hj⟩ := h.node.name (.inr rfl)
      obtain ⟨-, rfl⟩ : us = [] ∧ e = j := by simpa [List.singleton_eq_append_iff] using htokens
      simp [hj]
    · obtain rfl : kind = .attributeExpr := hkind
      obtain ⟨receiver, gap, d, gap', j, rfl, -, -, hj, -⟩ := h.attribute
      have hall : receiver.tokens ++ gap ++ d :: gap' ++ [j] = us ++ [e] := by simpa using htokens
      obtain ⟨-, hlast⟩ := List.append_inj' hall rfl
      obtain rfl : j = e := by simpa using hlast
      simp [hj]
    · exact List.mem_cons_of_mem _ (hcloses e.kind (by simp [wordKinds, htokens, significant, he]))

/-- A list of parameters with a bracket stands behind `def` and a name. -/
theorem kinds_before_parameters (hok : (parse t).ok = true)
    (h : Sits (parse t).tree before (.node .paramList (front ++ .leaf o :: back)) after)
    (ho : o.kind = .lParen) :
    ∃ ks, (significant (before ++ tokensOf front)).map Token.kind = ks ++ [.defKw, .ident] := by
  have huntraited := (each_node.1 (h.each (traits_parse hok))).1
  obtain ⟨hne, -⟩ := h.inProgram_of_ne hok (by simp [Tree.kind])
  have hfirst : wordKinds front = [] := by
    by_contra hfilled
    refine huntraited .late (by decide) ⟨front, o, back, rfl, ho, fun hsolid => hfilled ?_⟩
    rw [← wordKinds_solid, hsolid, wordKinds_nil]
  obtain ⟨kind, front', back', before', after', hparent, rfl, -⟩ := h.exists_parent hne
  obtain rfl : kind = .functionDef := by
    by_contra hkind
    refine (each_node.1 (hparent.each (traits_parse hok))).1 .parameters
      (by simp [Trait.barred, hkind]) ?_
    exact ⟨front ++ .leaf o :: back, by simp, o, by simp, ho⟩
  obtain ⟨ks, hks⟩ : ∃ ks, (significant (before' ++ tokensOf front')).map Token.kind =
      ks ++ [.defKw, .ident] := kinds_before_list hok hparent (by simp [Tree.kind]) rfl rfl
  have hfirst : (significant (tokensOf front)).map Token.kind = [] := hfirst
  exact ⟨ks, by rw [significant_append, List.map_append, hks, hfirst, List.append_nil]⟩

/-- A list of arguments stands in a class, behind `class` and a name, or in a call. -/
theorem exists_call_of_list (hok : (parse t).ok = true) (hu : Sits (parse t).tree before u after)
    (hnode : u.isNode = true) (hkind : u.kind = .argList) :
    (∃ ks, (significant before).map Token.kind = ks ++ [.classKw, .ident]) ∨
      ∃ (callee : Tree) (gap : List Token) (before' : List Token),
        Sits (parse t).tree before' (.node .callExpr (callee :: gap.map .leaf ++ [u])) after ∧
          callee.isNode = true ∧ (∀ j ∈ gap, j.isTrivia = true) ∧
            before = before' ++ callee.tokens ++ gap := by
  obtain ⟨hne, -⟩ := hu.inProgram_of_ne hok (by rw [hkind]; decide)
  obtain ⟨kind, front, back, before', after', hparent, rfl, rfl⟩ := hu.exists_parent hne
  have hplace : kind ∈ [Kind.callExpr, .classDef] := by
    by_contra hnot
    refine (each_node.1 (hparent.each (traits_parse hok))).1 .arguments
      (by simp [Trait.barred, hnot]) ?_
    cases u with
    | leaf => cases hnode
    | node k us =>
      obtain rfl : k = .argList := hkind
      exact ⟨us, by simp⟩
  simp only [List.mem_cons, List.not_mem_nil, or_false] at hplace
  rcases hplace with rfl | rfl
  · obtain ⟨-, hprogram⟩ := hparent.inProgram_of_ne hok (by simp [Tree.kind])
    obtain ⟨callee, gap, list, hparts, hgap, hcallee, hcalleeKind, -, -⟩ := hprogram.node.call
    cases front with
    | nil =>
      obtain ⟨rfl, -⟩ := List.cons.inj hparts
      rw [hkind] at hcalleeKind
      simp at hcalleeKind
    | cons v front =>
      obtain ⟨rfl, hrest⟩ := List.cons.inj hparts
      have hnotGap : u ∉ gap.map Tree.leaf := by
        intro hmem
        obtain ⟨j, -, rfl⟩ := List.mem_map.1 hmem
        cases hnode
      obtain ⟨more, rfl, hmore⟩ := exists_append_of_notMem hnotGap hrest.symm
      obtain ⟨rfl, rfl, rfl⟩ : more = [] ∧ u = list ∧ back = [] := by
        simpa [List.singleton_eq_append_iff] using hmore
      exact .inr ⟨v, gap, before', by simpa using hparent, hcallee, hgap, by simp⟩
  · exact .inl (kinds_before_list hok hparent (by decide) hnode hkind)

/-- Names with dots between them that stand in front of a bracket, a word and `=`, and behind
no dot, are called there, all of them. -/
theorem exists_dotted_call {more : List Kind} (hok : (parse t).ok = true)
    (htokens : (parse t).tree.tokens = A ++ (ks ++ [d, k]) ++ gap ++ o :: (mid ++ c :: B))
    (hks : Dotted ks) (hd : d.kind = .dot) (hk : k.kind = .ident)
    (hA : endsIn .dot (significant A) = false)
    (hgap : ∀ j ∈ gap, j.isTrivia = true ∨ j.kind ∈ [.newline, .indent, .dedent])
    (ho : o.kind = .lParen) (hc : c.kind = .rParen) (hmid : ∀ j ∈ mid, j.kind.isBracket = false)
    (hwords : (significant mid).map Token.kind = .ident :: .eq :: more) :
    ∃ receiver list, Sits (parse t).tree A (.node .callExpr
        (.node .attributeExpr [receiver, .leaf d, .node .name [.leaf k]] ::
          gap.map .leaf ++ [list])) B ∧
      receiver.isNode = true ∧ receiver.tokens = ks ∧
        list.isNode = true ∧ list.kind = .argList ∧ list.tokens = o :: (mid ++ [c]) := by
  have hdot : d.isTrivia = false := by simp [Token.isTrivia, hd, Kind.isTrivia]
  have hident : k.isTrivia = false := by simp [Token.isTrivia, hk, Kind.isTrivia]
  have hlayout : ∀ g ∈ (significant gap).map Token.kind, g ∈ [Kind.newline, .indent, .dedent] := by
    intro g hg
    obtain ⟨j, hj, rfl⟩ := List.mem_map.1 hg
    obtain ⟨hj, hjt⟩ := List.mem_filter.1 hj
    exact (hgap j hj).resolve_left (by simpa using hjt)
  have hfront : (significant (A ++ (ks ++ [d, k]) ++ gap)).map Token.kind =
      (significant (A ++ ks)).map Token.kind ++ [.dot, .ident] ++ (significant gap).map Token.kind := by
    simp [significant, hdot, hident, hd, hk]
  -- no definition stands here
  have hnone (xs : List Kind) {kw : Kind} (hkw : kw ≠ .dot) :
      (significant (A ++ (ks ++ [d, k]) ++ gap)).map Token.kind ≠ xs ++ [kw, .ident] := by
    rw [hfront]
    refine (ne_append_dot_ident hkw fun g hg => ?_).symm
    rintro rfl
    exact absurd (hlayout _ hg) (by decide)
  obtain ⟨kind, front, back, before, after, hkind, hlist, hbefore, hbehind⟩ :=
    exists_list hok (exists_sits htokens) ho hmid hwords
  simp only [List.mem_cons, List.not_mem_nil, or_false] at hkind
  rcases hkind with rfl | rfl
  · obtain ⟨-, hprogram⟩ := hlist.inProgram_of_ne hok (by simp [Tree.kind])
    obtain ⟨rfl, hback, rfl⟩ := hprogram.list_tokens ho hc hmid hbehind
    rw [tokensOf_nil, List.append_nil] at hbefore
    subst hbefore
    rcases exists_call_of_list hok hlist rfl rfl with ⟨xs, hxs⟩ |
      ⟨callee, gap', before, hcall, hcallee, hgap', hbefore⟩
    · exact absurd hxs (hnone xs (by decide))
    obtain ⟨-, hcallProgram⟩ := hcall.inProgram_of_ne hok (by simp [Tree.kind])
    obtain ⟨_, hsits, hcalleeProgram, hoperand⟩ := hcall.operand hok (by decide) hcallProgram hcallee
    obtain ⟨-, us, e, hlast, he⟩ :=
      hcalleeProgram.edges (by cases callee <;> first | rfl | cases hcallee)
    have hend := hoperand.last hcalleeProgram hcallee hlast he
    -- the name is called across trivia only
    have htrivia : (significant gap).map Token.kind = [] := by
      have hkinds : (significant (A ++ ks)).map Token.kind ++ [.dot, .ident] ++
          (significant gap).map Token.kind =
            (significant (before ++ us)).map Token.kind ++ [e.kind] := by
        rw [← hfront, hbefore, hlast, significant_append, significant_of_trivia hgap']
        simp [significant, he]
      rcases List.eq_nil_or_concat' ((significant gap).map Token.kind) with hnil | ⟨gs, g, hgs⟩
      · exact hnil
      · rw [hgs, ← List.append_assoc] at hkinds
        obtain ⟨-, hlastKind⟩ := List.append_inj' hkinds rfl
        obtain rfl : g = e.kind := by simpa using hlastKind
        have hnone : ∀ kind ∈ [Kind.newline, .indent, .dedent], kind ∉ .ident :: Kind.closers := by
          decide
        exact absurd hend (hnone _ (hlayout e.kind (by simp [hgs])))
    have htrivia : ∀ j ∈ gap, j.isTrivia = true := by
      have hnil := List.filter_eq_nil_iff.1 (List.map_eq_nil_iff.1 htrivia)
      simpa using hnil
    have hcut : A ++ ks ++ [d] ++ [k] ++ gap = before ++ us ++ [e] ++ gap' := by
      rw [hlast] at hbefore
      simpa using hbefore
    obtain ⟨hnames, rfl⟩ := eq_of_trivia htrivia hgap' hident he hcut
    have hall : before ++ callee.tokens = A ++ (ks ++ [d, k]) := by
      rw [hlast]
      simpa using hnames.symm
    obtain rfl := (Dotted.more hks hd hk).operand hok hsits hcalleeProgram hcallee hoperand hall hA
    obtain ⟨start, j, rfl, hj⟩ := hks.exists_concat
    have hword : j.isTrivia = false := by simp [Token.isTrivia, hj, Kind.isTrivia]
    have hnamesEnd : before ++ callee.tokens = before ++ start ++ [j] ++ [d, k] := by simp [hall]
    obtain ⟨receiver, _, rfl, -, -, hreceiver, -, hreceiverTokens⟩ :=
      attribute_of_dot hok hsits hcalleeProgram hcallee hoperand hword hd hk hnamesEnd
    exact ⟨receiver, _, hcall, hreceiver, by simpa using hreceiverTokens, rfl, rfl, by simp [hback]⟩
  · obtain ⟨xs, hxs⟩ := kinds_before_parameters hok hlist ho
    rw [← hbefore] at hxs
    exact absurd hxs (hnone xs (by decide))

end SceneGate
