/-
Nothing is hidden in a text that is a program: it has no error node and no error
token, and its brackets are nested, each closed by its like, in the node that it
stands in (`ok_hides_nothing`).

Where reading finds no fault, a token that is taken by itself is neither a bracket
nor an error, and brackets are taken in pairs around what is read between them
(`Form.pairs`). So the parts that are built pair off (`Progress.Grown`), whichever
of them become a node later on: a node is made of a whole run of parts, and a run
that a bracket stands in holds its partner as well.
-/
import SceneGate.Proofs.Lossless

namespace SceneGate

/-! ## Nested words -/

/-- The kind of bracket that closes a bracket. -/
def Kind.closer? : Kind → Option Kind
  | .lParen => some .rParen
  | .lBracket => some .rBracket
  | .lBrace => some .rBrace
  | _ => none

/-- Whether a token of the kind opens or closes something. -/
def Kind.isBracket (k : Kind) : Bool :=
  [Kind.lParen, .rParen, .lBracket, .rBracket, .lBrace, .rBrace].contains k

theorem Kind.isBracket_of_closer? {o c : Kind} (h : o.closer? = some c) :
    o.isBracket = true ∧ c.isBracket = true := by
  unfold closer? at h
  split at h <;> cases h <;> decide

/-- The brackets among tokens. -/
def brackets (ts : List Token) : List Token := ts.filter fun k => k.kind.isBracket

/-- A word of brackets that is put together of pairs around words of the same sort. -/
inductive Nested (pairs : Token → Token → Prop) : List Token → Prop
  | nil : Nested pairs []
  | pair {o c : Token} {inner after : List Token} : pairs o c → Nested pairs inner →
      Nested pairs after → Nested pairs (o :: inner ++ c :: after)

/-- A bracket and the one that closes it. -/
def Token.Closes (o c : Token) : Prop := o.kind.closer? = some c.kind

/-- Two tokens are parts of the same node of a tree. -/
def Tree.Siblings (t : Tree) (k l : Token) : Prop :=
  ∃ n ∈ t.locate 0 0, .leaf k ∈ n.tree.parts ∧ .leaf l ∈ n.tree.parts

section Words

variable {pairs : Token → Token → Prop} {ks ls : List Token}

@[simp] theorem brackets_nil : brackets [] = [] := rfl

theorem brackets_cons (k : Token) (ks : List Token) :
    brackets (k :: ks) = (if k.kind.isBracket then [k] else []) ++ brackets ks := by
  rw [brackets, List.filter_cons]
  split <;> rfl

@[simp] theorem brackets_append : brackets (ks ++ ls) = brackets ks ++ brackets ls :=
  List.filter_append ..

theorem Nested.append (h : Nested pairs ks) (h' : Nested pairs ls) : Nested pairs (ks ++ ls) := by
  induction h with
  | nil => exact h'
  | pair hp hinner _ _ ih => simpa using Nested.pair hp hinner ih

end Words

/-! ## Parts that pair off -/

/-- Whether a tree is a bracket. -/
def Tree.isBracket : Tree → Bool
  | .leaf k => k.kind.isBracket
  | .node _ _ => false

/-- The brackets among trees that stand side by side pair off. -/
inductive Tree.Paired : List Tree → Prop
  | nil : Paired []
  | other {t : Tree} {ts : List Tree} : t.isBracket = false → Paired ts → Paired (t :: ts)
  | pair {o c : Token} {inner after : List Tree} : o.Closes c → Paired inner → Paired after →
      Paired (.leaf o :: inner ++ .leaf c :: after)

namespace Tree

variable {pairs : Token → Token → Prop} {ts us : List Tree}

theorem Paired.append (h : Paired ts) (h' : Paired us) : Paired (ts ++ us) := by
  induction h with
  | nil => exact h'
  | other ht _ ih => exact .other ht ih
  | pair hc hinner _ _ ih => simpa using Paired.pair hc hinner ih

theorem Paired.of_forall (h : ∀ t ∈ ts, t.isBracket = false) : Paired ts := by
  induction ts with
  | nil => exact .nil
  | cons t ts ih =>
    obtain ⟨ht, hts⟩ := List.forall_mem_cons.1 h
    exact .other ht (ih hts)

/-- Where parts pair off and each of them is nested, all their tokens are. -/
theorem Paired.nested (h : Paired ts) (hin : ∀ t ∈ ts, t.isBracket = false →
    Nested pairs (brackets t.tokens))
    (hpairs : ∀ o c, leaf o ∈ ts → leaf c ∈ ts → o.Closes c → pairs o c) :
    Nested pairs (brackets (tokensOf ts)) := by
  induction h with
  | nil => simpa [brackets] using Nested.nil
  | @other t ts ht _ ih =>
    obtain ⟨hfirst, hin⟩ := List.forall_mem_cons.1 hin
    rw [tokensOf_cons, brackets_append]
    exact (hfirst ht).append (ih hin fun o c ho hc =>
      hpairs o c (List.mem_cons_of_mem _ ho) (List.mem_cons_of_mem _ hc))
  | @pair o c inner after hclose _ _ ihinner ihafter =>
    obtain ⟨ho, hc⟩ := Kind.isBracket_of_closer? hclose
    have hleaf : brackets (tokensOf (leaf o :: inner ++ leaf c :: after)) =
        o :: brackets (tokensOf inner) ++ c :: brackets (tokensOf after) := by
      simp [brackets, ho, hc]
    rw [hleaf]
    refine .pair (hpairs o c (by simp) (by simp) hclose) (ihinner ?_ ?_) (ihafter ?_ ?_)
    · exact fun t ht => hin t (by simp [ht])
    · exact fun j k hj hk => hpairs j k (by simp [hj]) (by simp [hk])
    · exact fun t ht => hin t (by simp [ht])
    · exact fun j k hj hk => hpairs j k (by simp [hj]) (by simp [hk])

/-- What a node of a program is like: its parts pair off, and none of them is an error. -/
def Fine (_ : Kind) (ts : List Tree) : Prop := Paired ts ∧ ∀ t ∈ ts, t.kind ≠ .error

/-- The parts pair off, and what pairs off is as `pairs` says. -/
def PairedBy (pairs : Token → Token → Prop) (_ : Kind) (ts : List Tree) : Prop :=
  Paired ts ∧ ∀ o c, leaf o ∈ ts → leaf c ∈ ts → o.Closes c → pairs o c

end Tree

section Trees

variable {pairs : Token → Token → Prop}

mutual

/-- Where the parts of every node pair off, the brackets of the whole tree are nested. -/
theorem Tree.Each.nested : ∀ {t : Tree}, t.Each (Tree.PairedBy pairs) → t.isBracket = false →
    Nested pairs (brackets t.tokens)
  | .leaf k, _, h => by
    have h : k.kind.isBracket = false := h
    simpa [brackets, h] using Nested.nil
  | .node kind ts, h, _ => by
    rw [tokens_node]
    exact h.1.1.nested (Tree.EachOf.nested h.2) h.1.2

theorem Tree.EachOf.nested : ∀ {ts : List Tree}, Tree.EachOf (Tree.PairedBy pairs) ts →
    ∀ t ∈ ts, t.isBracket = false → Nested pairs (brackets t.tokens)
  | [], _ => by simp
  | _ :: _, h => List.forall_mem_cons.2 ⟨Tree.Each.nested h.1, Tree.EachOf.nested h.2⟩

end

mutual

/-- A tree in which no part of a node is an error holds none. -/
theorem Tree.Each.kind_ne_error {o d : Nat} : ∀ {t : Tree}, t.kind ≠ .error → t.Each Tree.Fine →
    ∀ l ∈ t.locate o d, l.tree.kind ≠ .error
  | .leaf k, hk, _, l, hl => by
    obtain rfl := List.mem_singleton.1 (by simpa [Tree.locate] using hl)
    exact hk
  | .node kind ts, hk, h, l, hl => by
    rw [Tree.locate, List.mem_cons] at hl
    rcases hl with rfl | hl
    · exact hk
    · exact Tree.EachOf.kind_ne_error h.1.2 h.2 l hl

theorem Tree.EachOf.kind_ne_error {o d : Nat} : ∀ {ts : List Tree}, (∀ t ∈ ts, t.kind ≠ .error) →
    Tree.EachOf Tree.Fine ts → ∀ l ∈ Tree.locateAll o d ts, l.tree.kind ≠ .error
  | [], _, _, l, hl => by simp [Tree.locateAll] at hl
  | t :: ts, hk, h, l, hl => by
    obtain ⟨hkind, hkinds⟩ := List.forall_mem_cons.1 hk
    rw [Tree.locateAll, List.mem_append] at hl
    rcases hl with hl | hl
    · exact Tree.Each.kind_ne_error hkind h.1 l hl
    · exact Tree.EachOf.kind_ne_error hkinds h.2 l hl

end

end Trees

/-! ## How brackets are taken -/

/-- Nothing is known, if the point is reached at all. -/
def Sight.onward (S : Sight) : Sight := if S.isEmpty then .nothing else .anything

/-- Watches the kinds that tests leave open, in readings without a fault. -/
def Watch.faultless : Watch where
  taken := Sight.onward
  faulted _ := .nothing
  left _ := Sight.onward
  mayTake _ := true
  mayCall p S := S.within ⟨p.startsOn, p.startsOn⟩
  mayOpen _ _ _ := true
  mayWrap _ := true

/-- The kinds of tokens that may be taken by themselves. -/
def KindSet.unpaired : KindSet :=
  .allBut [.lParen, .rParen, .lBracket, .rBracket, .lBrace, .rBrace, .error]

/-- The kinds of brackets that a bracket of a kind closes. -/
def KindSet.closedBy (bracket : Kind) : KindSet :=
  .only ([Kind.lParen, .lBracket, .lBrace].filter fun k => k.closer? == some bracket)

/-- Whether, where no fault is found, brackets are taken in pairs only, no error token
is taken and no error node is made. Between two brackets no run of parts is made a
node that began before them. -/
def Form.pairs (inRun : Bool) : Form → Sight → Bool
  | .take, S => S.within ⟨.unpaired, .unpaired⟩
  | .seq first second, S =>
    first.pairs inRun S && second.pairs inRun (Watch.faultless.after first S).either
  | .cond test yes no, S =>
    test.pairs inRun S && yes.pairs inRun (Watch.faultless.after test S).yes &&
      no.pairs inRun (Watch.faultless.after test S).no
  | .loop test body, S =>
    let T := Watch.faultless.round test body S
    test.pairs inRun T && body.pairs inRun (Watch.faultless.after test T).yes
  | .node kind body, S =>
    (kind != .error || (Watch.faultless.after body S).either.isEmpty) && body.pairs true S
  | .mark body, S => body.pairs true S
  | .wrap kind body, S =>
    inRun && (kind != .error || (Watch.faultless.after body S).either.isEmpty) &&
      body.pairs true S
  | .enclosed bracket body, S =>
    S.within ⟨.closedBy bracket, .closedBy bracket⟩ && body.pairs false S.onward
  | .answer _, _ | .next _, _ | .nextTwo _ _, _ | .complain _, _ | .complainOfToken, _
  | .call _, _ => true

namespace Phrase

theorem faultless_fits (p : Phrase) :
    Watch.faultless.fits true p.form ⟨p.startsOn, .none⟩ = true := by
  revert p
  decide +kernel

/-- The grammar takes brackets in pairs. -/
theorem pairs (p : Phrase) : p.form.pairs false ⟨p.startsOn, .none⟩ = true := by
  revert p
  decide +kernel

end Phrase

/-! ## What is built pairs off -/

namespace Tree

variable {ts us : List Tree}

/-- Trees that stand side by side and may be parts of a node. -/
def Sound (ts : List Tree) : Prop := Paired ts ∧ ∀ t ∈ ts, t.kind ≠ .error ∧ t.Each Fine

theorem sound_nil : Sound [] := ⟨.nil, by simp⟩

theorem Sound.append (h : Sound ts) (h' : Sound us) : Sound (ts ++ us) :=
  ⟨h.1.append h'.1, List.forall_mem_append.2 ⟨h.2, h'.2⟩⟩

theorem sound_leaf {k : Token} (h : KindSet.unpaired.has k.kind = true) : Sound [leaf k] := by
  refine ⟨.of_forall ?_, ?_⟩ <;> simp [KindSet.unpaired, isBracket, Kind.isBracket, Tree.kind] at h ⊢
  · simp [h]
  · simp [h]

theorem sound_trivia {ks : List Token} (h : ∀ k ∈ ks, k.isTrivia = true) :
    Sound (ks.map leaf) := by
  induction ks with
  | nil => exact sound_nil
  | cons k ks ih =>
    obtain ⟨hk, hks⟩ := List.forall_mem_cons.1 h
    have hunpaired : KindSet.unpaired.has k.kind = true := by
      unfold Token.isTrivia Kind.isTrivia at hk
      split at hk <;> simp_all [KindSet.unpaired]
    have hall : Sound ([leaf k] ++ ks.map leaf) := (sound_leaf hunpaired).append (ih hks)
    exact hall

theorem Sound.node {kind : Kind} (h : Sound ts) (hk : kind ≠ .error) : Sound [.node kind ts] := by
  refine ⟨.of_forall (by simp [isBracket]), fun t ht => ?_⟩
  obtain rfl := List.mem_singleton.1 ht
  exact ⟨hk, each_node.2 ⟨⟨h.1, fun u hu => (h.2 u hu).1⟩, fun u hu => (h.2 u hu).2⟩⟩

theorem Sound.pair {o c : Token} (h : Sound ts) (hc : o.Closes c) :
    Sound (leaf o :: ts ++ [leaf c]) := by
  have hkinds := Kind.isBracket_of_closer? hc
  have hne {k : Token} (hk : k.kind.isBracket = true) : k.kind ≠ .error := by
    rintro he
    rw [he] at hk
    cases hk
  refine ⟨.pair hc h.1 .nil, ?_⟩
  simp only [List.cons_append, List.forall_mem_cons, List.forall_mem_append]
  exact ⟨⟨hne hkinds.1, each_leaf o⟩, h.2, ⟨hne hkinds.2, each_leaf c⟩, by simp⟩

end Tree

section Reading

variable {env : Surroundings} {f : Form} {S : Sight} {b inRun : Bool} {s s' : Progress}
  {base : List Tree}

theorem Sight.has_onward {flag : Bool} {k l : Kind} (h : S.has flag k = true) :
    S.onward.has flag l = true := by
  simp [onward, isEmpty_of_has h]

theorem Watch.faultless_sound (env : Surroundings) :
    Watch.faultless.Sound env (fun _ _ _ _ => True) (fun s => s.faults = [])
      (fun (_ : Unit) flag _ => flag = false) id where
  back h hg := List.suffix_nil.1 (hg ▸ h.faults)
  take := by
    intro _ S s _ ⟨flag, hflag, hk⟩
    exact ⟨flag, hflag, Sight.has_onward hk⟩
  fault := by
    intro _ S s f hg
    exact absurd hg (Progress.faults_record_ne s f)
  call := by
    intro _ S p s b s' _ _ _ _ ⟨flag, hflag, hk⟩
    exact ⟨flag, hflag, Sight.has_onward hk⟩
  inside h := h
  node _ _ _ h := h
  mark _ h := h
  wrap _ h := h

/-- After a form that was read without a fault, the next token is of a kind that the
tests leave open. -/
theorem Form.Reads.sighted (h : Form.Reads env (Phrase.Reads env) f s b s')
    (hg : s'.faults = []) (hf : Watch.faultless.fits true f S = true)
    (hk : S.has false s.current = true) :
    ((Watch.faultless.after f S).of b).has false s'.current = true := by
  obtain ⟨flag, rfl, hk⟩ := (Watch.faultless_sound env).holds
    (h.imp fun _ _ _ _ hq => ⟨hq, trivial⟩) hg (fun _ => ⟨(), rfl⟩) hf ⟨false, rfl, hk⟩
  exact hk

namespace Progress

/-- Since `base` was built, only sound parts have been built. -/
structure Grown (base : List Tree) (s : Progress) : Prop where
  built : ∃ new, s.built = new ++ base ∧ Tree.Sound new.reverse
  sorted : s.Sorted

theorem Grown.flush (h : s.Grown base) : s.flush.Grown base := by
  obtain ⟨new, hnew, hsound⟩ := h.built
  refine ⟨⟨(s.pending.map Tree.leaf).reverse ++ new, by simp [Progress.flush, hnew], ?_⟩,
    ⟨by simp [Progress.flush], h.sorted.rest⟩⟩
  rw [List.reverse_append, List.reverse_reverse]
  exact hsound.append (Tree.sound_trivia h.sorted.pending)

theorem Grown.inside (h : s.Grown base) : s.inside.Grown [] :=
  ⟨⟨[], rfl, Tree.sound_nil⟩, ⟨by simp [Progress.inside, Progress.flush], h.sorted.rest⟩⟩

theorem Grown.concat (h : s.Grown base) (parts : List Tree) (hp : Tree.Sound parts.reverse)
    (hs : s'.Sorted) (hb : s'.built = parts ++ s.built) : s'.Grown base := by
  obtain ⟨new, hnew, hsound⟩ := h.built
  refine ⟨⟨parts ++ new, by rw [hb, hnew, List.append_assoc], ?_⟩, hs⟩
  rw [List.reverse_append]
  exact hsound.append hp

theorem Grown.take (h : s.Grown base) (hk : KindSet.unpaired.has s.current = true) :
    s.take.Grown base := by
  cases hr : s.rest with
  | nil => rw [take_of_nil hr]; exact h.flush
  | cons l ls =>
    refine h.flush.concat [.leaf l.token] (Tree.sound_leaf ?_) h.sorted.take ?_
    · simpa [current, hr] using hk
    · rw [take_of_cons hr]; rfl

theorem Grown.rejoin (h : s.Grown base) (parts : List Tree) (hp : Tree.Sound parts.reverse)
    (hs : s'.Sorted) : (s.rejoin s' parts).Grown base :=
  h.flush.concat parts hp ⟨hs.pending, hs.rest⟩ rfl

/-- What has been built since the run began. -/
theorem Grown.sound (h : s.Grown []) : Tree.Sound s.built.reverse := by
  obtain ⟨new, hnew, hsound⟩ := h.built
  rw [hnew, List.append_nil]
  exact hsound

end Progress

open Progress

/-- What it means that a phrase builds sound parts, where it finds no fault. -/
def Phrase.Grows (p : Phrase) (s : Progress) (_ : Bool) (s' : Progress) : Prop :=
  p.startsOn.has s.current = true → s'.faults = [] → ∀ base, s.Grown base → s'.Grown base

/-- Reading an opening bracket, what is between, and the closing one. -/
theorem Progress.Grown.enclosed {bracket : Kind} {s₁ : Progress} {o : Nat} (h : s.Grown base)
    (hk : (KindSet.closedBy bracket).has s.current = true)
    (hin : ∀ base, s.take.Grown base → s₁.Grown base)
    (hg : (s₁.close env bracket o).faults = []) : (s₁.close env bracket o).Grown base := by
  obtain ⟨hopener, hcloses⟩ : s.current ≠ .endOfFile ∧ s.current.closer? = some bracket := by
    simp only [KindSet.closedBy, KindSet.has_only, List.contains_iff_mem, List.mem_filter,
      beq_iff_eq] at hk
    exact ⟨fun he => by simp [he] at hk, hk.2⟩
  obtain ⟨l, ls, hl, hlk⟩ := exists_of_current rfl hopener
  obtain ⟨hcurrent, hclose⟩ := close_of_faults hg
  have hbracket : bracket ≠ .endOfFile := by
    rintro rfl
    exact absurd (Kind.isBracket_of_closer? hcloses).2 (by decide)
  obtain ⟨m, ms, hm, hmk⟩ := exists_of_current hcurrent hbracket
  -- The parts since the opening bracket are those that `base` and it stand before.
  have hopened : s.take.Grown (.leaf l.token :: s.flush.built) :=
    ⟨⟨[], by rw [take_of_cons hl]; rfl, Tree.sound_nil⟩, h.sorted.take⟩
  obtain ⟨new, hnew, hsound⟩ := (hin _ hopened).flush.built
  have hsorted := (hin _ hopened).sorted.take
  rw [hclose]
  refine h.flush.concat (.leaf m.token :: (new ++ [.leaf l.token])) ?_ hsorted ?_
  · have hpair : l.token.Closes m.token := by rw [Token.Closes, hlk, hmk, hcloses]
    simpa using hsound.pair hpair
  · rw [take_of_cons hm]
    simp [hnew]

/-- Where a form finds no fault, it builds sound parts, if the phrases in it do. The
induction is on the form; a part of the text between brackets is a run of its own. -/
theorem Form.Reads.grown
    (h : Form.Reads env (fun q s b s' => Phrase.Reads env q s b s' ∧ q.Grows s b s') f s b s')
    (hg : s'.faults = []) (hrun : inRun = true → base = [])
    (hf : Watch.faultless.fits true f S = true) (hp : f.pairs inRun S = true)
    (hk : S.has false s.current = true) (hs : s.Grown base) : s'.Grown base := by
  have alone {f s b s'}
      (h : Form.Reads env (fun q s b s' => Phrase.Reads env q s b s' ∧ q.Grows s b s') f s b s') :
      Form.Reads env (Phrase.Reads env) f s b s' :=
    h.imp fun _ _ _ _ hq => hq.1
  induction f generalizing s b s' S inRun base with
  | answer | next | nextTwo => cases h; exact hs
  | take =>
    cases h
    exact hs.take (Sight.has_of_within hp hk)
  | complain | complainOfToken =>
    cases h
    exact absurd hg (faults_complain_ne _ _ _)
  | seq first second ih₁ ih₂ =>
    simp only [Watch.fits, pairs, Bool.and_eq_true] at hf hp
    cases h with
    | seq h₁ h₂ =>
      have hg₁ := (alone h₂).faults_eq hg
      have hk₁ := (alone h₁).sighted hg₁ hf.1 hk
      exact ih₂ h₂ hg hrun hf.2 hp.2 (Outlook.has_either hk₁) (ih₁ h₁ hg₁ hrun hf.1 hp.1 hk hs)
  | cond test yes no ih iy ino =>
    simp only [Watch.fits, pairs, Bool.and_eq_true] at hf hp
    cases h with
    | condYes h₁ h₂ =>
      have hg₁ := (alone h₂).faults_eq hg
      have hk₁ := (alone h₁).sighted hg₁ hf.1.1 hk
      exact iy h₂ hg hrun hf.1.2 hp.1.2 hk₁ (ih h₁ hg₁ hrun hf.1.1 hp.1.1 hk hs)
    | condNo h₁ h₂ =>
      have hg₁ := (alone h₂).faults_eq hg
      have hk₁ := (alone h₁).sighted hg₁ hf.1.1 hk
      exact ino h₂ hg hrun hf.2 hp.2 hk₁ (ih h₁ hg₁ hrun hf.1.1 hp.1.1 hk hs)
  | loop test body iht ihb =>
    simp only [Watch.fits, pairs, Bool.and_eq_true] at hf hp
    obtain ⟨⟨ht, hb⟩, hback⟩ := hf
    have hfirst : (Watch.faultless.round test body S).has false s.current = true := by
      simp [Watch.round, hk]
    obtain ⟨rfl, s₀, ⟨hs₀, hk₀⟩, h₀⟩ := h.of_loop
      (P := fun s => s.Grown base ∧ (Watch.faultless.round test body S).has false s.current = true)
      ⟨hs, hfirst⟩ fun hP h₁ h₂ h₃ => by
        have hg₂ := (alone h₃).faults_eq hg
        have hg₁ := (alone h₂).faults_eq hg₂
        have hk₁ := (alone h₁).sighted hg₁ ht hP.2
        have hk₂ := (alone h₂).sighted hg₂ hb hk₁
        exact ⟨ihb h₂ hg₂ hrun hb hp.2 hk₁ (iht h₁ hg₁ hrun ht hp.1 hP.2 hP.1),
          Sight.has_of_within hback (Outlook.has_either hk₂)⟩
    exact iht h₀ hg hrun ht hp.1 hk₀ hs₀
  | call p =>
    cases h with
    | call h => exact h.2 (Sight.has_of_within hf hk) hg base hs
  | node kind body ih =>
    simp only [Watch.fits, pairs, Bool.and_eq_true, Bool.or_eq_true, bne_iff_ne] at hf hp
    cases h with
    | node h =>
      rename_i s₁
      have hin := ih h hg (fun _ => rfl) hf.2 hp.2 hk hs.inside
      have hk₁ := (alone h).sighted hg hf.2 hk
      have hkind := hp.1.resolve_right (by simp [Sight.isEmpty_of_has (Outlook.has_either hk₁)])
      exact hs.rejoin [.node kind s₁.built.reverse] (hin.sound.node hkind) hin.sorted
  | mark body ih =>
    simp only [Watch.fits, pairs] at hf hp
    cases h with
    | mark h =>
      rename_i s₁
      have hin := ih h hg (fun _ => rfl) hf hp hk hs.inside
      exact hs.rejoin s₁.built hin.sound hin.sorted
  | wrap kind body ih =>
    simp only [Watch.fits, pairs, Bool.and_eq_true, Bool.or_eq_true, bne_iff_ne] at hf hp
    cases h with
    | wrap h =>
      rename_i s₁
      obtain rfl := hrun hp.1.1
      have hin := ih h hg (fun _ => rfl) hf.2 hp.2 hk hs
      have hk₁ := (alone h).sighted hg hf.2 hk
      have hkind := hp.1.2.resolve_right (by simp [Sight.isEmpty_of_has (Outlook.has_either hk₁)])
      exact ⟨⟨[.node kind s₁.built.reverse], rfl, hin.sound.node hkind⟩,
        ⟨hin.sorted.pending, hin.sorted.rest⟩⟩
  | enclosed bracket body ih =>
    simp only [Watch.fits, pairs, Bool.and_eq_true] at hf hp
    cases h with
    | enclosed h =>
      rename_i s₁
      have hg₁ : s₁.faults = [] := List.suffix_nil.1 (hg ▸ (follows_close ..).faults)
      exact hs.enclosed (Sight.has_of_within hp.1 hk)
        (fun base => ih h hg₁ (by simp) hf.1.2 hp.2 (Sight.has_onward hk)) hg

/-- Where a phrase finds no fault, it builds sound parts. -/
theorem Phrase.Reads.grown {p : Phrase} (h : Phrase.Reads env p s b s') : p.Grows s b s' :=
  h.induct Phrase.Grows fun p _ _ _ h hk hg _ hs =>
    h.grown hg (by simp) p.faultless_fits p.pairs hk hs

end Reading

/-! ## Layout leaves brackets alone -/

namespace Layout

@[simp] theorem brackets_dedents (n o : Nat) : brackets (dedents n o) = [] :=
  List.filter_eq_nil_iff.2 fun k hk => by rw [kind_of_mem_dedents hk]; decide

theorem Steps.brackets_eq {s s' : Layout} {k : Token} {out : Output} (h : Steps s k s' out) :
    brackets out.tokens ++ brackets s'.held = brackets s.held ++ brackets [k] := by
  cases h with
  | endLine hg | inLine hg | continuation hg | trivia hg => simp [held, hg]
  | joinLines hg hk | blankLine hg hk =>
    have hk : k.kind.isBracket = false := by rw [hk]; rfl
    have hblank : Kind.whitespace.isBracket = false := rfl
    simp [held, hg, brackets_cons, hk, hblank]
  | indent hg => simp [held, hg, brackets_cons, Kind.isBracket]
  | dedent _ _ hg | stray _ _ hg => simp [held, hg]

theorem brackets_run (stop : Nat) (s : Layout) (ts : List Token) :
    brackets (s.run stop ts).tokens = brackets s.held ++ brackets ts := by
  induction ts generalizing s with
  | nil =>
    simp only [run, finish]
    split
    · rename_i hg; simp [held, hg, brackets_cons, Kind.isBracket]
    · rename_i g hg; simp [held, hg]
  | cons t ts ih =>
    rw [run, brackets_append, ih, ← List.append_assoc, (steps_step s t).brackets_eq,
      List.append_assoc, ← brackets_append]
    rfl

end Layout

theorem brackets_layout (t : Text) : brackets (layout t).tokens = brackets (tokenize t) :=
  Layout.brackets_run ..

/-! ## Programs -/

/-- A text that is a program hides nothing: its layout has no faults, its tree has no
error node and no error token, and its brackets are properly nested, each closed by the
bracket of its own type, and the two are parts of the same node. -/
theorem ok_hides_nothing {t : Text} (h : (parse t).ok = true) :
    (layout t).faults = [] ∧
      (∀ l ∈ (parse t).tree.locate 0 0, l.tree.kind ≠ .error) ∧
      Nested (fun o c => o.Closes c ∧ (parse t).tree.Siblings o c) (brackets (tokenize t)) := by
  obtain ⟨b, s, hreads, hrest, -, htree, hfaults⟩ := exists_reading t
  have hs : s.faults = [] := by simpa [Parse.ok, hfaults] using h
  have hstart : (Progress.start (layout t).tokens (layout t).faults).Grown [] :=
    ⟨⟨[], rfl, Tree.sound_nil⟩, Progress.sorted_start ..⟩
  have hgrown := hreads.grown rfl hs [] hstart
  have hsound : Tree.Sound (s.built.reverse ++ (s.pending ++ Lexeme.tokens s.rest).map .leaf) :=
    hgrown.sound.append (Tree.sound_trivia fun k hk =>
      hgrown.sorted.pending k (by simpa [hrest] using hk))
  have hfine : (parse t).tree.Each Tree.Fine := by
    rw [htree, Progress.root, Tree.each_node]
    exact ⟨⟨hsound.1, fun u hu => (hsound.2 u hu).1⟩, fun u hu => (hsound.2 u hu).2⟩
  have hroot : (parse t).tree.kind ≠ .error ∧ (parse t).tree.isBracket = false := by
    rw [htree]
    exact ⟨by simp [Progress.root, Tree.kind], rfl⟩
  refine ⟨?_, hfine.kind_ne_error hroot.1, ?_⟩
  · have hsuffix := hreads.follows.faults
    rw [hs, List.suffix_nil] at hsuffix
    simpa [Progress.start] using hsuffix
  · rw [← brackets_layout, ← tokens_parse]
    refine Tree.Each.nested ((Tree.each_iff_locate 0 0 _).2 fun l hl hnode => ?_) hroot.2
    have hparts := (Tree.each_iff_locate 0 0 _).1 hfine l hl hnode
    exact ⟨hparts.1, fun o c ho hc hclose => ⟨hclose, l, hl, ho, hc⟩⟩

/-- A program with brackets of each type, in one another and behind one another. -/
def bracketed : Text := "f(a[1], \x7bx: (y), **z[()]\x7d)[[0]]\n".toList

theorem ok_hides_nothing_bracketed : (parse bracketed).ok = true ∧
    Nested (fun o c => o.Closes c ∧ (parse bracketed).tree.Siblings o c)
      (brackets (tokenize bracketed)) := by
  have hok : (parse bracketed).ok = true := by decide +kernel
  exact ⟨hok, (ok_hides_nothing hok).2.2⟩

end SceneGate
