/-
Programs of simple and compound statements over names, and how they are written:
a simple statement or the head of a compound one on a line, and each block indented
further than the lines around it, by any number of blanks. A compound statement
holds only clauses that may follow one another (`Clauses`), so every program here can
be read. The layout finds the blocks again (`lay_program`), and the lines are words
that can be told apart (`legible_program`).
-/
import SceneGate.Proofs.Operators

namespace SceneGate

/-! ## Programs -/

/-- A sign that assigns what an operator makes of both its sides. -/
structure Augmentation where
  text : Text
  known : (text, .augAssign) ∈ operators

/-- A statement on one line. -/
inductive Simple where
  | pass
  | returns (value : Option Identifier)
  | expression (value : Identifier)
  | assign (target value : Identifier) (others : List Identifier)
  | augment (target : Identifier) (sign : Augmentation) (value : Identifier)
  | annotate (target annotation : Identifier) (value : Option Identifier)

/-- `x` or `x as y`. -/
structure Alias where
  value : Identifier
  name : Option Identifier

/-- A parameter of a function. -/
structure Parameter where
  name : Identifier
  annotation : Option Identifier
  default : Option Identifier

/-- What a compound statement begins with. -/
inductive Head where
  | ifTrue (condition : Identifier)
  | whileTrue (condition : Identifier)
  | forEach (target source : Identifier)
  | withItems (first : Alias) (others : List Alias)
  | tryBody
  | function (name : Identifier) (parameters : List Parameter) (result : Option Identifier)
  | classOf (name : Identifier) (bases : Option (List Identifier))

/-- What a clause of a compound statement begins with. -/
inductive Clause where
  | elifTrue (condition : Identifier)
  | elseCase
  | exceptCase (caught : Option Alias)
  | finallyCase

/-- How far a compound statement has come: which clauses may follow. -/
inductive Stage where
  | afterIf | afterLoop | afterTry | afterExcept | afterElse | beforeFinally | closed
deriving DecidableEq, Repr

namespace Stage

/-- How far a statement has come after one more clause, if the clause may follow. -/
def next? : Stage → Clause → Option Stage
  | afterIf, .elifTrue _ => some afterIf
  | afterIf, .elseCase | afterLoop, .elseCase => some closed
  | afterTry, .exceptCase _ | afterExcept, .exceptCase _ => some afterExcept
  | afterTry, .elseCase => some beforeFinally
  | afterExcept, .elseCase => some afterElse
  | afterTry, .finallyCase | afterExcept, .finallyCase | afterElse, .finallyCase
  | beforeFinally, .finallyCase => some closed
  | _, _ => none

/-- Whether a statement may end: only `try` needs another clause. -/
def mayEnd : Stage → Bool
  | afterTry | beforeFinally => false
  | _ => true

end Stage

/-- Which clauses may follow the first block. -/
def Head.stage : Head → Stage
  | ifTrue _ => .afterIf
  | whileTrue _ | forEach _ _ => .afterLoop
  | tryBody => .afterTry
  | withItems _ _ | function _ _ _ | classOf _ _ => .closed

mutual

/-- A statement. The lines of a block are indented `step + 1` columns further than the
line it follows. -/
inductive Stmt where
  | simple (statement : Simple)
  | compound (head : Head) (step : Nat) (body : Suite) (clauses : Clauses head.stage)

/-- The statements of a block, one at least. -/
inductive Suite where
  | last (statement : Stmt)
  | more (statement : Stmt) (others : Suite)

/-- The clauses that end a compound statement. -/
inductive Clauses : Stage → Type where
  | none {stage : Stage} (ends : stage.mayEnd = true) : Clauses stage
  | more {stage stage' : Stage} (clause : Clause) (follows : stage.next? clause = some stage')
      (step : Nat) (body : Suite) (others : Clauses stage') : Clauses stage

end

/-! ## Words -/

namespace Word

def colon : Word := ⟨.colon, ":".toList⟩

def comma : Word := ⟨.comma, ",".toList⟩

def equals : Word := ⟨.eq, "=".toList⟩

def arrow : Word := ⟨.arrow, "->".toList⟩

def passWord : Word := ⟨.passKw, "pass".toList⟩

def returnWord : Word := ⟨.returnKw, "return".toList⟩

def elifWord : Word := ⟨.elifKw, "elif".toList⟩

def whileWord : Word := ⟨.whileKw, "while".toList⟩

def forWord : Word := ⟨.forKw, "for".toList⟩

def withWord : Word := ⟨.withKw, "with".toList⟩

def asWord : Word := ⟨.asKw, "as".toList⟩

def tryWord : Word := ⟨.tryKw, "try".toList⟩

def exceptWord : Word := ⟨.exceptKw, "except".toList⟩

def finallyWord : Word := ⟨.finallyKw, "finally".toList⟩

def defWord : Word := ⟨.defKw, "def".toList⟩

def classWord : Word := ⟨.classKw, "class".toList⟩

@[simp] theorem kind_colon : colon.kind = .colon := rfl

@[simp] theorem kind_comma : comma.kind = .comma := rfl

@[simp] theorem kind_equals : equals.kind = .eq := rfl

@[simp] theorem kind_arrow : arrow.kind = .arrow := rfl

@[simp] theorem kind_passWord : passWord.kind = .passKw := rfl

@[simp] theorem kind_returnWord : returnWord.kind = .returnKw := rfl

@[simp] theorem kind_elifWord : elifWord.kind = .elifKw := rfl

@[simp] theorem kind_whileWord : whileWord.kind = .whileKw := rfl

@[simp] theorem kind_forWord : forWord.kind = .forKw := rfl

@[simp] theorem kind_withWord : withWord.kind = .withKw := rfl

@[simp] theorem kind_asWord : asWord.kind = .asKw := rfl

@[simp] theorem kind_tryWord : tryWord.kind = .tryKw := rfl

@[simp] theorem kind_exceptWord : exceptWord.kind = .exceptKw := rfl

@[simp] theorem kind_finallyWord : finallyWord.kind = .finallyKw := rfl

@[simp] theorem kind_defWord : defWord.kind = .defKw := rfl

@[simp] theorem kind_classWord : classWord.kind = .classKw := rfl

end Word

open Word

/-- Words with commas between them. -/
def commaWords (first : List Word) (others : List (List Word)) : List Word :=
  first ++ others.flatMap fun ws => .comma :: .blank :: ws

/-- Words with commas between them, in brackets. -/
def bracketWords : List (List Word) → List Word
  | [] => [.leftParen, .rightParen]
  | ws :: wss => .leftParen :: (commaWords ws wss ++ [.rightParen])

/-- A name behind its mark, if there is one. -/
def marked (mark : List Word) : Option Identifier → List Word
  | none => []
  | some x => mark ++ [x.word]

/-- The word of a sign that assigns. -/
def Augmentation.word (sign : Augmentation) : Word := ⟨.augAssign, sign.text⟩

@[simp] theorem Augmentation.kind_word (sign : Augmentation) : sign.word.kind = .augAssign := rfl

def Simple.written : Simple → List Word
  | pass => [.passWord]
  | returns x => .returnWord :: marked [.blank] x
  | expression x => [x.word]
  | assign x y others =>
    x.word :: (y :: others).flatMap fun z => [.blank, .equals, .blank, z.word]
  | augment x sign y => [x.word, .blank, sign.word, .blank, y.word]
  | annotate x t y => x.word :: .colon :: .blank :: t.word :: marked [.blank, .equals, .blank] y

def Alias.written (i : Alias) : List Word := i.value.word :: marked [.blank, .asWord, .blank] i.name

def Parameter.written (p : Parameter) : List Word :=
  p.name.word ::
    (marked [.colon, .blank] p.annotation ++ marked [.blank, .equals, .blank] p.default)

/-- The first line of a compound statement, before the colon. -/
def Head.written : Head → List Word
  | ifTrue x => [.ifWord, .blank, x.word]
  | whileTrue x => [.whileWord, .blank, x.word]
  | forEach x y => [.forWord, .blank, x.word, .blank, .inWord, .blank, y.word]
  | withItems i is => .withWord :: .blank :: commaWords i.written (is.map Alias.written)
  | tryBody => [.tryWord]
  | function f ps x =>
    .defWord :: .blank :: f.word ::
      (bracketWords (ps.map Parameter.written) ++ marked [.blank, .arrow, .blank] x)
  | classOf c none => [.classWord, .blank, c.word]
  | classOf c (some xs) =>
    .classWord :: .blank :: c.word :: bracketWords (xs.map fun x => [x.word])

/-- The first line of a clause, before the colon. -/
def Clause.written : Clause → List Word
  | elifTrue x => [.elifWord, .blank, x.word]
  | elseCase => [.elseWord]
  | exceptCase none => [.exceptWord]
  | exceptCase (some i) => .exceptWord :: .blank :: i.written
  | finallyCase => [.finallyWord]

mutual

/-- The lines of a statement in a block that is indented `n` columns. -/
def Stmt.lines (n : Nat) : Stmt → List WordLine
  | .simple s => [⟨n, s.written⟩]
  | .compound head step body clauses =>
    ⟨n, head.written ++ [.colon]⟩ :: (body.lines (n + step + 1) ++ clauses.lines n)

/-- The lines of a block that is indented `n` columns. -/
def Suite.lines (n : Nat) : Suite → List WordLine
  | .last s => s.lines n
  | .more s others => s.lines n ++ others.lines n

/-- The lines of clauses. -/
def Clauses.lines (n : Nat) {stage : Stage} : Clauses stage → List WordLine
  | .none _ => []
  | .more clause _ step body others =>
    ⟨n, clause.written ++ [.colon]⟩ :: (body.lines (n + step + 1) ++ others.lines n)

end

/-- The lines of a program. -/
def programLines (p : List Stmt) : List WordLine := p.flatMap (Stmt.lines 0)

mutual

/-- The words of a statement with the ends of lines and blocks. -/
def Stmt.words : Stmt → List Word
  | .simple s => unspaced s.written ++ [.newline]
  | .compound head _ body clauses =>
    unspaced head.written ++
      (.colon :: .newline :: .indent :: (body.words ++ .dedent :: clauses.words))

/-- The words of a block. -/
def Suite.words : Suite → List Word
  | .last s => s.words
  | .more s others => s.words ++ others.words

/-- The words of clauses. -/
def Clauses.words {stage : Stage} : Clauses stage → List Word
  | .none _ => []
  | .more clause _ _ body others =>
    unspaced clause.written ++
      (.colon :: .newline :: .indent :: (body.words ++ .dedent :: others.words))

end

/-! ## Layout -/

open WordLine

theorem Stmt.first_line (s : Stmt) (n : Nat) : ∃ l ls, s.lines n = l :: ls ∧ l.indentation = n := by
  cases s with
  | simple s => exact ⟨_, _, by rw [Stmt.lines], rfl⟩
  | compound head step body clauses => exact ⟨_, _, by rw [Stmt.lines], rfl⟩

theorem Suite.first_line (s : Suite) (n : Nat) : ∃ l ls, s.lines n = l :: ls ∧ l.indentation = n := by
  cases s with
  | last s =>
    rw [Suite.lines]
    exact s.first_line n
  | more s others =>
    obtain ⟨l, ls, hs, hl⟩ := s.first_line n
    exact ⟨l, _, by rw [Suite.lines, hs]; rfl, hl⟩

section Layout

variable {levels : List Nat} {n m : Nat} {rest : List WordLine}

theorem Suite.shallow_append (s : Suite) : Shallow n (s.lines n ++ rest) := by
  obtain ⟨l, ls, hs, hl⟩ := s.first_line n
  intro l' hl'
  rw [hs] at hl'
  obtain rfl : l = l' := by simpa using hl'
  omega

theorem Clauses.shallow_append {stage : Stage} (c : Clauses stage) (h : Shallow n rest) :
    Shallow n (c.lines n ++ rest) := by
  cases c with
  | none _ => simpa [Clauses.lines] using h
  | more clause _ step body others =>
    intro l hl
    obtain rfl : ⟨n, clause.written ++ [.colon]⟩ = l := by simpa [Clauses.lines] using hl
    exact Nat.le_refl _

theorem WordLine.Shallow.mono (h : Shallow n rest) (hnm : n ≤ m) : Shallow m rest :=
  fun l hl => Nat.le_trans (h l hl) hnm

/-- A block is laid out between its beginning and its end. -/
theorem lay_block {s : Suite} (hn : levels.headD 0 = n) (hnm : n < m) (h : Shallow n rest)
    (hs : ∀ {levels rest}, levels.headD 0 = m → Shallow m rest →
      lay levels (s.lines m ++ rest) = (lay levels rest).map (s.words ++ ·)) :
    lay levels (s.lines m ++ rest) =
      (lay levels rest).map fun ws => .indent :: (s.words ++ .dedent :: ws) := by
  subst hn
  have hhead : (m :: levels).headD 0 = m := rfl
  have hinside : lay (m :: levels) (s.lines m ++ rest) =
      ((lay levels rest).map (.dedent :: ·)).map (s.words ++ ·) := by
    rw [hs hhead (h.mono (by omega)), lay_outer hnm h]
  obtain ⟨l, ls, hl, rfl⟩ := s.first_line m
  rw [hl, List.cons_append] at hinside ⊢
  rw [lay_deeper hnm, hinside, Option.map_map, Option.map_map]
  rfl

theorem unspaced_colon : unspaced [.colon] = [.colon] := rfl

mutual

theorem Stmt.lay_lines : ∀ (s : Stmt) {levels : List Nat} {n : Nat} {rest : List WordLine},
    levels.headD 0 = n → Shallow n rest →
      lay levels (s.lines n ++ rest) = (lay levels rest).map (s.words ++ ·)
  | .simple s, levels, n, rest, hn, _ => by
    rw [Stmt.lines, Stmt.words, List.singleton_append, lay_same hn]
    simp
  | .compound head step body clauses, levels, n, rest, hn, h => by
    have hbody := lay_block (s := body) (m := n + step + 1) hn (by omega)
      (clauses.shallow_append h) body.lay_lines
    rw [Stmt.lines, Stmt.words, List.cons_append, List.append_assoc, lay_same hn, hbody,
      clauses.lay_lines hn h, Option.map_map, Option.map_map]
    congr 1
    funext ws
    simp [unspaced_colon]

theorem Suite.lay_lines : ∀ (s : Suite) {levels : List Nat} {n : Nat} {rest : List WordLine},
    levels.headD 0 = n → Shallow n rest →
      lay levels (s.lines n ++ rest) = (lay levels rest).map (s.words ++ ·)
  | .last s, levels, n, rest, hn, h => by
    rw [Suite.lines, Suite.words]
    exact s.lay_lines hn h
  | .more s others, levels, n, rest, hn, h => by
    rw [Suite.lines, Suite.words, List.append_assoc, s.lay_lines hn others.shallow_append,
      others.lay_lines hn h, Option.map_map]
    congr 1
    funext ws
    simp

theorem Clauses.lay_lines : ∀ {stage : Stage} (c : Clauses stage) {levels : List Nat} {n : Nat}
    {rest : List WordLine}, levels.headD 0 = n → Shallow n rest →
      lay levels (c.lines n ++ rest) = (lay levels rest).map (c.words ++ ·)
  | _, .none _, levels, n, rest, _, _ => by
    rw [Clauses.lines, Clauses.words]
    simp
  | _, .more clause _ step body others, levels, n, rest, hn, h => by
    have hbody := lay_block (s := body) (m := n + step + 1) hn (by omega)
      (others.shallow_append h) body.lay_lines
    rw [Clauses.lines, Clauses.words, List.cons_append, List.append_assoc, lay_same hn, hbody,
      others.lay_lines hn h, Option.map_map, Option.map_map]
    congr 1
    funext ws
    simp [unspaced_colon]

end

end Layout

/-- The layout finds the blocks of a program. -/
theorem lay_program (p : List Stmt) : lay [] (programLines p) = some (p.flatMap Stmt.words) := by
  induction p with
  | nil => rfl
  | cons s p ih =>
    have hshallow : Shallow 0 (programLines p) := by
      cases p with
      | nil => simp [programLines, Shallow]
      | cons s' p =>
        obtain ⟨l, ls, hs, hl⟩ := s'.first_line 0
        intro l' hl'
        obtain rfl : l = l' := by simpa [programLines, hs] using hl'
        omega
    have hlevel : ([] : List Nat).headD 0 = 0 := rfl
    have hline := s.lay_lines hlevel hshallow
    rw [programLines] at ih hline ⊢
    rw [List.flatMap_cons, hline, ih]
    rfl

/-! ## Legibility -/

section Legibility

variable {ws vs : List Word}

theorem Legible.extend {ι : Type} {is : List ι} {g : ι → List Word} (h : Legible ws)
    (step : ∀ i ∈ is, ∀ {vs : List Word}, Legible vs → Legible (vs ++ g i)) :
    Legible (ws ++ is.flatMap g) := by
  induction is generalizing ws with
  | nil => simpa using h
  | cons i is ih =>
    rw [List.flatMap_cons, ← List.append_assoc]
    exact ih (step i (by simp) h) fun j hj => step j (List.mem_cons_of_mem _ hj)

theorem apart_of_first {c : Char} {cs : Text} (hc : endsName c = true ∧ c ∉ lengthening) :
    Text.Apart (c :: cs) := fun x hx => by
  obtain rfl : c = x := by simpa using hx
  exact hc

theorem Legible.signed (h : Legible ws) {w : Word} (hw : Legible [w])
    (hapart : Text.Apart w.text) : Legible (ws ++ [w]) :=
  h.append hw (by simpa using hapart)

theorem Legible.colon (h : Legible ws) : Legible (ws ++ [.colon]) :=
  h.signed (.operator (by decide) (by decide)) (apart_of_first (by decide))

theorem Legible.comma (h : Legible ws) : Legible (ws ++ [.comma]) :=
  h.signed (.operator (by decide) (by decide)) (apart_of_first (by decide))

theorem Legible.commaWords {vss : List (List Word)} (h : Legible ws)
    (hvss : ∀ vs ∈ vss, Legible vs) : Legible (commaWords ws vss) :=
  h.extend fun vs hvs us hus => by simpa using hus.comma.spaced (hvss vs hvs)

/-- Behind other words, what stands in brackets and begins with names. -/
theorem Legible.bracketWords {vss : List (List Word)} (h : Legible ws)
    (hvss : ∀ vs ∈ vss, Legible vs ∧ ∃ (x : Identifier) (us : List Word), vs = x.word :: us) :
    Legible (ws ++ bracketWords vss) := by
  have hbrackets : Legible (SceneGate.bracketWords vss) := by
    cases vss with
    | nil => exact .brackets
    | cons vs vss =>
      obtain ⟨⟨hvs, x, us, rfl⟩, hmore⟩ := List.forall_mem_cons.1 hvss
      have hcommas : Legible (SceneGate.commaWords (x.word :: us) vss) :=
        hvs.commaWords fun vs h => (hmore vs h).1
      have hbracketed := Legible.bracketed (.inl rfl) hcommas fun c hc => by
        refine (Opener.name (l := .primary) x).not_lengthening c ?_
        simpa [SceneGate.commaWords, Identifier.word] using hc
      simpa [SceneGate.bracketWords] using hbracketed
  refine h.append hbrackets ?_
  cases vss <;> exact apart_of_first (by decide)

/-- A name behind a sign with blanks around it. -/
theorem Legible.marked {w : Word} (h : Legible ws) (hw : Legible [w]) (x : Option Identifier) :
    Legible (ws ++ marked [.blank, w, .blank] x) := by
  cases x with
  | none => simpa [SceneGate.marked] using h
  | some x => exact h.spaced (hw.spaced x.legible)

/-- A name behind a colon. -/
theorem Legible.annotated (h : Legible ws) (x : Option Identifier) :
    Legible (ws ++ SceneGate.marked [.colon, .blank] x) := by
  cases x with
  | none => simpa [SceneGate.marked] using h
  | some x => simpa [SceneGate.marked] using h.colon.spaced x.legible

theorem legible_equals : Legible [.equals] := .operator (by decide) (by decide)

theorem Simple.legible (s : Simple) : Legible s.written := by
  have hreturn : Legible [.returnWord] := .keyword (by decide)
  match s with
  | pass => exact .keyword (by decide)
  | returns none => exact hreturn
  | returns (some x) => exact hreturn.spaced x.legible
  | expression x => exact x.legible
  | assign x y others =>
    exact x.legible.extend fun z _ us hus => hus.spaced (legible_equals.spaced z.legible)
  | augment x sign y =>
    have hsign : Legible [sign.word] := .operator sign.known (by decide)
    exact x.legible.spaced (hsign.spaced y.legible)
  | annotate x t y => exact (x.legible.annotated (some t)).marked legible_equals y

theorem Alias.legible (i : Alias) : Legible i.written := by
  have has : Legible [.asWord] := .keyword (by decide)
  exact i.value.legible.marked has i.name

theorem Parameter.legible (p : Parameter) : Legible p.written := by
  have hannotated := p.name.legible.annotated p.annotation
  simpa [written] using hannotated.marked legible_equals p.default

theorem Head.legible (head : Head) : Legible head.written := by
  match head with
  | ifTrue x =>
    have hif : Legible [.ifWord] := .keyword (by decide)
    exact hif.spaced x.legible
  | whileTrue x =>
    have hwhile : Legible [.whileWord] := .keyword (by decide)
    exact hwhile.spaced x.legible
  | forEach x y =>
    have hfor : Legible [.forWord] := .keyword (by decide)
    have hin : Legible [.inWord] := .keyword (by decide)
    exact hfor.spaced (x.legible.spaced (hin.spaced y.legible))
  | withItems i is =>
    have hwith : Legible [.withWord] := .keyword (by decide)
    refine hwith.spaced (i.legible.commaWords fun vs hvs => ?_)
    obtain ⟨j, -, rfl⟩ := List.mem_map.1 hvs
    exact j.legible
  | tryBody => exact .keyword (by decide)
  | function f ps x =>
    have hdef : Legible [.defWord] := .keyword (by decide)
    have harrow : Legible [.arrow] := .operator (by decide) (by decide)
    have hbrackets : Legible (_ ++ bracketWords (ps.map Parameter.written)) :=
      (hdef.spaced f.legible).bracketWords fun vs hvs => by
        obtain ⟨p, -, rfl⟩ := List.mem_map.1 hvs
        exact ⟨p.legible, p.name, _, rfl⟩
    simpa [written] using hbrackets.marked harrow x
  | classOf c none =>
    have hclass : Legible [.classWord] := .keyword (by decide)
    exact hclass.spaced c.legible
  | classOf c (some xs) =>
    have hclass : Legible [.classWord] := .keyword (by decide)
    refine (hclass.spaced c.legible).bracketWords fun vs hvs => ?_
    obtain ⟨x, -, rfl⟩ := List.mem_map.1 hvs
    exact ⟨x.legible, x, _, rfl⟩

theorem Clause.legible (clause : Clause) : Legible clause.written := by
  match clause with
  | elifTrue x =>
    have helif : Legible [.elifWord] := .keyword (by decide)
    exact helif.spaced x.legible
  | elseCase => exact .keyword (by decide)
  | exceptCase none => exact .keyword (by decide)
  | exceptCase (some i) =>
    have hexcept : Legible [.exceptWord] := .keyword (by decide)
    exact hexcept.spaced i.legible
  | finallyCase => exact .keyword (by decide)

mutual

theorem Stmt.legible : ∀ (s : Stmt) (n : Nat), ∀ l ∈ s.lines n, Legible l.words
  | .simple s, n => by
    rw [Stmt.lines]
    simpa using s.legible
  | .compound head step body clauses, n => by
    rw [Stmt.lines, List.forall_mem_cons, List.forall_mem_append]
    exact ⟨head.legible.colon, body.legible _, clauses.legible n⟩

theorem Suite.legible : ∀ (s : Suite) (n : Nat), ∀ l ∈ s.lines n, Legible l.words
  | .last s, n => by
    rw [Suite.lines]
    exact s.legible n
  | .more s others, n => by
    rw [Suite.lines, List.forall_mem_append]
    exact ⟨s.legible n, others.legible n⟩

theorem Clauses.legible : ∀ {stage : Stage} (c : Clauses stage) (n : Nat),
    ∀ l ∈ c.lines n, Legible l.words
  | _, .none _, n => by
    rw [Clauses.lines]
    simp
  | _, .more clause _ step body others, n => by
    rw [Clauses.lines, List.forall_mem_cons, List.forall_mem_append]
    exact ⟨clause.legible.colon, body.legible _, others.legible n⟩

end

/-- The lines of a program are words that can be told apart. -/
theorem legible_program (p : List Stmt) : ∀ l ∈ programLines p, Legible l.words := by
  intro l hl
  obtain ⟨s, -, hs⟩ := List.mem_flatMap.1 hl
  exact s.legible 0 l hs

end Legibility

end SceneGate
