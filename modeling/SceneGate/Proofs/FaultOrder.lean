/-
In which order faults are recorded, and where two of them begin at one offset. A fault is
compared only with the last one on record. That keeps neighbours apart
(`Progress.Course.apart`); a fault that is no neighbour can begin where an earlier one does,
since what is said about the layout or about an opening bracket is recorded out of order
(`repeated_starts`).
-/
import SceneGate.Proofs.FaultPlaces

namespace SceneGate

variable {env : Surroundings} {s s' : Progress} {t : Text} {f g : Fault}

/-- The faults begin at different offsets. -/
def Fault.Apart (f g : Fault) : Prop := f.start ≠ g.start

theorem Fault.Apart.symm (h : f.Apart g) : g.Apart f := Ne.symm h

/-! ## Neighbours -/

namespace Progress

theorem isChain_record (f : Fault) (h : s.faults.IsChain Fault.Apart) :
    (s.record f).faults.IsChain Fault.Apart := by
  unfold record
  split
  · exact h
  · rename_i hhead
    refine List.isChain_cons.2 ⟨fun g hg hstart => hhead ?_, h⟩
    rw [Option.mem_def.1 hg, Option.map_some, hstart]

/-- Neighbours on record begin at different offsets. -/
theorem Course.apart (h : Course env s s') (hs : s.faults.IsChain Fault.Apart) :
    s'.faults.IsChain Fault.Apart := by
  induction h with
  | stay _ hfaults => rwa [hfaults]
  | take s => rwa [faults_take]
  | complain s =>
    rw [complain_eq]
    exact isChain_record _ hs
  | unclosed _ _ _ _ ih => exact isChain_record _ (ih (by rwa [faults_take]))
  | trans _ _ ih₁ ih₂ => exact ih₂ (ih₁ hs)

end Progress

theorem Token.Raw.offset_lt_stop {k : Token} (h : k.Raw) : k.offset < k.stop := by
  obtain ⟨c, cs, htext⟩ := List.exists_cons_of_ne_nil h.text_ne
  have := c.utf8Size_pos
  rw [Token.stop, htext, Text.bytes_cons]
  omega

/-- The faults of the layout go from line to line. -/
theorem pairwise_faults_layout (t : Text) :
    (layout t).faults.Pairwise fun f g => f.start < g.start := by
  obtain ⟨strays, hsublist, hraw, hfaults⟩ := exists_strays t
  rw [hfaults, List.pairwise_map]
  refine ((chained_layout t).apart.sublist hsublist).imp_of_mem fun hk _ hstop => ?_
  exact Nat.lt_of_lt_of_le (hraw _ hk).offset_lt_stop hstop

theorem isChain_faults (t : Text) : (parse t).faults.IsChain Fault.Apart := by
  obtain ⟨s, hcourse, -, hparse⟩ := exists_course t
  have hlayout : (layout t).faults.reverse.Pairwise Fault.Apart :=
    List.pairwise_reverse.2 ((pairwise_faults_layout t).imp fun hlt => (Nat.ne_of_lt hlt).symm)
  have hchain : s.faults.IsChain Fault.Apart := hcourse.apart hlayout.isChain
  rw [hparse, List.isChain_reverse]
  exact hchain.imp fun _ _ => Fault.Apart.symm

/-! ## Further apart -/

theorem Fault.Arises.cause_ne {ahead left : List Lexeme} (h : f.Arises env ahead left) :
    f.cause ≠ .strayIndentation := by
  cases h with
  | complaint hc =>
    rw [cause_atFront]
    rintro rfl
    cases hc
  | unclosed => exact Fault.Cause.noConfusion

/-- Behind a fault that is not about the layout there is none about it, and what follows is in
order. -/
theorem ordered_faults (t : Text) : (parse t).faults.Pairwise fun f g =>
    f.cause = .strayIndentation ∨ g.cause ≠ .strayIndentation ∧ f.Precedes g := by
  obtain ⟨found, hfaults, hordered, harises⟩ := exists_found t
  obtain ⟨strays, -, -, hstrays⟩ := exists_strays t
  have hstray : ∀ f ∈ (layout t).faults, f.cause = .strayIndentation := by
    rw [hstrays]
    simp [Fault.ofToken]
  rw [hfaults]
  refine List.pairwise_append.2 ⟨?_, ?_, fun f hf g _ => .inl (hstray f hf)⟩
  · exact List.pairwise_of_forall_mem_list fun f hf g _ => .inl (hstray f hf)
  · exact hordered.imp_of_mem fun _ hg hprecedes => .inr ⟨(harises _ hg).cause_ne, hprecedes⟩

/-- Between two complaints that begin at one offset something is said about an opening
bracket. For complaints do not go back, so those between would begin there, too, and
neighbours do not. -/
theorem exists_unclosed_between {front between back : List Fault}
    (h : (parse t).faults = front ++ f :: (between ++ g :: back)) (hstart : f.start = g.start)
    (hf : f.cause ≠ .strayIndentation) : ∃ e ∈ between ++ [g], e.cause.isUnclosed = true := by
  have hordered := ordered_faults t
  have hchain := isChain_faults t
  rw [h] at hordered hchain
  have hbehind := (List.pairwise_append.1 hordered).2.1
  have hneighbour := (List.isChain_append.1 hchain).2.1
  obtain ⟨hfirst, hrest⟩ := List.pairwise_cons.1 hbehind
  obtain ⟨-, -, hlast⟩ := List.pairwise_append.1 hrest
  have hfollows : ∀ e ∈ between ++ g :: back, e.cause ≠ .strayIndentation ∧ f.Precedes e :=
    fun e he => (hfirst e he).resolve_left hf
  have hfg := (hfollows g (by simp)).2
  by_contra hnone
  have hcomplaint : ∀ e ∈ between ++ [g], e.cause.isUnclosed = false := fun e he =>
    Bool.eq_false_iff.2 fun hu => hnone ⟨e, he, hu⟩
  have hg := hcomplaint g (by simp)
  have hf' : f.cause.isUnclosed = false := Bool.eq_false_iff.2 fun hu => hfg.unclosed hu hstart
  cases between with
  | nil => exact (List.isChain_cons_cons.1 hneighbour).1 hstart
  | cons e between =>
    have he := hcomplaint e (by simp)
    obtain ⟨hstray, hfe⟩ := hfollows e (by simp)
    obtain ⟨-, heg⟩ := (hlast e (List.mem_cons_self ..) g (List.mem_cons_self ..)).resolve_left hstray
    have hle := hfe.complaints hf' he
    have hle' := heg.complaints he hg
    exact (List.isChain_cons_cons.1 hneighbour).1 (by omega)

/-- Where nothing goes back and neighbours differ, everything goes on. -/
theorem pairwise_lt_of_apart {fs : List Fault} (h : fs.IsChain Fault.Apart)
    (hle : fs.Pairwise fun f g => f.start ≤ g.start) :
    fs.Pairwise fun f g => f.start < g.start := by
  induction fs with
  | nil => exact .nil
  | cons f fs ih =>
    obtain ⟨hfirst, hrest⟩ := List.pairwise_cons.1 hle
    obtain ⟨hnext, htail⟩ := List.isChain_cons.1 h
    refine List.pairwise_cons.2 ⟨fun g hg => ?_, ih htail hrest⟩
    cases fs with
    | nil => cases hg
    | cons e fs =>
      have hlt : f.start < e.start :=
        Nat.lt_of_le_of_ne (hfirst e (List.mem_cons_self ..)) (hnext e rfl)
      rcases List.mem_cons.1 hg with rfl | hg
      · exact hlt
      · exact Nat.lt_of_lt_of_le hlt ((List.pairwise_cons.1 hrest).1 g hg)

/-- Where faults begin at one offset. Neighbours never do, and no opening bracket is
complained of twice. If two others do, the first is a stray indentation, or something was
said of an opening bracket after it, up to the second. Without either, each fault begins
behind the one before. -/
theorem repeated_starts (t : Text) :
    (parse t).faults.IsChain Fault.Apart ∧
    ((parse t).faults.filter (·.cause.isUnclosed)).Pairwise Fault.Apart ∧
    (∀ front f between g back, (parse t).faults = front ++ f :: (between ++ g :: back) →
      f.start = g.start →
        f.cause = .strayIndentation ∨ ∃ e ∈ between ++ [g], e.cause.isUnclosed = true) ∧
    ((∀ f ∈ (parse t).faults, f.cause.isComplaint = true) →
      (parse t).faults.Pairwise fun f g => f.start < g.start) := by
  refine ⟨isChain_faults t, ?_, fun front f between g back h hstart => ?_, fun hall => ?_⟩
  · rw [List.pairwise_filter]
    refine (ordered_faults t).imp fun hordered hf _ => ?_
    rcases hordered with hstray | ⟨-, hprecedes⟩
    · rw [hstray] at hf
      cases hf
    · exact hprecedes.unclosed hf
  · by_cases hf : f.cause = .strayIndentation
    · exact .inl hf
    · exact .inr (exists_unclosed_between h hstart hf)
  · have hle : (parse t).faults.Pairwise fun f g => f.start ≤ g.start := by
      refine (ordered_faults t).imp_of_mem fun {f g} hf hg hordered => ?_
      have hcause {c : Fault.Cause} (hc : c.isComplaint = true) :
          c ≠ .strayIndentation ∧ c.isUnclosed = false := by
        simpa [Fault.Cause.isComplaint] using hc
      obtain ⟨hstray, hf⟩ := hcause (hall f hf)
      exact (hordered.resolve_left hstray).2.complaints hf (hcause (hall g hg)).2
    exact pairwise_lt_of_apart (isChain_faults t) hle

/-- A bracket that nothing closes, in the test of a statement that breaks off. -/
def openTest : Text := "if (
".toList

/-- A bracket that nothing opens, and a line that is indented where no block opens. -/
def closedTwice : Text := "á = )
  b".toList

/-- The end of the text is complained of in the brackets and behind them, and in between the
opening bracket is. Complaints about different things are in order. -/
theorem repeated_starts_openTest :
    ((parse openTest).faults = [] ++ ⟨.invalidSyntax, 5, 5⟩ ::
        ([⟨.neverClosed .rParen, 3, 4⟩] ++ ⟨.expected .colon, 5, 5⟩ :: []) ∧
      ∃ e ∈ [⟨.neverClosed .rParen, 3, 4⟩] ++ [(⟨.expected .colon, 5, 5⟩ : Fault)],
        e.cause.isUnclosed = true) ∧
    ((∀ f ∈ (parse closedTwice).faults, f.cause.isComplaint = true) ∧
      (parse closedTwice).faults.Pairwise fun f g => f.start < g.start) := by
  have hfaults : (parse openTest).faults = [] ++ ⟨.invalidSyntax, 5, 5⟩ ::
      ([⟨.neverClosed .rParen, 3, 4⟩] ++ ⟨.expected .colon, 5, 5⟩ :: []) := by decide +kernel
  have hcomplaints : ∀ f ∈ (parse closedTwice).faults, f.cause.isComplaint = true := by
    decide +kernel
  obtain ⟨-, -, hrepeated, -⟩ := repeated_starts openTest
  obtain ⟨-, -, -, hordered⟩ := repeated_starts closedTwice
  exact ⟨⟨hfaults, (hrepeated _ _ _ _ _ hfaults rfl).resolve_left (by decide)⟩,
    hcomplaints, hordered hcomplaints⟩

/-- So an offset can come twice. -/
theorem starts_not_unique : ¬ ((parse openTest).faults.map Fault.start).Nodup := by
  decide +kernel

end SceneGate
