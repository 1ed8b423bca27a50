/-
Edits that come from left to right. Of spans in the order of their starts, one is taken up
if it lies behind the last one taken up (`spans_ofSpans_ordered`): what came before that
is out of its way. So such edits can be followed along the text (`applyOrKeep_ordered`), and
those of pieces of a text that lie behind one another do not meet (`firstCome_append`).
-/
import SceneGate.Proofs.GroupedSpans
import SceneGate.Proofs.StringCalls

namespace SceneGate

namespace Span

instance (a b : Span) : Decidable (a.Before b) := inferInstanceAs (Decidable (_ ∧ _))

/-- Of spans that come from left to right behind `last`, those that are taken up. -/
def firstCome (last : Option Span) : List Span → List Span
  | [] => []
  | s :: spans =>
    if last.all fun p => p.Before s then s :: firstCome (some s) spans else firstCome last spans

variable {last : Option Span} {spans spans' : List Span}

theorem firstCome_sublist (last : Option Span) (spans : List Span) :
    (firstCome last spans).Sublist spans := by
  induction spans generalizing last with
  | nil => exact .slnil
  | cons s spans ih =>
    rw [firstCome]
    split
    · exact (ih (some s)).cons_cons s
    · exact (ih last).cons s

/-- A span in front of all others makes no difference. -/
theorem firstCome_of_before {p : Span} (h : ∀ s ∈ spans, p.Before s) :
    firstCome (some p) spans = firstCome none spans := by
  cases spans with
  | nil => rfl
  | cons s spans => simp [firstCome, h s (by simp)]

/-- Of spans that lie behind one another, each part is taken up by itself. -/
theorem firstCome_append (h : ∀ a ∈ spans, ∀ b ∈ spans', a.Before b) :
    firstCome none (spans ++ spans') = firstCome none spans ++ firstCome none spans' := by
  have hlast : ∀ last, (∀ p ∈ last, ∀ b ∈ spans', p.Before b) →
      firstCome last (spans ++ spans') = firstCome last spans ++ firstCome none spans' := by
    induction spans with
    | nil =>
      intro last hlast
      cases last with
      | none => rfl
      | some p => exact firstCome_of_before (hlast p rfl)
    | cons s spans ih =>
      obtain ⟨hs, hspans⟩ := List.forall_mem_cons.1 h
      intro last hlast
      rw [List.cons_append, firstCome, firstCome]
      split
      · rw [List.cons_append, ih hspans (some s) fun p hp => Option.mem_some_iff.1 hp ▸ hs]
      · exact ih hspans last hlast
  exact hlast none (by simp)

end Span

namespace Edits

open Span

variable {spans : List Span} {t out : Text}

theorem spans_pushAll_ordered (edits : Edits) (hbefore : edits.spans.Pairwise Before)
    (hsorted : spans.Pairwise fun a b => a.start ≤ b.start)
    (hstart : ∀ e ∈ edits.spans, ∀ s ∈ spans, e.start ≤ s.start) :
    (edits.pushAll spans).spans = edits.spans ++ firstCome edits.spans.getLast? spans := by
  induction spans generalizing edits with
  | nil => simp [pushAll, firstCome]
  | cons s spans ih =>
    obtain ⟨hs, hspans⟩ := List.pairwise_cons.1 hsorted
    -- what was taken up before the last one lies before it
    have hfree : (edits.push s).2 = true ↔
        (edits.spans.getLast?.all fun p => decide (p.Before s)) = true := by
      rw [push_snd]
      rcases edits.spans.eq_nil_or_concat with hnil | ⟨init, p, hp⟩
      · simp [hnil]
      · rw [List.concat_eq_append] at hp
        rw [hp] at hbefore hstart ⊢
        obtain ⟨-, -, hinit⟩ := List.pairwise_append.1 hbefore
        have hp := hstart p (by simp) s (by simp)
        simp only [List.mem_append, List.mem_singleton, List.getLast?_concat, Option.all_some,
          decide_eq_true_eq]
        constructor
        · intro h
          rcases overlaps_eq_false_iff.1 (h p (.inr rfl)) with h | h
          · exact h
          · exact absurd h.2 (Nat.not_lt.2 hp)
        · rintro h e (he | rfl)
          · have hep := hinit e he p (by simp)
            have hes : e.Before s := ⟨Nat.le_trans hep.1 hp, Nat.lt_trans hep.2 h.2⟩
            exact overlaps_of_before hes
          · exact overlaps_of_before h
    have hpush : edits.pushAll (s :: spans) = (edits.push s).1.pushAll spans := rfl
    have hnew := spans_push edits s
    rw [hpush, firstCome]
    split
    · rename_i hall
      rw [if_pos (hfree.2 hall)] at hnew
      rw [ih (edits.push s).1 ?_ hspans ?_, hnew, List.getLast?_concat]
      · simp
      · rw [hnew]
        refine List.pairwise_append.2 ⟨hbefore, List.pairwise_singleton _ _, fun e he b hb => ?_⟩
        rw [List.mem_singleton.1 hb]
        have hover := (push_snd edits s).1 (hfree.2 hall) e he
        rcases overlaps_eq_false_iff.1 hover with h | h
        · exact h
        · exact absurd h.2 (Nat.not_lt.2 (hstart e he s (by simp)))
      · rw [hnew]
        intro e he u hu
        rcases List.mem_append.1 he with he | he
        · exact hstart e he u (by simp [hu])
        · rw [List.mem_singleton.1 he]
          exact hs u hu
    · rename_i hall
      rw [if_neg fun h => hall (hfree.1 h)] at hnew
      rw [ih (edits.push s).1 (hnew ▸ hbefore) hspans, hnew]
      rw [hnew]
      exact fun e he u hu => hstart e he u (by simp [hu])

/-- Of spans that come from left to right, those are taken up that lie behind the last one
taken up. -/
theorem spans_ofSpans_ordered (hsorted : spans.Pairwise fun a b => a.start ≤ b.start) :
    (ofSpans spans).spans = firstCome none spans := by
  have hpush := spans_pushAll_ordered empty .nil hsorted (by simp [empty])
  rwa [empty, List.nil_append] at hpush

/-- What comes out of a text when spans that come from left to right are carried out. -/
theorem applyOrKeep_ordered (hsorted : spans.Pairwise fun a b => a.start ≤ b.start)
    (h : Substituted 0 (firstCome none spans) t out) : (ofSpans spans).applyOrKeep t = out := by
  have hspans := spans_ofSpans_ordered hsorted
  have hbefore : (firstCome none spans).Pairwise Before := by
    refine pairwise_before ?_ (hsorted.sublist (firstCome_sublist none spans))
    rw [← hspans]
    exact (ofSpans spans).apart
  have horder : (ofSpans spans).inOrder = firstCome none spans := by
    refine eq_of_before ?_ (before_inOrder _) hbefore
    rw [← hspans]
    exact perm_inOrder _
  rw [← horder] at h
  rw [applyOrKeep, apply_eq_ok.2 h]

end Edits

/-! ## Edits of calls -/

namespace StringCall

/-- The offset just past the call. -/
def stop (call : StringCall) : Nat := call.start + call.length

/-- Of calls that come from left to right, those that begin behind `offset` and behind each
other. -/
def apart (offset : Nat) : List StringCall → List StringCall
  | [] => []
  | call :: calls =>
    if offset ≤ call.start then call :: apart call.stop calls else apart offset calls

variable {calls : List StringCall} {call : StringCall} {t : Text}

theorem apart_sublist (offset : Nat) (calls : List StringCall) :
    (apart offset calls).Sublist calls := by
  induction calls generalizing offset with
  | nil => exact .slnil
  | cons call calls ih =>
    rw [apart]
    split
    · exact (ih call.stop).cons_cons call
    · exact (ih offset).cons call

/-- The edits of calls that are taken up are those of calls behind each other. -/
theorem firstCome_map {edit : StringCall → Span} (hstart : ∀ c, (edit c).start = c.start)
    (hlength : ∀ c, (edit c).length = c.length) {p : Span} (hp : ∀ c ∈ calls, p.start < c.start)
    (hsorted : calls.Pairwise fun a b => a.start < b.start) :
    Span.firstCome (some p) (calls.map edit) = (apart p.stop calls).map edit := by
  induction calls generalizing p with
  | nil => rfl
  | cons call calls ih =>
    obtain ⟨hpcall, hpcalls⟩ := List.forall_mem_cons.1 hp
    obtain ⟨hcall, hcalls⟩ := List.pairwise_cons.1 hsorted
    have hstop : (edit call).stop = call.stop := by rw [Span.stop, hstart, hlength, stop]
    rw [List.map_cons, Span.firstCome, apart]
    simp only [Option.all_some, Span.Before, hstart, hpcall, and_true, decide_eq_true_eq]
    split
    · rw [List.map_cons, ← hstop, ih (fun c hc => by rw [hstart]; exact hcall c hc) hcalls]
    · exact ih hpcalls hcalls

/-- The call is written in the text where it begins. -/
def LiesIn (call : StringCall) (t : Text) : Prop :=
  ∃ front back, t = front ++ call.source ++ back ∧ front.bytes = call.start

theorem LiesIn.fits (h : call.LiesIn t) {s : Span} (hstart : s.start = call.start)
    (hlength : s.length = call.length) : s.Fits t := by
  obtain ⟨front, back, rfl, hfront⟩ := h
  exact ⟨front, call.source, back, rfl, hfront.trans hstart.symm, hlength.symm⟩

theorem Stands.liesIn {callee : Text} (h : Stands callee none 0 t call) : call.LiesIn t := by
  obtain ⟨front, back, ht, hstart, -⟩ := h.place
  exact ⟨front, back, ht, by rw [hstart, Nat.zero_add]⟩

theorem length_pos (call : StringCall) : 0 < call.length := by
  refine Text.bytes_pos ?_
  simp [source]

/-- Calls behind each other lie one before the other. -/
theorem before_apart (edit : StringCall → Span) (hstart : ∀ c, (edit c).start = c.start)
    (hlength : ∀ c, (edit c).length = c.length) (offset : Nat) (calls : List StringCall) :
    (∀ c ∈ apart offset calls, offset ≤ c.start) ∧
      ((apart offset calls).map edit).Pairwise Span.Before := by
  induction calls generalizing offset with
  | nil => simp [apart]
  | cons call calls ih =>
    rw [apart]
    split
    · rename_i hle
      obtain ⟨hbehind, hpairwise⟩ := ih call.stop
      have hpos := call.length_pos
      refine ⟨List.forall_mem_cons.2 ⟨hle, fun c hc => ?_⟩,
        List.pairwise_cons.2 ⟨fun s hs => ?_, hpairwise⟩⟩
      · have := hbehind c hc
        rw [stop] at this
        omega
      · obtain ⟨c, hc, rfl⟩ := List.mem_map.1 hs
        have := hbehind c hc
        rw [stop] at this
        simp only [Span.Before, Span.stop, hstart, hlength]
        omega
    · exact ih offset

/-- An edit of a call that leaves the call's edges as they are, and the edit of what lies between
them. -/
def Narrows (call : StringCall) (wide narrow : Span) : Prop :=
  ∃ lead inner tail inner', call.source = lead ++ inner ++ tail ∧
    wide = ⟨call.start, call.length, lead ++ inner' ++ tail⟩ ∧
    narrow = ⟨call.start + Text.bytes lead, Text.bytes inner, inner'⟩

/-- Edits of calls may be narrowed. -/
theorem substituted_narrow {wide narrow : StringCall → Span} {pre m out : Text}
    (hnarrow : ∀ c ∈ calls, c.Narrows (wide c) (narrow c)) (hin : ∀ c ∈ calls, c.LiesIn (pre ++ m))
    (h : Substituted pre.bytes (calls.map wide) m out) :
    Substituted pre.bytes (calls.map narrow) m out := by
  induction calls generalizing pre m out with
  | nil => exact h
  | cons call calls ih =>
    obtain ⟨kept, replaced, rest, out', rfl, rfl, hstart, hlength, hrest⟩ := h.of_cons
    obtain ⟨⟨front, back, htext, hfront⟩, hcalls⟩ := List.forall_mem_cons.1 hin
    obtain ⟨⟨lead, inner, tail, inner', hsource, hwide, hspan⟩, hnarrow⟩ :=
      List.forall_mem_cons.1 hnarrow
    rw [hwide] at hstart hlength hrest ⊢
    -- what is replaced is the call
    have hassoc : pre ++ (kept ++ replaced ++ rest) = (pre ++ kept) ++ (replaced ++ rest) := by simp
    rw [hassoc, List.append_assoc front] at htext
    obtain ⟨rfl, hbehind⟩ := Text.append_inj_of_bytes htext (by
      rw [Text.bytes_append, hfront]
      exact hstart)
    obtain ⟨rfl, rfl⟩ := Text.append_inj_of_bytes hbehind hlength
    have hstop : Span.stop ⟨call.start, call.length, lead ++ inner' ++ tail⟩ =
        (pre ++ kept ++ call.source).bytes := by
      rw [Text.bytes_append, hfront]
      rfl
    rw [hstop] at hrest
    have hclean := ih hnarrow (fun c hc => by simpa using hcalls c hc) hrest
    have hlead : pre.bytes + (kept ++ lead).bytes = call.start + lead.bytes := by
      rw [Text.bytes_append, ← Nat.add_assoc, ← Text.bytes_append, hfront]
    have htail : call.start + lead.bytes + inner.bytes + tail.bytes =
        (pre ++ kept ++ call.source).bytes := by
      rw [Text.bytes_append, hfront, hsource]
      simp only [Text.bytes_append]
      omega
    have hbehind : Substituted (call.start + lead.bytes + inner.bytes) (calls.map narrow)
        (tail ++ rest) (tail ++ out') := .behind _ (by rwa [htail])
    have hreplace := Substituted.replace (s := ⟨call.start + lead.bytes, inner.bytes, inner'⟩)
      (kept ++ lead) inner hlead rfl hbehind
    rw [List.map_cons, hspan, hsource]
    simpa using hreplace

end StringCall

end SceneGate
