/-
Positions and offsets. A text is bytes, and its lines are the pieces between the bytes that
are line feeds. The index agrees with that: up to an offset begin as many lines as there are
line feeds in front of it (`countP_startsFrom`), and behind the last of them begins the line
that the offset lies on (`startAt_count`). So a position says how many line feeds and then
how many bytes stand in front of an offset, and leads back to the offset, and the lines that
rules go through begin where those of the index do (`positions_round_trip`).
-/
import Mathlib.Algebra.Order.Ring.Nat
import Mathlib.Data.List.DropRight
import SceneGate.Text.Lines

namespace SceneGate

/-! ## Bytes -/

namespace Text

/-- The bytes of a text in UTF-8. -/
def encode (t : Text) : List UInt8 := t.flatMap String.utf8EncodeChar

/-- The byte of a line feed. -/
def feedByte : UInt8 := 10

/-- How many bytes there are behind the last line feed. -/
def sinceFeed (bs : List UInt8) : Nat := (bs.rtakeWhile (· != feedByte)).length

@[simp] theorem encode_nil : encode [] = [] := rfl

@[simp] theorem encode_cons (c : Char) (t : Text) :
    encode (c :: t) = String.utf8EncodeChar c ++ encode t := rfl

theorem length_encode (t : Text) : t.encode.length = t.bytes := by
  induction t with
  | nil => rfl
  | cons c t ih =>
    rw [encode_cons, List.length_append, String.length_utf8EncodeChar, ih, bytes_cons]

theorem utf8EncodeChar_feed : String.utf8EncodeChar '\n' = [feedByte] := by decide

/-- No other character has the byte of a line feed: those outside ASCII have bytes outside
ASCII only. -/
theorem feedByte_notMem {c : Char} (h : c ≠ '\n') : feedByte ∉ String.utf8EncodeChar c := by
  have hone : c.val.toNat ≠ 10 := fun hc => h (Char.toNat_inj.1 hc)
  have hbyte {n : Nat} (hn : n % 256 ≠ 10) : feedByte ≠ UInt8.ofNat n := by
    intro heq
    have := congrArg UInt8.toNat heq
    rw [UInt8.toNat_ofNat'] at this
    exact hn this.symm
  unfold String.utf8EncodeChar
  dsimp only
  split
  · simp only [List.mem_singleton]
    exact hbyte (by omega)
  split
  · simp only [List.mem_cons, List.not_mem_nil, or_false, not_or]
    exact ⟨hbyte (by omega), hbyte (by omega)⟩
  split
  · simp only [List.mem_cons, List.not_mem_nil, or_false, not_or]
    exact ⟨hbyte (by omega), hbyte (by omega), hbyte (by omega)⟩
  · simp only [List.mem_cons, List.not_mem_nil, or_false, not_or]
    exact ⟨hbyte (by omega), hbyte (by omega), hbyte (by omega), hbyte (by omega)⟩

/-! ## Lines of bytes -/

variable {bs p l : List UInt8} {n : Nat}

/-- What stands in front of a line: nothing, or bytes that end with a line feed. -/
def BeforeLine (p : List UInt8) : Prop := p = [] ∨ p.getLast? = some feedByte

theorem BeforeLine.behind (a : List UInt8) (h : BeforeLine p) :
    BeforeLine (a ++ feedByte :: p) := by
  right
  rcases h with rfl | h
  · rw [List.getLast?_concat]
  · rw [List.getLast?_append, List.getLast?_cons, h]
    rfl

/-- Bytes are divided behind their last line feed. -/
theorem exists_line (bs : List UInt8) :
    ∃ p l, bs = p ++ l ∧ BeforeLine p ∧ feedByte ∉ l ∧ l.length = sinceFeed bs := by
  refine ⟨bs.rdropWhile (· != feedByte), bs.rtakeWhile (· != feedByte),
    List.rdropWhile_append_rtakeWhile.symm, ?_, fun hmem => ?_, rfl⟩
  · rcases Decidable.em (bs.rdropWhile (· != feedByte) = []) with hnil | hne
    · exact .inl hnil
    · have hlast := List.rdropWhile_last_not _ _ hne
      simp only [bne_iff_ne, not_not] at hlast
      exact .inr (by rw [List.getLast?_eq_some_getLast hne, hlast])
  · simpa using List.mem_rtakeWhile_imp hmem

/-- Of the lines of bytes, each stands behind as many line feeds as there are lines in front
of it, and behind these lines with their line feeds. -/
theorem exists_line_of_getElem? (h : (bs.splitOn feedByte)[n]? = some l) :
    ∃ p rest, bs = p ++ l ++ rest ∧ BeforeLine p ∧ feedByte ∉ l ∧ p.count feedByte = n ∧
      p.length = (((bs.splitOn feedByte).take n).map (·.length + 1)).sum := by
  induction hlen : bs.length using Nat.strongRecOn generalizing bs n with
  | ind _ ih =>
  subst hlen
  rcases Decidable.em (feedByte ∈ bs) with hmem | hmem
  · obtain ⟨a, cs, rfl, ha⟩ := List.eq_append_cons_of_mem hmem
    have hsplit : (a ++ feedByte :: cs).splitOn feedByte = a :: cs.splitOn feedByte :=
      List.splitOnP_append_cons_of_forall_mem
        (fun x hx => beq_eq_false_iff_ne.2 fun heq : x = feedByte => ha (heq ▸ hx)) _
        (beq_self_eq_true _) _
    rw [hsplit] at h ⊢
    cases n with
    | zero =>
      obtain rfl : a = l := by simpa using h
      exact ⟨[], feedByte :: cs, by simp, .inl rfl, ha, rfl, rfl⟩
    | succ n =>
      obtain ⟨p, rest, rfl, hp, hl, hcount, hlength⟩ :=
        ih cs.length (by simp only [List.length_append, List.length_cons]; omega) h rfl
      refine ⟨a ++ feedByte :: p, rest, by simp, hp.behind a, hl, ?_, ?_⟩
      · rw [List.count_append, List.count_eq_zero.2 ha, List.count_cons_self, hcount, Nat.zero_add]
      · rw [List.take_succ_cons, List.map_cons, List.sum_cons, ← hlength]
        simp only [List.length_append, List.length_cons]
        omega
  · have hsplit : bs.splitOn feedByte = [bs] :=
      List.splitOnP_eq_singleton fun x hx => beq_eq_false_iff_ne.2 fun heq => hmem (heq ▸ hx)
    rw [hsplit] at h ⊢
    obtain ⟨rfl, rfl⟩ : n = 0 ∧ bs = l := by
      cases n with
      | zero => exact ⟨rfl, by simpa using h⟩
      | succ n => simp at h
    exact ⟨[], [], by simp, .inl rfl, hmem, rfl, rfl⟩

/-- There is one line more than there are line feeds. -/
theorem length_splitOn (bs : List UInt8) :
    (bs.splitOn feedByte).length = bs.count feedByte + 1 := by
  induction bs with
  | nil => rfl
  | cons b bs ih =>
    rw [List.splitOn, List.splitOnP_cons_eq_if_modifyHead]
    rw [List.splitOn] at ih
    split
    · rename_i hb
      rw [List.length_cons, ih, beq_iff_eq.1 hb, List.count_cons_self]
    · rename_i hb
      rw [List.length_modifyHead, ih, List.count_cons_of_ne fun heq => hb (beq_iff_eq.2 heq)]

end Text

/-! ## The index -/

/-- Positions are in the order of their lines, and on a line in that of their columns. -/
instance : LE Position := ⟨fun p q => p.line < q.line ∨ p.line = q.line ∧ p.column ≤ q.column⟩

namespace LineIndex

open Text

variable {t : Text} {offset n : Nat} {p l rest : List UInt8}

theorem lt_of_mem_startsFrom {s : Nat} (h : s ∈ startsFrom offset t) : offset < s := by
  induction t generalizing offset with
  | nil => cases h
  | cons c t ih =>
    have hpos := c.utf8Size_pos
    rw [startsFrom] at h
    split at h
    · rcases List.mem_cons.1 h with rfl | h
      · omega
      · have := ih h
        omega
    · have := ih h
      omega

theorem length_startsFrom (offset : Nat) (t : Text) :
    (startsFrom offset t).length = t.encode.count feedByte := by
  induction t generalizing offset with
  | nil => rfl
  | cons c t ih =>
    rw [startsFrom, encode_cons, List.count_append]
    split
    · rename_i hc
      rw [hc, utf8EncodeChar_feed, List.length_cons, ih, List.count_singleton_self, Nat.add_comm]
    · rename_i hc
      rw [ih, List.count_eq_zero.2 (feedByte_notMem hc), Nat.zero_add]

/-- Up to an offset begin as many lines as there are line feeds in front of it. -/
theorem countP_startsFrom (offset n : Nat) (t : Text) :
    (startsFrom offset t).countP (· ≤ offset + n) = (t.encode.take n).count feedByte := by
  induction t generalizing offset n with
  | nil => simp [startsFrom]
  | cons c t ih =>
    have hnone (o : Nat) (ho : offset + n ≤ o) : (startsFrom o t).countP (· ≤ offset + n) = 0 := by
      refine List.countP_eq_zero.2 fun s hs => ?_
      have := lt_of_mem_startsFrom hs
      simp only [decide_eq_true_eq]
      omega
    rw [startsFrom, encode_cons, List.take_append, List.count_append]
    split
    · rename_i hc
      subst hc
      have hsize : '\n'.utf8Size = 1 := rfl
      rw [utf8EncodeChar_feed, hsize]
      cases n with
      | zero =>
        rw [List.countP_cons_of_neg (by simp), hnone _ (by omega)]
        rfl
      | succ n =>
        have hrest : offset + (n + 1) = offset + 1 + n := by omega
        rw [hrest, List.countP_cons_of_pos (by simp), ih]
        simp [Nat.add_comm]
    · rename_i hc
      have hfront : (List.take n (String.utf8EncodeChar c)).count feedByte = 0 :=
        List.count_eq_zero.2 fun hmem => feedByte_notMem hc (List.mem_of_mem_take hmem)
      rw [hfront, Nat.zero_add, String.length_utf8EncodeChar]
      rcases Nat.le_total n c.utf8Size with hle | hle
      · rw [hnone _ (by omega), Nat.sub_eq_zero_of_le hle, List.take_zero, List.count_nil]
      · obtain ⟨m, rfl⟩ := Nat.exists_eq_add_of_le hle
        rw [Nat.add_sub_cancel_left, ← Nat.add_assoc, ih]

/-- Behind a line feed begins a line. -/
theorem getElem?_startsFrom (offset : Nat) (h : t.encode = p ++ feedByte :: rest) :
    (startsFrom offset t)[p.count feedByte]? = some (offset + p.length + 1) := by
  induction t generalizing offset p with
  | nil => simp at h
  | cons c t ih =>
    rw [encode_cons] at h
    rw [startsFrom]
    split
    · rename_i hc
      subst hc
      rw [utf8EncodeChar_feed] at h
      cases p with
      | nil => rfl
      | cons b p =>
        obtain ⟨rfl, hrest⟩ : feedByte = b ∧ encode t = p ++ feedByte :: rest := List.cons.inj h
        rw [List.count_cons_self, List.getElem?_cons_succ, ih _ hrest]
        have hsize : '\n'.utf8Size = 1 := rfl
        rw [hsize, List.length_cons]
        exact congrArg some (by omega)
    · rename_i hc
      -- the line feed stands behind the bytes of the character
      obtain ⟨m, rfl, hm⟩ : ∃ m, p = String.utf8EncodeChar c ++ m ∧
          encode t = m ++ feedByte :: rest := by
        rcases List.append_eq_append_iff.1 h with ⟨m, hp, hm⟩ | ⟨m, hc', hm⟩
        · exact ⟨m, hp, hm⟩
        · cases m with
          | nil => exact ⟨[], by simpa using hc'.symm, by simpa using hm.symm⟩
          | cons b m =>
            obtain ⟨rfl, -⟩ := List.cons.inj hm
            exact absurd (hc' ▸ by simp) (feedByte_notMem hc)
      rw [List.count_append, List.count_eq_zero.2 (feedByte_notMem hc), Nat.zero_add, ih _ hm,
        List.length_append, String.length_utf8EncodeChar]
      exact congrArg some (by omega)

/-- A line begins where the bytes in front of it end. -/
theorem startAt_count (h : t.encode = p ++ rest) (hp : BeforeLine p) :
    (ofText t).startAt (p.count feedByte) = p.length := by
  rcases hp with rfl | hp
  · rfl
  · obtain ⟨p, rfl⟩ := List.getLast?_eq_some_iff.1 hp
    have hsplit : t.encode = p ++ feedByte :: rest := by simpa using h
    have hstart := getElem?_startsFrom 0 hsplit
    rw [Nat.zero_add] at hstart
    simp [startAt, ofText, hstart]

theorem later_eq (t : Text) : (ofText t).later = startsFrom 0 t := rfl

theorem count_le_later (h : t.encode = p ++ rest) :
    p.count feedByte ≤ (ofText t).later.length := by
  rw [later_eq, length_startsFrom, h, List.count_append]
  exact Nat.le_add_right ..

/-- The position of an offset: the line feeds in front of its line, and the bytes of the line
in front of it. -/
theorem position_eq (h : t.encode = p ++ l ++ rest) (hp : BeforeLine p) (hl : feedByte ∉ l) :
    (ofText t).position (p ++ l).length = ⟨p.count feedByte + 1, l.length⟩ := by
  have hle : (p ++ l).length ≤ t.bytes := by
    rw [← length_encode, h]
    exact (List.prefix_append _ _).length_le
  have hcount : (ofText t).later.countP (· ≤ (p ++ l).length) = p.count feedByte := by
    have := countP_startsFrom 0 (p ++ l).length t
    rw [Nat.zero_add, h, List.take_left, List.count_append, List.count_eq_zero.2 hl] at this
    exact this
  have hsize : min (p ++ l).length (ofText t).size = (p ++ l).length := Nat.min_eq_left hle
  have hfront : t.encode = p ++ (l ++ rest) := by rw [h, List.append_assoc]
  rw [position, hsize, hcount, startAt_count hfront hp, List.length_append,
    Nat.add_sub_cancel_left]

/-- The offset of a position on a line. -/
theorem offset_eq (h : t.encode = p ++ rest) (hp : BeforeLine p) (column : Nat) :
    (ofText t).offset ⟨p.count feedByte + 1, column⟩ = p.length + column := by
  have hle := count_le_later h
  have hmax : max (p.count feedByte + 1) 1 - 1 = p.count feedByte := by omega
  rw [offset, lineStart, hmax, Nat.min_eq_left hle, startAt_count h hp]

/-! ## From offsets to positions and back -/

/-- The position of an offset counts the line feeds in front of it, and the bytes since the
last of them. -/
theorem position_of_le {o : Nat} (h : o ≤ t.bytes) :
    (ofText t).position o =
        ⟨1 + ((encode t).take o).count feedByte, sinceFeed ((encode t).take o)⟩ ∧
      (ofText t).offset ((ofText t).position o) = o := by
  obtain ⟨p, l, hbs, hp, hl, hlength⟩ := exists_line ((encode t).take o)
  have hsplit : encode t = p ++ l ++ (encode t).drop o := by rw [← hbs, List.take_append_drop]
  have ho : (p ++ l).length = o := by
    rw [← hbs, List.length_take_of_le (by rwa [length_encode])]
  have hposition := position_eq hsplit hp hl
  have hfront : encode t = p ++ (l ++ (encode t).drop o) := by rwa [List.append_assoc] at hsplit
  have hoffset := offset_eq hfront hp l.length
  rw [ho] at hposition
  refine ⟨?_, ?_⟩
  · rw [hposition, ← hlength, hbs, List.count_append, List.count_eq_zero.2 hl, Nat.add_comm,
      Nat.add_zero]
  · rw [hposition, hoffset, ← List.length_append, ho]

/-- A column on a line is found again. -/
theorem position_offset {column : Nat} (h : ((encode t).splitOn feedByte)[n]? = some l)
    (hcolumn : column ≤ l.length) :
    (ofText t).offset ⟨n + 1, column⟩ =
        ((((encode t).splitOn feedByte).take n).map (·.length + 1)).sum + column ∧
      (ofText t).position ((ofText t).offset ⟨n + 1, column⟩) = ⟨n + 1, column⟩ := by
  obtain ⟨p, rest, hbs, hp, hl, rfl, hlength⟩ := exists_line_of_getElem? h
  have htake : (l.take column).length = column := List.length_take_of_le hcolumn
  have hsplit : encode t = p ++ l.take column ++ (l.drop column ++ rest) := by
    rw [List.append_assoc, ← List.append_assoc (l.take column), List.take_append_drop, hbs,
      List.append_assoc]
  have hposition := position_eq hsplit hp fun hmem => hl (List.mem_of_mem_take hmem)
  have hfront : encode t = p ++ (l ++ rest) := by rw [hbs, List.append_assoc]
  have hoffset := offset_eq hfront hp column
  rw [List.length_append, htake] at hposition
  exact ⟨by rw [hoffset, hlength], by rw [hoffset, hposition]⟩

theorem position_of_ge {o : Nat} (h : t.bytes ≤ o) :
    (ofText t).position o = (ofText t).position t.bytes := by
  have hsize : (ofText t).size = t.bytes := rfl
  rw [position, position, hsize, Nat.min_eq_right h, Nat.min_self]

theorem position_mono_of_le {o o' : Nat} (h : o ≤ o') (ho : o' ≤ t.bytes) :
    (ofText t).position o ≤ (ofText t).position o' := by
  obtain ⟨hposition, hback⟩ := position_of_le (Nat.le_trans h ho)
  obtain ⟨hposition', hback'⟩ := position_of_le ho
  have hcount : ((encode t).take o).count feedByte ≤ ((encode t).take o').count feedByte :=
    (List.take_prefix_take_left h).sublist.count_le _
  rcases Nat.lt_or_eq_of_le hcount with hlt | heq
  · left
    rw [hposition, hposition']
    exact Nat.add_lt_add_left hlt 1
  · -- on one line the columns differ as the offsets do
    right
    have hline : ((ofText t).position o).line = ((ofText t).position o').line := by
      rw [hposition, hposition', heq]
    refine ⟨hline, ?_⟩
    rw [offset, hline] at hback
    rw [offset] at hback'
    omega

theorem position_mono {o o' : Nat} (h : o ≤ o') :
    (ofText t).position o ≤ (ofText t).position o' := by
  rcases Nat.le_total o' t.bytes with ho | ho
  · exact position_mono_of_le h ho
  · rw [position_of_ge ho]
    rcases Nat.le_total o t.bytes with ho' | ho'
    · exact position_mono_of_le ho' (Nat.le_refl _)
    · rw [position_of_ge ho']
      exact .inr ⟨rfl, Nat.le_refl _⟩

/-! ## The lines that rules go through -/

/-- Lines begin where those of the index do; a last line that is empty is none of them. -/
theorem map_start_linesFrom (start : Nat) (t : Text) :
    (linesFrom start t.splitLines).map (·.start) ++
        (if t = [] ∨ t.getLast? = some '\n' then [start + t.bytes] else []) =
      start :: startsFrom start t := by
  induction t generalizing start with
  | nil => rfl
  | cons c t ih =>
    rw [splitLines, startsFrom]
    split
    · rename_i hc
      subst hc
      have hlast : (('\n' :: t : Text) = [] ∨ ('\n' :: t).getLast? = some '\n') ↔
          (t = [] ∨ t.getLast? = some '\n') := by
        cases t <;> simp
      have hbytes : start + bytes ('\n' :: t) = start + bytes ['\n'] + bytes t := by
        simp [Nat.add_assoc]
      have hrest := ih (start + bytes ['\n'])
      rw [linesFrom, List.map_cons, List.cons_append, if_congr hlast rfl rfl, hbytes]
      exact congrArg (start :: ·) hrest
    · rename_i hc
      cases t with
      | nil => simp [splitLines, linesFrom, startsFrom, hc]
      | cons d t =>
        have hlast : ((c :: d :: t : Text) = [] ∨ (c :: d :: t).getLast? = some '\n') ↔
            ((d :: t : Text) = [] ∨ (d :: t).getLast? = some '\n') := by
          simp
        have hrest := ih (start + c.utf8Size)
        rw [if_congr hlast rfl rfl, bytes_cons, ← Nat.add_assoc]
        cases hlines : splitLines (d :: t) with
        | nil =>
          have := flatten_splitLines (d :: t)
          rw [hlines] at this
          cases this
        | cons line ls =>
          rw [hlines, linesFrom, List.map_cons, List.cons_append] at hrest
          rw [linesFrom, List.map_cons, List.cons_append, bytes_cons, ← Nat.add_assoc]
          exact congrArg (start :: ·) (List.cons.inj hrest).2

/-- Where the lines of the index begin. -/
theorem map_lineStart (t : Text) :
    (List.range (ofText t).lineCount).map (fun n => (ofText t).lineStart (n + 1)) =
      0 :: startsFrom 0 t := by
  refine List.ext_getElem (by simp [lineCount, later_eq]) fun n hn hn' => ?_
  have hle : n ≤ (ofText t).later.length := Nat.le_of_lt_succ hn'
  have hmax : max (n + 1) 1 - 1 = n := by omega
  rw [List.getElem_map, List.getElem_range, lineStart, hmax, Nat.min_eq_left hle, startAt, later_eq,
    List.getD_eq_getElem?_getD, List.getElem?_eq_getElem hn', Option.getD_some]

/-- Positions and offsets are the same thing. The position of an offset says how many line
feeds stand in front of it and how many bytes have come since, and leads back to it; that of
an offset behind the end is that of the end. A column that does not lie behind the end of its
line is found again at its offset, which is as many bytes as the lines in front of it have,
each with its line feed, and the column. A later offset has no earlier position. There is one
line more than there are line feeds; a line behind the last reads as the last, and line 0 as
line 1. Rules go through the same lines, less a last one that is empty. -/
theorem positions_round_trip (t : Text) :
    (∀ o ≤ t.bytes,
      (ofText t).position o =
          ⟨1 + ((encode t).take o).count feedByte, sinceFeed ((encode t).take o)⟩ ∧
        (ofText t).offset ((ofText t).position o) = o) ∧
    (∀ n line column, ((encode t).splitOn feedByte)[n]? = some line → column ≤ line.length →
      (ofText t).offset ⟨n + 1, column⟩ =
          ((((encode t).splitOn feedByte).take n).map (·.length + 1)).sum + column ∧
        (ofText t).position ((ofText t).offset ⟨n + 1, column⟩) = ⟨n + 1, column⟩) ∧
    (∀ o o', o ≤ o' → (ofText t).position o ≤ (ofText t).position o') ∧
    (∀ o, t.bytes ≤ o → (ofText t).position o = (ofText t).position t.bytes) ∧
    (ofText t).lineCount = ((encode t).splitOn feedByte).length ∧
    (∀ line column, (ofText t).lineCount ≤ line →
      (ofText t).offset ⟨line, column⟩ = (ofText t).offset ⟨(ofText t).lineCount, column⟩) ∧
    (∀ column, (ofText t).offset ⟨0, column⟩ = (ofText t).offset ⟨1, column⟩) ∧
    t.lines.map (·.start) ++
        (if t = [] ∨ t.getLast? = some '\n' then [t.bytes] else []) =
      (List.range (ofText t).lineCount).map fun n => (ofText t).lineStart (n + 1) := by
  refine ⟨fun o => position_of_le, fun n line column h => position_offset h,
    fun o o' => position_mono, fun o => position_of_ge, ?_, fun line column h => ?_,
    fun column => rfl, ?_⟩
  · rw [length_splitOn, lineCount, later_eq, length_startsFrom]
  · have hlast : min (max line 1 - 1) (ofText t).later.length =
        min (max (ofText t).lineCount 1 - 1) (ofText t).later.length := by
      rw [lineCount] at h ⊢
      omega
    rw [offset, offset, lineStart, lineStart, hlast]
  · rw [map_lineStart, ← map_start_linesFrom, Nat.zero_add]
    rfl

/-- Three lines, the first with a letter of two bytes and a carriage return, and an empty one
behind them. -/
def accentedLines : Text := "đ = 1\r\n\nb = 2\n".toList

theorem positions_round_trip_accented :
    (9 ≤ accentedLines.bytes ∧ (ofText accentedLines).position 9 = ⟨3, 0⟩ ∧
        (ofText accentedLines).offset ((ofText accentedLines).position 9) = 9) ∧
      (((encode accentedLines).splitOn feedByte)[2]? = some [98, 32, 61, 32, 50] ∧
        5 ≤ [98, 32, 61, 32, 50].length ∧
        (ofText accentedLines).position ((ofText accentedLines).offset ⟨3, 5⟩) = ⟨3, 5⟩) ∧
      (ofText accentedLines).position 1 ≤ (ofText accentedLines).position 9 ∧
      (ofText accentedLines).position 99 = (ofText accentedLines).position accentedLines.bytes ∧
      (ofText accentedLines).offset ⟨7, 0⟩ =
        (ofText accentedLines).offset ⟨(ofText accentedLines).lineCount, 0⟩ := by
  obtain ⟨hback, hfound, hmono, hclamp, -, hlast, -⟩ := positions_round_trip accentedLines
  obtain ⟨hposition, hoffset⟩ := hback 9 (by decide)
  have hthird : ((encode accentedLines).splitOn feedByte)[2]? = some [98, 32, 61, 32, 50] := by
    decide +kernel
  refine ⟨⟨by decide, hposition.trans (by decide +kernel), hoffset⟩,
    ⟨hthird, by decide, (hfound 2 _ 5 hthird (by decide)).2⟩, hmono 1 9 (by decide), ?_, ?_⟩
  · exact hclamp 99 (by decide)
  · exact hlast 7 0 (by decide)

end LineIndex

end SceneGate
