import Mathlib.Data.List.DropRight
import Mathlib.Data.String.Basic
import SchemaScript.Text.Position

/-!
# What is shown of a position

A message shows where it comes from by a column and an excerpt of the line. Offsets count bytes,
columns and excerpts count characters.

* `slice_append`, `slice_zero_append` — what is cut out behind a piece of text, and from its start.
* `OnBoundary` — an offset that falls into no character.
* `Surroundings`, `Surroundings.Of` — a text taken apart around an offset: the lines above, the two
  parts of its own line, and the lines below.
* `OnBoundary.exists_surroundings`, `Surroundings.Of.unique` — there is one way to do so.
* `Surroundings.Of.lineStart`, `excerptStart`, `excerptStop` — where the line and the excerpt are
  cut out: at the bytes that the characters in front of them take.
* `excerptAt_window` — the column and the excerpt of an offset, in terms of its line.
-/

set_option autoImplicit false

namespace SchemaScript.Text

/-! ## Bytes and characters -/

theorem byteLength_ofList (cs : List Char) : byteLength cs = (String.ofList cs).utf8ByteSize := by
  induction cs with
  | nil => rfl
  | cons c cs ih =>
    rw [byteLength_cons, ih, String.ofList_cons, String.utf8ByteSize_append,
      String.utf8ByteSize_singleton]

theorem byteLength_toList (s : String) : byteLength s.toList = s.utf8ByteSize := by
  rw [byteLength_ofList, String.ofList_toList]

theorem byteLength_newline : byteLength ['\n'] = 1 := rfl

theorem byteLength_take_le (n : Nat) (cs : List Char) : byteLength (cs.take n) ≤ byteLength cs := by
  conv_rhs => rw [← List.take_append_drop n cs, byteLength_append]
  exact Nat.le_add_right _ _

theorem slice_self (text : String) (start : Nat) : slice text start start = "" :=
  if_pos (Nat.le_refl _)

/-- From the start on, a text is read up to the offset where the slice stops. -/
theorem slice_zero (text : String) (stop : Nat) : slice text 0 stop =
    String.ofList (String.Pos.Raw.extract.go₂ text.toList 0 ⟨stop⟩) := by
  cases stop with
  | zero =>
    rw [slice_self]
    cases text.toList <;> rfl
  | succ stop =>
    rw [slice, String.Pos.Raw.extract, if_neg (by simp)]
    cases text.toList <;> rfl

/-- Offsets behind a piece of text cut what follows the piece. -/
theorem slice_append (a b : String) (start stop : Nat) :
    slice (a ++ b) (byteLength a.toList + start) (byteLength a.toList + stop) = slice b start stop := by
  have hlist : ∀ cs : List Char, slice (String.ofList (cs ++ b.toList)) (byteLength cs + start)
      (byteLength cs + stop) = slice (String.ofList b.toList) start stop := by
    intro cs
    induction cs with
    | nil => simp
    | cons c cs ih =>
      have hstep := String.extract_cons_addChar c (cs ++ b.toList) ⟨byteLength cs + start⟩
        ⟨byteLength cs + stop⟩
      rw [← ih, slice, slice, ← hstep]
      simp only [byteLength_cons, String.Pos.Raw.add_char_eq, List.cons_append, Nat.add_comm,
        Nat.add_left_comm]
  simpa using hlist a.toList

/-- A slice from the start of a piece of text to behind it holds the piece. -/
theorem slice_zero_append (a b : String) (stop : Nat) :
    slice (a ++ b) 0 (byteLength a.toList + stop) = a ++ slice b 0 stop := by
  have hlist : ∀ cs : List Char, ∀ n, String.Pos.Raw.extract.go₂ (cs ++ b.toList) ⟨n⟩
      ⟨byteLength cs + stop + n⟩ = cs ++ String.Pos.Raw.extract.go₂ b.toList 0 ⟨stop⟩ := by
    intro cs
    induction cs with
    | nil =>
      intro n
      simpa using String.Pos.Raw.extract.go₂_add_right_cancel b.toList 0 stop n
    | cons c cs ih =>
      intro n
      have hpos := c.utf8Size_pos
      have hne : (⟨n⟩ : String.Pos.Raw) ≠ ⟨byteLength (c :: cs) + stop + n⟩ := by
        rw [ne_eq, String.Pos.Raw.mk.injEq, byteLength_cons]
        omega
      have hstop : byteLength (c :: cs) + stop + n = byteLength cs + stop + (n + c.utf8Size) := by
        rw [byteLength_cons]
        omega
      rw [List.cons_append, String.Pos.Raw.extract.go₂, if_neg hne, hstop,
        String.Pos.Raw.add_char_eq, ih, List.cons_append]
  have hread := hlist a.toList 0
  rw [slice_zero, slice_zero, String.toList_append]
  exact (congrArg String.ofList hread).trans (by rw [String.ofList_append, String.ofList_toList])

/-- A part of a text is cut out between the bytes in front of it and those up to its end. -/
theorem slice_eq {text : String} {left part right : List Char}
    (htext : text.toList = left ++ part ++ right) :
    slice text (byteLength left) (byteLength (left ++ part)) = String.ofList part := by
  have hsplit : text = String.ofList left ++ (String.ofList part ++ String.ofList right) := by
    rw [← String.ofList_append, ← String.ofList_append, ← List.append_assoc, ← htext,
      String.ofList_toList]
  have hbehind := slice_append (String.ofList left) (String.ofList part ++ String.ofList right) 0
    (byteLength part + 0)
  have hpart := slice_zero_append (String.ofList part) (String.ofList right) 0
  rw [String.toList_ofList] at hbehind hpart
  rw [hsplit, byteLength_append]
  exact hbehind.trans (hpart.trans (by rw [slice_self, String.append_empty]))

/-! ## Offsets of characters -/

theorem charOffsets_append (n : Nat) (a b : List Char) :
    charOffsets n (a ++ b) = charOffsets n a ++ charOffsets (n + byteLength a) b := by
  induction a generalizing n with
  | nil => rfl
  | cons c cs ih =>
    rw [List.cons_append, charOffsets, charOffsets, ih, byteLength_cons, List.cons_append,
      Nat.add_assoc]

theorem map_charOffsets (n : Nat) (cs : List Char) : (charOffsets n cs).map (·.2) = cs := by
  induction cs generalizing n with
  | nil => rfl
  | cons c cs ih => rw [charOffsets, List.map_cons, ih]

theorem length_charOffsets (n : Nat) (cs : List Char) : (charOffsets n cs).length = cs.length := by
  rw [← List.length_map (·.2), map_charOffsets]

/-- The characters of a piece of text have no newline among them if the piece has none. -/
theorem ne_newline_of_mem_charOffsets {n : Nat} {cs : List Char} (hcs : '\n' ∉ cs) {x : Nat × Char}
    (hx : x ∈ charOffsets n cs) : x.2 ≠ '\n' := by
  intro hnewline
  refine hcs ?_
  rw [← map_charOffsets n cs, ← hnewline]
  exact List.mem_map_of_mem hx

theorem drop_charOffsets (n k : Nat) (cs : List Char) :
    (charOffsets n cs).drop k = charOffsets (n + byteLength (cs.take k)) (cs.drop k) := by
  rcases Nat.le_total k cs.length with hle | hge
  · have hlength : (charOffsets n (cs.take k)).length = k := by
      rw [length_charOffsets, List.length_take, Nat.min_eq_left hle]
    conv_lhs => rw [← List.take_append_drop k cs, charOffsets_append]
    exact List.drop_left' hlength
  · rw [List.drop_eq_nil_of_le hge, List.drop_eq_nil_of_le (by rw [length_charOffsets]; exact hge)]
    rfl

theorem take_charOffsets (n k : Nat) (cs : List Char) :
    (charOffsets n cs).take k = charOffsets n (cs.take k) := by
  induction cs generalizing n k with
  | nil => simp [charOffsets]
  | cons c cs ih =>
    cases k with
    | zero => rfl
    | succ k => rw [charOffsets, List.take_succ_cons, List.take_succ_cons, charOffsets, ih]

/-- An offset that falls into no character: between two of them, at either end, or past the end. -/
def OnBoundary (text : String) (offset : Nat) : Prop :=
  String.Pos.Raw.IsValid text ⟨offset⟩ ∨ text.utf8ByteSize ≤ offset

theorem isValid_byteLength {text : String} {left right : List Char}
    (htext : text.toList = left ++ right) : String.Pos.Raw.IsValid text ⟨byteLength left⟩ := by
  rw [← text.ofList_toList, htext, String.Pos.Raw.isValid_ofList]
  exact ⟨left.length, by rw [List.take_left, byteLength_ofList]⟩

/-- A text has characters in front of a boundary that take as many bytes as the offset says, but no
more than there are. -/
theorem OnBoundary.exists_append {text : String} {offset : Nat} (h : OnBoundary text offset) :
    ∃ left right, text.toList = left ++ right ∧ byteLength left = min offset text.utf8ByteSize := by
  rcases h with hvalid | hpast
  · have hle : offset ≤ text.utf8ByteSize := hvalid.le_utf8ByteSize
    rw [← text.ofList_toList, String.Pos.Raw.isValid_ofList] at hvalid
    obtain ⟨i, hi⟩ := hvalid
    refine ⟨text.toList.take i, text.toList.drop i, (List.take_append_drop i _).symm, ?_⟩
    rw [byteLength_ofList, ← hi, Nat.min_eq_left hle]
  · refine ⟨text.toList, [], (List.append_nil _).symm, ?_⟩
    rw [byteLength_toList, Nat.min_eq_right hpast]

/-- A part of a text is what lies between two boundaries of its bytes. -/
theorem exists_extract {text : String} {left part right : List Char}
    (htext : text.toList = left ++ part ++ right) : ∃ start stop : text.Pos,
      start.offset.byteIdx = byteLength left ∧ stop.offset.byteIdx = byteLength (left ++ part) ∧
      String.extract start stop = String.ofList part := by
  have hstart := isValid_byteLength (htext.trans (List.append_assoc left part right))
  have hstop := isValid_byteLength htext
  refine ⟨⟨_, hstart⟩, ⟨_, hstop⟩, rfl, rfl, ?_⟩
  have hbytes : text.toByteArray = (String.ofList left).toByteArray ++
      ((String.ofList part).toByteArray ++ (String.ofList right).toByteArray) := by
    rw [← String.toByteArray_append, ← String.toByteArray_append, ← String.ofList_append,
      ← String.ofList_append, ← List.append_assoc, ← htext, String.ofList_toList]
  have hsize : byteLength left = (String.ofList left).toByteArray.size := by
    rw [byteLength_ofList, String.size_toByteArray]
  have hpart : byteLength part = (String.ofList part).toByteArray.size := by
    rw [byteLength_ofList, String.size_toByteArray]
  rw [← String.toByteArray_inj, String.toByteArray_extract]
  show text.toByteArray.extract (byteLength left + 0) (byteLength (left ++ part)) = _
  rw [hbytes, byteLength_append, hsize, hpart, ByteArray.extract_append_size_add,
    ByteArray.extract_append_eq_left rfl]

/-! ## Surroundings -/

/-- A text taken apart around a place: the lines above, its line up to the place and from the place
on, and the lines below. -/
structure Surroundings where
  above : List Char
  before : List Char
  after : List Char
  below : List Char
  deriving DecidableEq, Repr

namespace Surroundings

variable (x : Surroundings)

/-- The text in front of the excerpt. -/
def left : List Char := x.above ++ x.before.rdrop contextWidth

/-- The excerpt: what is near the place, on its line. -/
def shown : List Char := x.before.rtake contextWidth ++ x.after.take contextWidth

/-- The text behind the excerpt. -/
def right : List Char := x.after.drop contextWidth ++ x.below

theorem rdrop_append_rtake_before :
    x.before.rdrop contextWidth ++ x.before.rtake contextWidth = x.before :=
  List.take_append_drop _ _

theorem left_append_shown : x.left ++ x.shown = x.above ++ x.before ++ x.after.take contextWidth := by
  conv_rhs => rw [← x.rdrop_append_rtake_before]
  simp only [left, shown, List.append_assoc]

theorem shown_infix : x.shown <:+: x.before ++ x.after := by
  refine ⟨x.before.rdrop contextWidth, x.after.drop contextWidth, ?_⟩
  rw [shown, ← List.append_assoc, x.rdrop_append_rtake_before, List.append_assoc,
    List.take_append_drop]

end Surroundings

/-- The surroundings of a byte offset. Its line lies between two newlines, or the ends of the text.
-/
structure Surroundings.Of (x : Surroundings) (text : String) (offset : Nat) : Prop where
  whole : text.toList = (x.above ++ x.before) ++ (x.after ++ x.below)
  place : byteLength (x.above ++ x.before) = min offset text.utf8ByteSize
  above_ends : ∀ c ∈ x.above.getLast?, c = '\n'
  below_opens : ∀ c ∈ x.below.head?, c = '\n'
  one_line : '\n' ∉ x.before ++ x.after

/-- The characters from the last newline to the end. -/
def lastLine (before : List Char) : List Char := (before.reverse.takeWhile (· ≠ '\n')).reverse

/-- The characters up to the first newline. -/
def firstLine (rest : List Char) : List Char := rest.takeWhile (· ≠ '\n')

theorem takeWhile_append_of_head? {α : Type} {p : α → Bool} {a b : List α} (ha : ∀ x ∈ a, p x)
    (hb : ∀ x ∈ b.head?, p x = false) : (a ++ b).takeWhile p = a := by
  rw [List.takeWhile_append_of_pos ha]
  cases b with
  | nil => simp
  | cons x xs => simp [hb x rfl]

theorem firstLine_append {after below : List Char} (hafter : '\n' ∉ after)
    (hbelow : ∀ c ∈ below.head?, c = '\n') : firstLine (after ++ below) = after := by
  refine takeWhile_append_of_head? ?_ fun c hc => by simp [hbelow c hc]
  intro c hc
  simpa using fun h : c = '\n' => hafter (h ▸ hc)

theorem lastLine_eq (cs : List Char) : lastLine cs = (firstLine cs.reverse).reverse := rfl

theorem lastLine_append {above before : List Char} (habove : ∀ c ∈ above.getLast?, c = '\n')
    (hbefore : '\n' ∉ before) : lastLine (above ++ before) = before := by
  have hfirst : firstLine (before.reverse ++ above.reverse) = before.reverse :=
    firstLine_append (by simpa using hbefore) (by simpa using habove)
  rw [lastLine_eq, List.reverse_append, hfirst, List.reverse_reverse]

theorem exists_firstLine (cs : List Char) : ∃ below, cs = firstLine cs ++ below ∧
    (∀ c ∈ below.head?, c = '\n') ∧ '\n' ∉ firstLine cs := by
  refine ⟨cs.dropWhile (· ≠ '\n'), List.takeWhile_append_dropWhile.symm, ?_, ?_⟩
  · intro c hc
    have hstop := List.head?_dropWhile_not (· ≠ '\n') cs
    rw [Option.mem_def.mp hc] at hstop
    simpa using hstop
  · intro hmem
    simpa using List.mem_takeWhile_imp hmem

theorem exists_lastLine (cs : List Char) : ∃ above, cs = above ++ lastLine cs ∧
    (∀ c ∈ above.getLast?, c = '\n') ∧ '\n' ∉ lastLine cs := by
  obtain ⟨below, hcs, hbelow, hline⟩ := exists_firstLine cs.reverse
  refine ⟨below.reverse, ?_, by simpa using hbelow, by simpa [lastLine_eq] using hline⟩
  rw [lastLine_eq, ← List.reverse_append, ← hcs, List.reverse_reverse]

theorem exists_surroundings_of_append {text : String} {offset : Nat} {left right : List Char}
    (htext : text.toList = left ++ right) (hplace : byteLength left = min offset text.utf8ByteSize) :
    ∃ x : Surroundings, x.Of text offset ∧ x.before = lastLine left := by
  obtain ⟨above, hleft, habove, hbefore⟩ := exists_lastLine left
  obtain ⟨below, hright, hbelow, hafter⟩ := exists_firstLine right
  refine ⟨⟨above, lastLine left, firstLine right, below⟩, ⟨?_, ?_, habove, hbelow, ?_⟩, rfl⟩
  · rw [← hleft, ← hright, htext]
  · rw [← hleft, hplace]
  · simp [hbefore, hafter]

theorem OnBoundary.exists_surroundings {text : String} {offset : Nat} (h : OnBoundary text offset) :
    ∃ x : Surroundings, x.Of text offset := by
  obtain ⟨left, right, htext, hplace⟩ := h.exists_append
  obtain ⟨x, hx, -⟩ := exists_surroundings_of_append htext hplace
  exact ⟨x, hx⟩

namespace Surroundings.Of

variable {x y : Surroundings} {text : String} {offset : Nat}

theorem newline_not_mem_before (hx : x.Of text offset) : '\n' ∉ x.before :=
  fun h => hx.one_line (List.mem_append_left _ h)

theorem newline_not_mem_after (hx : x.Of text offset) : '\n' ∉ x.after :=
  fun h => hx.one_line (List.mem_append_right _ h)

/-- The text up to the offset. -/
theorem slice_front (hx : x.Of text offset) :
    slice text 0 (min offset text.utf8ByteSize) = String.ofList (x.above ++ x.before) := by
  rw [← hx.place]
  exact @slice_eq text [] _ _ hx.whole

/-- The text from the offset on. -/
theorem slice_rest (hx : x.Of text offset) :
    slice text (min offset text.utf8ByteSize) text.utf8ByteSize =
      String.ofList (x.after ++ x.below) := by
  rw [← hx.place, ← byteLength_toList, hx.whole]
  exact @slice_eq text _ _ [] (hx.whole.trans (List.append_nil _).symm)

theorem lastLine (hx : x.Of text offset) : Text.lastLine (x.above ++ x.before) = x.before :=
  lastLine_append hx.above_ends hx.newline_not_mem_before

theorem firstLine (hx : x.Of text offset) : Text.firstLine (x.after ++ x.below) = x.after :=
  firstLine_append hx.newline_not_mem_after hx.below_opens

/-- An offset has no two surroundings. -/
theorem unique (hx : x.Of text offset) (hy : y.Of text offset) : y = x := by
  have hfront := String.ofList_injective (hy.slice_front.symm.trans hx.slice_front)
  have hrest := String.ofList_injective (hy.slice_rest.symm.trans hx.slice_rest)
  have hbefore : y.before = x.before := by rw [← hy.lastLine, hfront, hx.lastLine]
  have hafter : y.after = x.after := by rw [← hy.firstLine, hrest, hx.firstLine]
  have habove : y.above = x.above := List.append_cancel_right (hbefore ▸ hfront)
  have hbelow : y.below = x.below := List.append_cancel_left (hafter ▸ hrest)
  cases x
  cases y
  simp_all

/-- The line starts behind the lines above. -/
theorem lineStart (hx : x.Of text offset) :
    lineStart text (min offset text.utf8ByteSize) = byteLength x.above := by
  have hline : (charOffsets (0 + byteLength x.above) x.before).reverse.find? (·.2 = '\n') = none := by
    rw [List.find?_eq_none]
    intro c hc
    simpa using ne_newline_of_mem_charOffsets hx.newline_not_mem_before (List.mem_reverse.mp hc)
  rw [Text.lineStart, hx.slice_front, String.toList_ofList, charOffsets_append, List.reverse_append,
    List.find?_append, hline, Option.none_or]
  rcases List.eq_nil_or_concat x.above with habove | ⟨lines, c, habove⟩
  · rw [habove]
    rfl
  · obtain rfl : c = '\n' := hx.above_ends c (by rw [habove]; simp)
    rw [habove, List.concat_eq_append, charOffsets_append, byteLength_append, Nat.zero_add]
    simp [charOffsets, byteLength_newline]

/-- The excerpt starts behind what is left out of the line before the offset. -/
theorem excerptStart (hx : x.Of text offset) :
    excerptStart text (min offset text.utf8ByteSize) = byteLength x.left := by
  have hback : (charOffsets 0 (x.above ++ x.before)).reverse.takeWhile (·.2 ≠ '\n') =
      (charOffsets (byteLength x.above) x.before).reverse := by
    rw [charOffsets_append, List.reverse_append, Nat.zero_add]
    refine takeWhile_append_of_head? ?_ ?_
    · intro c hc
      simpa using ne_newline_of_mem_charOffsets hx.newline_not_mem_before (List.mem_reverse.mp hc)
    · intro c hc
      have hlast : c.2 ∈ x.above.getLast? := by
        rw [← map_charOffsets 0 x.above, List.getLast?_map]
        exact Option.mem_map_of_mem _ (by simpa using hc)
      simp [hx.above_ends _ hlast]
  have hshown : (charOffsets (byteLength x.above) x.before).reverse.take contextWidth =
      (charOffsets (byteLength x.left) (x.before.rtake contextWidth)).reverse := by
    rw [List.take_reverse, length_charOffsets, drop_charOffsets, left, byteLength_append]
    rfl
  simp only [Text.excerptStart, hx.slice_front, String.toList_ofList, hback, hshown,
    List.getLast?_reverse]
  cases hcs : x.before.rtake contextWidth with
  | nil =>
    -- the offset is the start of its line
    have hline := x.rdrop_append_rtake_before
    rw [hcs, List.append_nil] at hline
    rw [left, hline]
    exact hx.place.symm
  | cons c cs => rfl

/-- The excerpt stops behind what is shown of the line from the offset on. -/
theorem excerptStop (hx : x.Of text offset) :
    excerptStop text (min offset text.utf8ByteSize) = byteLength (x.left ++ x.shown) := by
  have hline : (charOffsets 0 (x.after ++ x.below)).takeWhile (·.2 ≠ '\n') =
      charOffsets 0 x.after := by
    rw [charOffsets_append]
    refine takeWhile_append_of_head? ?_ ?_
    · intro c hc
      simpa using ne_newline_of_mem_charOffsets hx.newline_not_mem_after hc
    · intro c hc
      have hfirst : c.2 ∈ x.below.head? := by
        rw [← map_charOffsets (0 + byteLength x.after) x.below, List.head?_map]
        exact Option.mem_map_of_mem _ hc
      simp [hx.below_opens _ hfirst]
  rw [x.left_append_shown, byteLength_append, hx.place]
  simp only [Text.excerptStop, hx.slice_rest, String.toList_ofList, hline, take_charOffsets]
  rcases List.eq_nil_or_concat (x.after.take contextWidth) with hshown | ⟨cs, c, hshown⟩
  · rw [hshown]
    rfl
  · rw [hshown, List.concat_eq_append, charOffsets_append]
    simp [charOffsets, byteLength_cons, Nat.add_assoc]

theorem columnAt (hx : x.Of text offset) : columnAt text offset = x.before.length + 1 := by
  have hline : slice text (byteLength x.above) (byteLength (x.above ++ x.before)) =
      String.ofList x.before := slice_eq hx.whole
  simp only [Text.columnAt]
  rw [hx.lineStart, ← hx.place, hline, String.length_ofList]

/-- The text is what is left of the excerpt, the excerpt, and what is right of it. -/
theorem whole_shown (hx : x.Of text offset) : text.toList = x.left ++ x.shown ++ x.right := by
  have hafter : x.after.take contextWidth ++ x.after.drop contextWidth = x.after :=
    List.take_append_drop _ _
  rw [hx.whole, x.left_append_shown, right, List.append_assoc _ (x.after.take _),
    ← List.append_assoc (x.after.take _), hafter]

theorem toList_excerptAt (hx : x.Of text offset) : (excerptAt text offset).toList = x.shown := by
  simp only [excerptAt]
  rw [hx.excerptStart, hx.excerptStop, slice_eq hx.whole_shown, String.toList_ofList]

/-- The offset lies in the excerpt or at one of its ends. -/
theorem place_mem_excerpt (hx : x.Of text offset) : byteLength x.left ≤ min offset text.utf8ByteSize ∧
    min offset text.utf8ByteSize ≤ byteLength (x.left ++ x.shown) := by
  rw [← hx.place, x.left_append_shown, byteLength_append (x.above ++ x.before), left,
    byteLength_append, byteLength_append]
  exact ⟨Nat.add_le_add_left (byteLength_take_le ..) _, Nat.le_add_right _ _⟩

end Surroundings.Of

/-- The column behind a piece of text counts the characters of its last line. -/
theorem columnAt_byteLength {text : String} {left right : List Char}
    (htext : text.toList = left ++ right) :
    columnAt text (byteLength left) = (lastLine left).length + 1 := by
  have hle : byteLength left ≤ text.utf8ByteSize := by
    rw [← byteLength_toList, htext, byteLength_append]
    exact Nat.le_add_right _ _
  obtain ⟨x, hx, hbefore⟩ := exists_surroundings_of_append htext (Nat.min_eq_left hle).symm
  rw [hx.columnAt, hbefore]

/-! ## Excerpts -/

/-- **The excerpt of an offset is the window of thirty characters to each side of it, inside its
line.** Every offset that falls into no character has one line around it. Its column is one more
than the number of characters of the line before it. Its excerpt is the last thirty of these, or all
if there are fewer, followed by the first thirty characters of the line from it on, or all: a part
of the line of at most sixty characters, without a newline. The bytes at which the line starts and
between which the excerpt is cut out are boundaries of characters, and the offset lies between the
latter. -/
theorem excerptAt_window {text : String} {offset : Nat} (h : OnBoundary text offset) :
    ∃ x : Surroundings, (∀ y : Surroundings, y.Of text offset ↔ y = x) ∧
      columnAt text offset = x.before.length + 1 ∧
      (excerptAt text offset).toList =
        x.before.rtake (min x.before.length 30) ++ x.after.take (min x.after.length 30) ∧
      (excerptAt text offset).toList <:+: x.before ++ x.after ∧
      (excerptAt text offset).length ≤ 60 ∧
      '\n' ∉ (excerptAt text offset).toList ∧
      ∃ line start stop : text.Pos,
        line.offset.byteIdx = lineStart text (min offset text.utf8ByteSize) ∧
        start.offset.byteIdx = excerptStart text (min offset text.utf8ByteSize) ∧
        stop.offset.byteIdx = excerptStop text (min offset text.utf8ByteSize) ∧
        start.offset.byteIdx ≤ min offset text.utf8ByteSize ∧
        min offset text.utf8ByteSize ≤ stop.offset.byteIdx ∧
        excerptAt text offset = String.extract start stop := by
  obtain ⟨x, hx⟩ := h.exists_surroundings
  have hbefore : x.before.rtake (min x.before.length 30) = x.before.rtake 30 := by
    rw [List.rtake, List.rtake]
    congr 1
    omega
  have hafter : x.after.take (min x.after.length 30) = x.after.take 30 := by
    rw [Nat.min_comm, ← List.take_eq_take_min]
  refine ⟨x, fun y => ⟨hx.unique, fun hy => hy ▸ hx⟩, hx.columnAt, ?_, ?_, ?_, ?_, ?_⟩
  · rw [hbefore, hafter]
    exact hx.toList_excerptAt
  · exact hx.toList_excerptAt ▸ x.shown_infix
  · rw [← String.length_toList, hx.toList_excerptAt, Surroundings.shown, List.length_append,
      List.rtake, List.length_drop, List.length_take, contextWidth]
    omega
  · rw [hx.toList_excerptAt]
    exact fun hmem => hx.one_line (x.shown_infix.mem hmem)
  · have hline := isValid_byteLength (hx.whole.trans (List.append_assoc ..))
    obtain ⟨start, stop, hstart, hstop, hextract⟩ := exists_extract hx.whole_shown
    refine ⟨⟨_, hline⟩, start, stop, hx.lineStart.symm, hstart.trans hx.excerptStart.symm,
      hstop.trans hx.excerptStop.symm, ?_, ?_, ?_⟩
    · exact hstart ▸ hx.place_mem_excerpt.1
    · exact hstop ▸ hx.place_mem_excerpt.2
    · rw [hextract, ← hx.toList_excerptAt, String.ofList_toList]

/-- A place behind a character of two bytes, with lines above and below. -/
theorem excerptAt_window_accent :
    let text := "a\nñ = 1\nb"
    OnBoundary text 4 ∧ columnAt text 4 = 2 ∧ excerptAt text 4 = "ñ = 1" := by
  intro text
  have hboundary : OnBoundary text 4 := .inl (by decide +kernel)
  have hof : Surroundings.Of ⟨['a', '\n'], ['ñ'], [' ', '=', ' ', '1'], ['\n', 'b']⟩ text 4 :=
    ⟨by decide, by decide +kernel, by simp, by simp, by decide⟩
  obtain ⟨x, hx, hcolumn, hexcerpt, -⟩ := excerptAt_window hboundary
  obtain rfl := (hx _).mp hof
  exact ⟨hboundary, hcolumn, String.toList_inj.mp hexcerpt⟩

end SchemaScript.Text
