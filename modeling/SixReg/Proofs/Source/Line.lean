import Mathlib.Data.List.TakeWhile
import SixReg.Source.Position

/-!
# Places and lines

An error names an offset in two ways, and each has a count of its own: the line feeds in front of
the offset are counted for its place, and then a line with that number is quoted from the text.

* Places are in the order of the offsets (`place_lt_place`), so that no two of them are the same.
* The line that is quoted is the one that the offset falls on, from the line feed in front of it to
  the next one (`Line.lineAt_eq`).
* Reading a text line by line gives lines that lack a carriage return at their end, and none behind
  the last line feed (`lines`). Once the blank ends are dropped, this is the same
  (`lineText_eq_lines`).

A text with a line feed in it is two texts, one above the other. Each keeps its places and lines,
but for the number of the line (`lineAt_above`, `lineAt_below`).
-/

namespace SixReg

/-- Places are ordered by line, and on one line by column. -/
instance : LT Place := ⟨fun a b => a.line < b.line ∨ a.line = b.line ∧ a.column < b.column⟩

theorem Place.mk_lt_mk {line column line' column' : Nat} :
    Place.mk line column < ⟨line', column'⟩ ↔ line < line' ∨ line = line' ∧ column < column' :=
  Iff.rfl

theorem Place.lt_irrefl (a : Place) : ¬ a < a := by
  obtain ⟨line, column⟩ := a
  rw [Place.mk_lt_mk]
  omega

/-- The place that stands the given number of lines further down. -/
def Place.down (a : Place) (lines : Nat) : Place := { a with line := a.line + lines }

namespace Source

variable {text front front' : Source}

/-! ## Places -/

theorem place_append (s t : Source) :
    place (s ++ t) (byteLength s) =
      ⟨s.count '\n' + 1, (s.reverse.takeWhile (· != '\n')).length + 1⟩ := by
  rw [place, before, before?_append, Option.getD_some]

theorem takeWhile_reverse_append (s : Source) {t : Source} (h : '\n' ∉ t) :
    (s ++ t).reverse.takeWhile (· != '\n') = t.reverse ++ s.reverse.takeWhile (· != '\n') := by
  rw [List.reverse_append]
  apply List.takeWhile_append_of_pos
  intro c hc
  rw [bne_iff_ne]
  rintro rfl
  exact h (List.mem_reverse.mp hc)

/-- **Further on in a text there are more line feeds in front**, or more characters since the last
of them. -/
theorem place_lt_place (h : front <+: front') (hne : front ≠ front') (h' : front' <+: text) :
    text.place (byteLength front) < text.place (byteLength front') := by
  obtain ⟨d, rfl⟩ := h
  obtain ⟨rest, rfl⟩ := h'
  rw [place_append, List.append_assoc, place_append, Place.mk_lt_mk]
  by_cases hfeed : '\n' ∈ d
  · left
    have hpos : 0 < d.count '\n' := List.count_pos_iff.mpr hfeed
    simp only [List.count_append]
    omega
  · right
    have hd : 0 < d.length := List.length_pos_iff.mpr (by simpa using hne)
    rw [List.count_append, List.count_eq_zero.mpr hfeed, takeWhile_reverse_append _ hfeed,
      List.length_append, List.length_reverse]
    omega

/-- The offset stands between two characters of the text, or at one of its ends. -/
def Boundary (text : Source) (offset : Nat) : Prop :=
  ∃ front, front <+: text ∧ byteLength front = offset

theorem byteLength_pos {text : Source} (h : text ≠ []) : 0 < byteLength text := by
  cases text with
  | nil => exact absurd rfl h
  | cons c cs => exact Nat.add_pos_left c.utf8Size_pos _

theorem byteLength_le (h : front <+: text) : byteLength front ≤ byteLength text := by
  obtain ⟨rest, rfl⟩ := h
  rw [byteLength_append]
  exact Nat.le_add_right _ _

/-- Of two boundaries the earlier one has the earlier place. -/
theorem place_lt_of_boundary {p q : Nat} (hp : text.Boundary p) (hq : text.Boundary q)
    (hpq : p < q) : text.place p < text.place q := by
  obtain ⟨front, hfront, rfl⟩ := hp
  obtain ⟨front', hfront', rfl⟩ := hq
  rcases List.prefix_or_prefix_of_prefix hfront hfront' with h | h
  · apply place_lt_place h _ hfront'
    rintro rfl
    exact Nat.lt_irrefl _ hpq
  · exact absurd (byteLength_le h) (Nat.not_le.mpr hpq)

/-- **A boundary between characters is known by its place.** -/
theorem eq_of_place_eq (h : front <+: text) (h' : front' <+: text)
    (hplace : text.place (byteLength front) = text.place (byteLength front')) : front = front' := by
  by_contra hne
  rcases List.prefix_or_prefix_of_prefix h h' with hor | hor
  · exact Place.lt_irrefl _ (hplace ▸ place_lt_place hor hne h')
  · exact Place.lt_irrefl _ (hplace ▸ place_lt_place hor (Ne.symm hne) h)

/-! ## Lines -/

theorem takeWhile_append_of_neg {q : Char → Bool} {c : Char} (hc : q c = false) (s t : Source) :
    (s ++ c :: t).takeWhile q = s.takeWhile q := by
  induction s with
  | nil => simp [hc]
  | cons d s ih => rw [List.cons_append, List.takeWhile_cons, List.takeWhile_cons, ih]

theorem takeWhile_eq_self (h : '\n' ∉ text) : text.takeWhile (· != '\n') = text := by
  apply List.takeWhile_eq_self_iff.mpr
  intro c hc
  rw [bne_iff_ne]
  rintro rfl
  exact h hc

theorem lineAt_zero (text : Source) : lineAt text 0 = text.takeWhile (· != '\n') := by
  rw [lineAt]

theorem lineAt_feed_succ (text : Source) (n : Nat) :
    lineAt ('\n' :: text) (n + 1) = lineAt text n := by
  rw [lineAt, if_pos rfl]

theorem lineAt_cons_succ {c : Char} (hc : c ≠ '\n') (text : Source) (n : Nat) :
    lineAt (c :: text) (n + 1) = lineAt text (n + 1) := by
  rw [lineAt, if_neg hc]

/-- What stands above a line feed has its lines there. -/
theorem lineAt_above (above below : Source) {n : Nat} (h : n ≤ above.count '\n') :
    lineAt (above ++ '\n' :: below) n = lineAt above n := by
  induction above generalizing n with
  | nil =>
      obtain rfl : n = 0 := Nat.le_zero.mp h
      rfl
  | cons c above ih =>
      cases n with
      | zero => rw [lineAt_zero, lineAt_zero, takeWhile_append_of_neg rfl]
      | succ n =>
          by_cases hc : c = '\n'
          · subst hc
            rw [List.count_cons_self, Nat.add_le_add_iff_right] at h
            rw [List.cons_append, lineAt_feed_succ, lineAt_feed_succ, ih h]
          · rw [List.count_cons_of_ne hc] at h
            rw [List.cons_append, lineAt_cons_succ hc, lineAt_cons_succ hc, ih h]

/-- What stands below a line feed has its lines there, numbered on from those above. -/
theorem lineAt_below (above below : Source) (n : Nat) :
    lineAt (above ++ '\n' :: below) (above.count '\n' + n + 1) = lineAt below n := by
  induction above with
  | nil => rw [List.count_nil, Nat.zero_add, List.nil_append, lineAt_feed_succ]
  | cons c above ih =>
      by_cases hc : c = '\n'
      · subst hc
        rw [List.count_cons_self, Nat.add_right_comm _ 1 n, List.cons_append, lineAt_feed_succ, ih]
      · rw [List.count_cons_of_ne hc, List.cons_append, lineAt_cons_succ hc, ih]

/-- The line stands in the text with all that is above and below it: it holds no line feed, and goes
on to the next one on either side, or to the end of the text. -/
structure Line (text above line below : Source) : Prop where
  text_eq : text = above ++ (line ++ below)
  no_feed : '\n' ∉ line
  above_end : above = [] ∨ ∃ earlier, above = earlier ++ ['\n']
  below_start : below = [] ∨ ∃ later, below = '\n' :: later

/-- Every boundary falls on a line. -/
theorem exists_line (front rest : Source) : ∃ above left right below,
    Line (front ++ rest) above (left ++ right) below ∧ front = above ++ left := by
  obtain ⟨right, below, hrest, hright, hbelow⟩ : ∃ right below, rest = right ++ below ∧
      '\n' ∉ right ∧ (below = [] ∨ ∃ later, below = '\n' :: later) := by
    by_cases h : '\n' ∈ rest
    · obtain ⟨right, later, hrest, hright⟩ := List.eq_append_cons_of_mem h
      exact ⟨right, _, hrest, hright, .inr ⟨later, rfl⟩⟩
    · exact ⟨rest, [], (List.append_nil _).symm, h, .inl rfl⟩
  obtain ⟨above, left, hfront, hleft, habove⟩ : ∃ above left, front = above ++ left ∧
      '\n' ∉ left ∧ (above = [] ∨ ∃ earlier, above = earlier ++ ['\n']) := by
    by_cases h : '\n' ∈ front
    · -- the last line feed is the first one from behind
      obtain ⟨left, earlier, hfront, hleft⟩ := List.eq_append_cons_of_mem (List.mem_reverse.mpr h)
      refine ⟨earlier.reverse ++ ['\n'], left.reverse, ?_, by simpa using hleft, .inr ⟨_, rfl⟩⟩
      rw [← front.reverse_reverse, hfront]
      simp
    · exact ⟨[], front, rfl, h, .inl rfl⟩
  refine ⟨above, left, right, below, ⟨?_, ?_, habove, hbelow⟩, hfront⟩
  · simp [hfront, hrest]
  · simp [hleft, hright]

/-- **A line is found by the number of line feeds above it.** -/
theorem Line.lineAt_eq {above line below : Source} (h : Line text above line below) :
    lineAt text (above.count '\n') = line := by
  have hline : lineAt (above ++ line) (above.count '\n') = line := by
    rcases h.above_end with rfl | ⟨earlier, rfl⟩
    · rw [List.count_nil, List.nil_append, lineAt_zero, takeWhile_eq_self h.no_feed]
    · have hbelow := lineAt_below earlier line 0
      rw [lineAt_zero, takeWhile_eq_self h.no_feed, Nat.add_zero] at hbelow
      simpa using hbelow
  rw [h.text_eq, ← List.append_assoc]
  rcases h.below_start with rfl | ⟨later, rfl⟩
  · rw [List.append_nil, hline]
  · rw [lineAt_above, hline]
    rw [List.count_append]
    exact Nat.le_add_right _ _

/-! ## Reading line by line -/

theorem trim_concat {c : Char} (hc : isBlank c = true) (cs : List Char) :
    trim (cs ++ [c]) = trim cs := by
  unfold trim
  rw [List.dropWhile_append]
  split
  · next h =>
      rw [List.isEmpty_iff.mp h, List.dropWhile_cons_of_pos hc]
      rfl
  · rw [List.reverse_append, List.reverse_singleton, List.singleton_append,
      List.dropWhile_cons_of_pos hc]

/-- The lines of a text as they are read one by one. A line feed ends a line, together with a
carriage return right in front of it, and starts none if the text ends there. -/
def lines : Source → List (List Char)
  | [] => []
  | '\n' :: rest => [] :: lines rest
  | '\r' :: '\n' :: rest => [] :: lines rest
  | c :: rest =>
    match lines rest with
    | [] => [[c]]
    | line :: others => (c :: line) :: others

theorem lineAt_eq_lines (text : Source) (n : Nat) :
    lineAt text n = text.lines.getD n [] ∨ lineAt text n = text.lines.getD n [] ++ ['\r'] := by
  fun_induction lines text generalizing n with
  | case1 => cases n <;> simp [lineAt]
  | case2 rest ih =>
      cases n with
      | zero => simp [lineAt]
      | succ n => simpa [lineAt] using ih n
  | case3 rest ih =>
      cases n with
      | zero => simp [lineAt]
      | succ n => simpa [lineAt] using ih n
  | case4 c rest hfeed hreturn hlines ih =>
      have hc : c ≠ '\n' := hfeed
      cases n with
      | zero => simpa [lineAt, hc, hlines] using ih 0
      | succ n => simpa [lineAt, hc, hlines] using ih (n + 1)
  | case5 c rest hfeed hreturn line others hlines ih =>
      have hc : c ≠ '\n' := hfeed
      cases n with
      | zero => simpa [lineAt, hc, hlines] using ih 0
      | succ n => simpa [lineAt, hc, hlines] using ih (n + 1)

/-- **A line that is quoted can be read from the lines one by one.** The carriage return that is
then missing at its end is blank. -/
theorem lineText_eq_lines (text : Source) (n : Nat) :
    text.lineText n = String.ofList (trim (text.lines.getD (n - 1) [])) := by
  rw [lineText]
  rcases lineAt_eq_lines text (n - 1) with h | h
  · rw [h]
  · rw [h, trim_concat (by decide)]

/-! ## Offsets -/

theorem context_append (front rest : Source) :
    context (front ++ rest) (byteLength front) =
      String.ofList (trim (lineAt (front ++ rest) (front.count '\n'))) := by
  rw [context, place_append, lineText, Nat.add_sub_cancel]

/-- **Places tell offsets apart, and the line that is quoted is that of the place.** Of two offsets
the earlier one has the earlier place. The text that is quoted for an offset reaches from the last
line feed in front of it to the next one, or to the ends of the text, without its blank ends; it is
the same line that is found by its number if the text is read line by line. -/
theorem places_and_lines_agree (text : Source) :
    (∀ p q, text.Boundary p → text.Boundary q → p < q → text.place p < text.place q) ∧
    ∀ p, text.Boundary p → ∃ above left right below, Line text above (left ++ right) below ∧
      byteLength (above ++ left) = p ∧
      text.place p = ⟨above.count '\n' + 1, left.length + 1⟩ ∧
      text.context p = String.ofList (trim (left ++ right)) ∧
      text.context p = String.ofList (trim (text.lines.getD ((text.place p).line - 1) [])) := by
  refine ⟨fun p q => place_lt_of_boundary, ?_⟩
  rintro p ⟨front, ⟨rest, rfl⟩, rfl⟩
  obtain ⟨above, left, right, below, hline, rfl⟩ := exists_line front rest
  have hleft : '\n' ∉ left := fun h => hline.no_feed (List.mem_append_left _ h)
  have hcount : (above ++ left).count '\n' = above.count '\n' := by
    rw [List.count_append, List.count_eq_zero.mpr hleft, Nat.add_zero]
  refine ⟨above, left, right, below, hline, rfl, ?_, ?_, lineText_eq_lines _ _⟩
  · have hcolumn : (above.reverse.takeWhile (· != '\n')) = [] := by
      rcases hline.above_end with rfl | ⟨earlier, rfl⟩ <;> simp
    rw [place_append, hcount, takeWhile_reverse_append _ hleft, hcolumn, List.append_nil,
      List.length_reverse]
  · rw [context_append, hcount, hline.lineAt_eq]

/-- A carriage return in front of a line feed and one alone, an empty line, and the end of a text
behind its last line feed. -/
theorem places_and_lines_agree_returns :
    let text : Source := " é\r\n\n a\rb\n".toList
    text.Boundary 4 ∧ text.Boundary 11 ∧ text.place 4 < text.place 11 ∧ text.context 4 = "é" ∧
      text.context 11 = "" := by
  intro text
  have hfeed : text.Boundary 4 := ⟨text.take 3, List.take_prefix _ _, by decide⟩
  have hend : text.Boundary 11 := ⟨text, List.prefix_refl _, by decide⟩
  obtain ⟨hplace, hcontext⟩ := places_and_lines_agree text
  obtain ⟨-, -, -, -, -, -, -, -, hquoted⟩ := hcontext 4 hfeed
  obtain ⟨-, -, -, -, -, -, -, -, hlast⟩ := hcontext 11 hend
  refine ⟨hfeed, hend, hplace 4 11 hfeed hend (by decide), ?_, ?_⟩
  · rw [hquoted]
    decide +kernel
  · rw [hlast]
    decide +kernel

/-! ## One text above another -/

theorem place_above (above below : Source) (h : front <+: above) :
    place (above ++ '\n' :: below) (byteLength front) = above.place (byteLength front) := by
  obtain ⟨rest, rfl⟩ := h
  rw [List.append_assoc, place_append, place_append]

theorem context_above (above below : Source) (h : front <+: above) :
    context (above ++ '\n' :: below) (byteLength front) = above.context (byteLength front) := by
  obtain ⟨rest, rfl⟩ := h
  have hle : front.count '\n' ≤ (front ++ rest).count '\n' := by
    rw [List.count_append]
    exact Nat.le_add_right _ _
  rw [context_append, ← lineAt_above (front ++ rest) below hle, List.append_assoc, context_append]

theorem byteLength_below (above front : Source) :
    byteLength (above ++ '\n' :: front) = byteLength above + 1 + byteLength front := by
  rw [byteLength_append, byteLength, Nat.add_assoc]
  rfl

theorem count_below (above front : Source) :
    (above ++ '\n' :: front).count '\n' = above.count '\n' + front.count '\n' + 1 := by
  rw [List.count_append, List.count_cons_self, Nat.add_assoc]

theorem place_below (above : Source) {below : Source} (h : front <+: below) :
    place (above ++ '\n' :: below) (byteLength above + 1 + byteLength front) =
      (below.place (byteLength front)).down (above.count '\n' + 1) := by
  obtain ⟨rest, rfl⟩ := h
  have hcolumn : ((above ++ '\n' :: front).reverse.takeWhile (· != '\n')) =
      front.reverse.takeWhile (· != '\n') := by
    rw [List.reverse_append, List.reverse_cons, List.append_assoc, List.singleton_append,
      takeWhile_append_of_neg rfl]
  rw [← byteLength_below, ← List.cons_append, ← List.append_assoc, place_append, place_append,
    count_below, hcolumn]
  simp only [Place.down, Place.mk.injEq, and_true]
  omega

theorem context_below (above : Source) {below : Source} (h : front <+: below) :
    context (above ++ '\n' :: below) (byteLength above + 1 + byteLength front) =
      below.context (byteLength front) := by
  obtain ⟨rest, rfl⟩ := h
  rw [context_append, ← lineAt_below above, ← byteLength_below, ← List.cons_append,
    ← List.append_assoc, context_append, count_below]

end Source

end SixReg
