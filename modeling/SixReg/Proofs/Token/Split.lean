import SixReg.Proofs.Token.Cover

/-!
# Texts are scanned line by line

No token and no comment goes over the end of a line, and white space leaves nothing behind. So the
tokens and faults of a text are those above a line feed and those below it (`scan_append_feed`),
whatever stands at the two sides: an open comment, half of a sign, or more white space. What comes
from below has moved on by the bytes and the lines above it.
-/

namespace SixReg

namespace Scan

variable {c : Char} {source source' : Source}

/-! ## The head of a text -/

theorem pairToken?_feed (c : Char) : pairToken? c '\n' = none := by
  unfold pairToken?
  split <;> simp_all

theorem signs_append_feed (c : Char) (cs below : List Char) :
    signs c (cs ++ '\n' :: below) = signs c cs := by
  cases cs with
  | nil => simp [signs, pairToken?_feed]
  | cons d cs => rfl

/-- A piece that is not white space does not look past a line feed. -/
theorem head_append_feed (hspace : isSpace c = false) (cs below : List Char) :
    head c (cs ++ '\n' :: below) = head c cs := by
  have hslash : ((cs ++ '\n' :: below).head? == some '/') = (cs.head? == some '/') := by
    cases cs <;> rfl
  have hrun : ∀ {q : Char → Bool}, q '\n' = false →
      (cs ++ '\n' :: below).takeWhile q = cs.takeWhile q :=
    fun hq => Source.takeWhile_append_of_neg hq cs below
  simp only [head, hspace, hslash, hrun (q := inComment) rfl, hrun (q := isWordChar) rfl,
    hrun (q := Char.isDigit) rfl, signs_append_feed, Bool.false_eq_true, if_false]

theorem signs_snd_le (c : Char) (cs : List Char) : (signs c cs).2 ≤ cs.length := by
  unfold signs
  split
  · next token h =>
      cases cs with
      | nil => cases h
      | cons d cs => exact Nat.le_add_left 1 _
  · split <;> exact Nat.zero_le _

theorem head_snd_le (c : Char) (cs : List Char) : (head c cs).2 ≤ cs.length := by
  have hrun : ∀ q : Char → Bool, (cs.takeWhile q).length ≤ cs.length :=
    fun q => (List.takeWhile_prefix q).length_le
  unfold head
  split_ifs
  · exact hrun isSpace
  · exact hrun inComment
  · exact hrun isWordChar
  · exact hrun Char.isDigit
  · exact signs_snd_le c cs

/-! ## The pieces of a text -/

theorem locate_pieces_white (hspace : isSpace c = true) (source : Source) (offset : Nat)
    (cs : List Char) : locate source offset (pieces (c :: cs)) =
      locate source (offset + Source.byteLength (c :: cs.takeWhile isSpace))
        (pieces (cs.dropWhile isSpace)) := by
  have hhead : head c cs = (.blank, (cs.takeWhile isSpace).length) := by rw [head, if_pos hspace]
  have hdrop : cs.drop (cs.takeWhile isSpace).length = cs.dropWhile isSpace :=
    calc cs.drop (cs.takeWhile isSpace).length
        = (cs.takeWhile isSpace ++ cs.dropWhile isSpace).drop (cs.takeWhile isSpace).length := by
          rw [List.takeWhile_append_dropWhile]
      _ = cs.dropWhile isSpace := List.drop_left
  simp only [pieces, hhead, take_length_takeWhile, hdrop, locate]

/-- White space in front of a text leaves nothing behind. -/
theorem locate_pieces_space (hspace : isSpace c = true) (source : Source) (offset : Nat)
    (cs : List Char) : locate source offset (pieces (c :: cs)) =
      locate source (offset + c.utf8Size) (pieces cs) := by
  rw [locate_pieces_white hspace]
  cases cs with
  | nil => rfl
  | cons d cs =>
      cases hd : isSpace d with
      | true =>
          rw [locate_pieces_white hd, List.takeWhile_cons_of_pos hd, List.dropWhile_cons_of_pos hd,
            Source.byteLength, Nat.add_assoc]
      | false =>
          rw [List.takeWhile_cons_of_neg (by simp [hd]), List.dropWhile_cons_of_neg (by simp [hd])]
          rfl

/-- **The pieces above a line feed and those below it.** -/
theorem locate_pieces_append_feed (source : Source) (offset : Nat) (above below : List Char) :
    locate source offset (pieces (above ++ '\n' :: below)) =
      locate source offset (pieces above) ++
        locate source (offset + Source.byteLength above + 1) (pieces below) := by
  -- white space at the end goes on below, so it is taken character by character
  induction hlength : above.length using Nat.strong_induction_on generalizing above offset with
  | _ length ih =>
      cases above with
      | nil =>
          rw [List.nil_append, locate_pieces_space (by decide), pieces]
          rfl
      | cons c cs =>
          subst hlength
          cases hspace : isSpace c with
          | true =>
              rw [List.cons_append, locate_pieces_space hspace, locate_pieces_space hspace,
                ih cs.length (Nat.lt_succ_self _) _ _ rfl, Source.byteLength, Nat.add_assoc offset]
          | false =>
              have hle := head_snd_le c cs
              have hlt : (cs.drop (head c cs).2).length < (c :: cs).length := by
                rw [List.length_drop, List.length_cons]
                omega
              have hbytes : Source.byteLength (c :: cs) =
                  Source.byteLength (c :: cs.take (head c cs).2) +
                    Source.byteLength (cs.drop (head c cs).2) := by
                rw [← Source.byteLength_append, List.cons_append, List.take_append_drop]
              rw [List.cons_append, pieces, pieces, head_append_feed hspace, locate_cons,
                locate_cons, List.take_append_of_le_length hle, List.drop_append_of_le_length hle,
                ih (cs.drop (head c cs).2).length hlt _ _ rfl, List.append_assoc, hbytes,
                Nat.add_assoc offset]

/-! ## Moving on -/

/-- The token or fault, moved on by bytes and lines. All that is said of its line stays. -/
def moved (bytes lines : Nat) : Except LexicalError Lexeme → Except LexicalError Lexeme
  | .ok l => .ok { l with span := ⟨bytes + l.span.start, bytes + l.span.stop⟩ }
  | .error e => .error { e with offset := bytes + e.offset, place := e.place.down lines }

/-- If every piece becomes the same token or fault in two texts, up to a change that is the same for
all, then so do all pieces together. -/
theorem locate_map {bytes : Nat} {change : Except LexicalError Lexeme → Except LexicalError Lexeme}
    {front : Source} {ps : List Piece}
    (h : ∀ front, front <+: source → ∀ p,
      item? source' (bytes + Source.byteLength front) p =
        (item? source (Source.byteLength front) p).map change)
    (hsource : source = front ++ ps.flatMap Piece.text) :
    locate source' (bytes + Source.byteLength front) ps =
      (locate source (Source.byteLength front) ps).map change := by
  induction ps generalizing front with
  | nil => rfl
  | cons p ps ih =>
      rw [List.flatMap_cons, ← List.append_assoc] at hsource
      have hfront : front <+: source :=
        hsource ▸ (List.prefix_append front p.text).trans (List.prefix_append _ _)
      have hrest := ih hsource
      rw [Source.byteLength_append, ← Nat.add_assoc] at hrest
      rw [locate_cons, locate_cons, List.map_append, hrest, h front hfront p]
      cases item? source (Source.byteLength front) p <;> rfl

theorem locate_pieces_map {bytes : Nat}
    {change : Except LexicalError Lexeme → Except LexicalError Lexeme}
    (h : ∀ front, front <+: source → ∀ p,
      item? source' (bytes + Source.byteLength front) p =
        (item? source (Source.byteLength front) p).map change) :
    locate source' bytes (pieces source) = (scan source).map change := by
  have hsource : source = [] ++ (pieces source).flatMap Piece.text :=
    (flatMap_text_pieces source).symm
  exact locate_map h hsource

theorem locate_above (above below : Source) :
    locate (above ++ '\n' :: below) 0 (pieces above) = scan above := by
  rw [← (scan above).map_id]
  apply locate_pieces_map
  intro front hfront p
  rw [Nat.zero_add, Option.map_id_apply]
  simp only [item?, Source.place_above above below hfront, Source.context_above above below hfront]

theorem locate_below (above below : Source) :
    locate (above ++ '\n' :: below) (Source.byteLength above + 1) (pieces below) =
      (scan below).map (moved (Source.byteLength above + 1) (above.count '\n' + 1)) := by
  apply locate_pieces_map
  intro front hfront p
  simp only [item?, Source.place_below above hfront, Source.context_below above hfront]
  cases p.kind <;> simp [moved, Nat.add_assoc]

end Scan

/-- **Texts are scanned line by line.** The tokens and faults of a text with a line feed in it are
those of the text above the line feed, followed by those of the text below it. The latter stand
further on by the bytes above and by the lines above, each with the one for the line feed; that is
all that changes in them. -/
theorem scan_append_feed (above below : Source) :
    scan (above ++ '\n' :: below) = scan above ++
      (scan below).map (Scan.moved (Source.byteLength above + 1) (above.count '\n' + 1)) := by
  rw [scan, Scan.locate_pieces_append_feed, Nat.zero_add, Scan.locate_above, Scan.locate_below]

end SixReg
