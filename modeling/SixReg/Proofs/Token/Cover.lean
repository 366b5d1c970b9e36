import SixReg.Proofs.Source.Line
import SixReg.Proofs.Token.Patterns

/-!
# A text is its tokens and what lies between them

A token or a fault is read from the characters of its span (`Scan.exists_of_mem_locate`). Spans
follow each other without overlap (`Scan.pairwise_locate`), and what they leave out in front of the
first, between two of them and behind the last is white space and comments, each as long as it can
be (`Scan.skipped_gaps`). A text is cut in one way only by the patterns (`Scan.Cut.unique`).

The facts about spans are proved for a text that is cut into pieces anywhere, `source = front ++
pieces`, so that each is one induction on the pieces. No character is counted twice or lost on the
way, since offsets are only ever lengths of what stands in front.
-/

namespace SixReg

namespace Scan

variable {source front : Source} {offset : Nat} {p : Piece} {ps : List Piece}
  {item : Except LexicalError Lexeme}

/-! ## What is read -/

/-- The bytes of a token or a fault. -/
def span : Except LexicalError Lexeme → Span
  | .ok l => l.span
  | .error e => ⟨e.offset, e.offset + Source.byteLength e.lexeme.toList⟩

/-- The token or fault is what the patterns say of a text in front of `rest`. -/
def Reads : Except LexicalError Lexeme → List Char → List Char → Prop
  | .ok l, text, rest => (Kind.token l.token).Reads text rest
  | .error e, text, rest => e.lexeme = String.ofList text ∧ (Kind.fault e.fault).Reads text rest

/-- The text is white space and comments, each of them the longest in front of what follows it. -/
inductive Skipped : List Char → List Char → Prop where
  | nil {rest : List Char} : Skipped [] rest
  | cons {part text rest : List Char} (hpart : Kind.blank.Reads part (text ++ rest))
      (htext : Skipped text rest) : Skipped (part ++ text) rest

/-- What the spans leave out from `start` on up to `finish`. -/
def gaps (finish : Nat) : Nat → List Span → List Span
  | start, [] => [⟨start, finish⟩]
  | start, span :: spans => ⟨start, span.start⟩ :: gaps finish span.stop spans

/-- Pieces of a text, each of them as the patterns say. -/
inductive Cut : List Piece → Prop where
  | nil : Cut []
  | cons {p : Piece} {ps : List Piece} (hne : p.text ≠ [])
      (hreads : p.kind.Reads p.text (ps.flatMap Piece.text)) (hps : Cut ps) : Cut (p :: ps)

theorem cut_pieces (source : Source) : Cut (pieces source) := by
  fun_induction pieces source with
  | case1 => exact .nil
  | case2 c cs kind n h ih =>
      apply Cut.cons (List.cons_ne_nil _ _) _ ih
      rw [flatMap_text_pieces]
      exact reads_head h

theorem Cut.eq_nil {ps : List Piece} (h : Cut ps) (htext : ps.flatMap Piece.text = []) :
    ps = [] := by
  cases h with
  | nil => rfl
  | cons hne hreads hps => exact absurd (List.append_eq_nil_iff.mp htext).1 hne

/-- **The patterns cut a text in one way only.** -/
theorem Cut.unique {ps ps' : List Piece} (h : Cut ps) (h' : Cut ps')
    (hsame : ps.flatMap Piece.text = ps'.flatMap Piece.text) : ps = ps' := by
  induction h generalizing ps' with
  | nil => exact (h'.eq_nil hsame.symm).symm
  | @cons p ps hne hreads hps ih =>
      cases h' with
      | nil => exact absurd (List.append_eq_nil_iff.mp hsame).1 hne
      | @cons p' ps' hne' hreads' hps' =>
          rw [List.flatMap_cons, List.flatMap_cons] at hsame
          obtain ⟨hkind, htext, hrest⟩ := hreads.unique hne hne' hreads' hsame
          rw [ih hps' hrest, Piece.ext hkind htext]

/-! ## Where it stands -/

/-- The token or fault that a piece is, if it is one. -/
def item? (source : Source) (offset : Nat) (p : Piece) : Option (Except LexicalError Lexeme) :=
  match p.kind with
  | .blank => none
  | .token token => some (.ok ⟨token, ⟨offset, offset + Source.byteLength p.text⟩⟩)
  | .fault fault =>
    some (.error
      { fault
        offset
        place := source.place offset
        lexeme := String.ofList p.text
        context := source.context offset })

theorem locate_cons (source : Source) (offset : Nat) (p : Piece) (ps : List Piece) :
    locate source offset (p :: ps) = (item? source offset p).toList ++
      locate source (offset + Source.byteLength p.text) ps := by
  rw [locate, item?]
  cases p.kind <;> rfl

theorem blank_of_item? {rest : List Char} (hreads : p.kind.Reads p.text rest)
    (h : item? source offset p = none) : Kind.blank.Reads p.text rest := by
  unfold item? at h
  split at h
  · next hkind =>
      rw [hkind] at hreads
      exact hreads
  · cases h
  · cases h

theorem span_of_item? (h : item? source offset p = some item) :
    span item = ⟨offset, offset + Source.byteLength p.text⟩ := by
  unfold item? at h
  split at h <;> cases h
  · rfl
  · rw [span, String.toList_ofList]

theorem reads_of_item? {rest : List Char} (hreads : p.kind.Reads p.text rest)
    (h : item? source offset p = some item) : Reads item p.text rest := by
  unfold item? at h
  split at h <;> cases h
  · next hkind =>
      rw [hkind] at hreads
      exact hreads
  · next hkind =>
      rw [hkind] at hreads
      exact ⟨rfl, hreads⟩

/-- **A token or a fault is read from the characters of its span.** -/
theorem exists_of_mem_locate (hsource : source = front ++ ps.flatMap Piece.text) (hps : Cut ps)
    (hitem : item ∈ locate source (Source.byteLength front) ps) :
    ∃ before text rest, source = before ++ (text ++ rest) ∧ text ≠ [] ∧ front <+: before ∧
      span item = ⟨Source.byteLength before, Source.byteLength before + Source.byteLength text⟩ ∧
      Reads item text rest := by
  induction hps generalizing front with
  | nil => cases hitem
  | @cons p ps hne hreads hps ih =>
      rw [List.flatMap_cons] at hsource
      rw [locate_cons, List.mem_append, Option.mem_toList] at hitem
      rcases hitem with hfirst | hlater
      · exact ⟨front, p.text, _, hsource, hne, List.prefix_refl _, span_of_item? hfirst,
          reads_of_item? hreads hfirst⟩
      · rw [← Source.byteLength_append] at hlater
        rw [← List.append_assoc] at hsource
        obtain ⟨before, text, rest, hsplit, htext, hbegins, hfound⟩ := ih hsource hlater
        exact ⟨before, text, rest, hsplit, htext, (List.prefix_append _ _).trans hbegins, hfound⟩

/-- What comes from later pieces starts later. -/
theorem le_start_of_mem_locate (hsource : source = front ++ ps.flatMap Piece.text) (hps : Cut ps)
    (hitem : item ∈ locate source (Source.byteLength front) ps) :
    Source.byteLength front ≤ (span item).start := by
  obtain ⟨before, text, rest, -, -, hbegins, hspan, -⟩ := exists_of_mem_locate hsource hps hitem
  rw [hspan]
  exact Source.byteLength_le hbegins

/-- **Tokens and faults do not overlap**, and stand in the order of the text. -/
theorem pairwise_locate (hsource : source = front ++ ps.flatMap Piece.text) (hps : Cut ps) :
    (locate source (Source.byteLength front) ps).Pairwise
      fun a b => (span a).stop ≤ (span b).start := by
  induction hps generalizing front with
  | nil => exact List.Pairwise.nil
  | @cons p ps hne hreads hps ih =>
      rw [List.flatMap_cons, ← List.append_assoc] at hsource
      rw [locate_cons, ← Source.byteLength_append]
      cases hfirst : item? source (Source.byteLength front) p with
      | none => exact ih hsource
      | some first =>
          apply List.Pairwise.cons _ (ih hsource)
          intro later hlater
          rw [span_of_item? hfirst, ← Source.byteLength_append]
          exact le_start_of_mem_locate hsource hps hlater

theorem Skipped.append {text part rest : List Char} (htext : Skipped text (part ++ rest))
    (hpart : Kind.blank.Reads part rest) : Skipped (text ++ part) rest := by
  generalize hfollows : part ++ rest = follows at htext
  induction htext with
  | nil =>
      rw [List.nil_append, ← List.append_nil part]
      exact .cons hpart .nil
  | @cons first text _ hfirst _ ih =>
      subst hfollows
      rw [List.append_assoc]
      apply Skipped.cons _ (ih rfl)
      rw [List.append_assoc]
      exact hfirst

/-- **What is left out is white space and comments.** The blanks between `front` and the next piece
are those that have been passed since the last token or fault. -/
theorem skipped_gaps {blanks : List Char}
    (hsource : source = front ++ (blanks ++ ps.flatMap Piece.text))
    (hblanks : Skipped blanks (ps.flatMap Piece.text)) (hps : Cut ps) :
    ∀ gap ∈ gaps (Source.byteLength source) (Source.byteLength front)
        ((locate source (Source.byteLength front + Source.byteLength blanks) ps).map span),
      ∃ before text rest, source = before ++ (text ++ rest) ∧
        gap = ⟨Source.byteLength before, Source.byteLength before + Source.byteLength text⟩ ∧
        Skipped text rest := by
  induction hps generalizing front blanks with
  | nil =>
      intro gap hgap
      have hlength :
          Source.byteLength source = Source.byteLength front + Source.byteLength blanks := by
        rw [hsource, List.flatMap_nil, List.append_nil, Source.byteLength_append]
      cases List.mem_singleton.mp hgap
      rw [hlength]
      exact ⟨front, blanks, [], hsource, rfl, hblanks⟩
  | @cons p ps hne hreads hps ih =>
      rw [List.flatMap_cons] at hsource hblanks
      rw [locate_cons]
      cases hfirst : item? source (Source.byteLength front + Source.byteLength blanks) p with
      | none =>
          rw [← List.append_assoc blanks] at hsource
          rw [Nat.add_assoc, ← Source.byteLength_append]
          exact ih hsource (hblanks.append (blank_of_item? hreads hfirst))
      | some item =>
          intro gap hgap
          rw [Option.toList_some, List.singleton_append, List.map_cons, gaps, span_of_item? hfirst,
            List.mem_cons] at hgap
          rcases hgap with rfl | hgap
          · exact ⟨front, blanks, _, hsource, rfl, hblanks⟩
          · -- the next gap starts behind the piece, with nothing passed yet
            have hsource' :
                source = (front ++ blanks ++ p.text) ++ ([] ++ ps.flatMap Piece.text) := by
              rw [hsource, List.nil_append, List.append_assoc, List.append_assoc]
            apply ih hsource' .nil
            rw [Source.byteLength_append, Source.byteLength_append]
            exact hgap

end Scan

/-! ## The whole text -/

theorem tokenize_eq_error {source : Source} {e : LexicalError} :
    tokenize source = .error e ↔
      ∃ (before : List Lexeme) (after : List (Except LexicalError Lexeme)),
        scan source = before.map .ok ++ .error e :: after :=
  Except.mapM_id_eq_error

/-- A token of a text is written in the text, at its span. -/
theorem exists_of_mem_tokens {source : Source} {tokens : List Lexeme} {l : Lexeme}
    (h : tokenize source = .ok tokens) (hl : l ∈ tokens) :
    ∃ before text rest, source = before ++ (text ++ rest) ∧ text ≠ [] ∧
      l.span = ⟨Source.byteLength before, Source.byteLength before + Source.byteLength text⟩ ∧
      Writes l.token text := by
  have hitem : .ok l ∈ scan source := by
    rw [tokenize_eq_ok.mp h]
    exact List.mem_map_of_mem hl
  have hsource : source = [] ++ (Scan.pieces source).flatMap Scan.Piece.text :=
    (Scan.flatMap_text_pieces source).symm
  obtain ⟨before, text, rest, hsplit, htext, -, hspan, hreads⟩ :=
    Scan.exists_of_mem_locate hsource (Scan.cut_pieces source) hitem
  exact ⟨before, text, rest, hsplit, htext, hspan, hreads.2⟩

/-- No text has a negative number, since a sign is a token of its own. -/
theorem nonneg_of_mem_tokens {source : Source} {tokens : List Lexeme} {l : Lexeme} {value : Int}
    (h : tokenize source = .ok tokens) (hl : l ∈ tokens) (hvalue : l.token = .number value) :
    0 ≤ value := by
  obtain ⟨before, text, rest, -, -, -, hwrites⟩ := exists_of_mem_tokens h hl
  rw [hvalue] at hwrites
  cases hwrites with
  | literal hentry => simp [literals, wordLiterals, pairLiterals, signLiterals] at hentry
  | number => exact Int.natCast_nonneg _

theorem pairwise_tokens {source : Source} {tokens : List Lexeme}
    (h : tokenize source = .ok tokens) :
    tokens.Pairwise fun a b => a.span.stop ≤ b.span.start := by
  have hsource : source = [] ++ (Scan.pieces source).flatMap Scan.Piece.text :=
    (Scan.flatMap_text_pieces source).symm
  have hpairwise : (scan source).Pairwise fun a b => (Scan.span a).stop ≤ (Scan.span b).start :=
    Scan.pairwise_locate hsource (Scan.cut_pieces source)
  rw [tokenize_eq_ok.mp h, List.pairwise_map] at hpairwise
  exact hpairwise

/-- **Nothing of a text is lost, and every token is the longest that can be read.** Each token and
each fault is read from its span, a number of whole characters that is not empty; these follow each
other, and between them are white space and comments, which are the longest that can be read too.
The patterns cut the text in one way only, and the tokens and faults are those of that cut. The
tokens of the text are those found if there is no fault, and otherwise the first fault is
reported. -/
theorem scan_longest_lossless (source : Source) :
    (∀ item ∈ scan source, ∃ before text rest, source = before ++ (text ++ rest) ∧ text ≠ [] ∧
      Scan.span item =
        ⟨Source.byteLength before, Source.byteLength before + Source.byteLength text⟩ ∧
      (Scan.span item).start < (Scan.span item).stop ∧ Scan.Reads item text rest) ∧
    ((scan source).Pairwise fun a b => (Scan.span a).stop ≤ (Scan.span b).start) ∧
    (∀ gap ∈ Scan.gaps (Source.byteLength source) 0 ((scan source).map Scan.span),
      ∃ before text rest, source = before ++ (text ++ rest) ∧
        gap = ⟨Source.byteLength before, Source.byteLength before + Source.byteLength text⟩ ∧
        source.slice? gap = some text ∧ Scan.Skipped text rest) ∧
    (∃! cut, Scan.Cut cut ∧ cut.flatMap Scan.Piece.text = source) ∧
    (∀ cut, Scan.Cut cut → cut.flatMap Scan.Piece.text = source →
      scan source = Scan.locate source 0 cut) ∧
    (∀ tokens, tokenize source = .ok tokens ↔ scan source = tokens.map .ok) ∧
    (∀ e, tokenize source = .error e ↔
      ∃ (before : List Lexeme) (after : List (Except LexicalError Lexeme)),
        scan source = before.map .ok ++ .error e :: after) := by
  have htexts := Scan.flatMap_text_pieces source
  have hsource : source = [] ++ (Scan.pieces source).flatMap Scan.Piece.text := htexts.symm
  have hcut := Scan.cut_pieces source
  have honly : ∀ cut, Scan.Cut cut → cut.flatMap Scan.Piece.text = source →
      cut = Scan.pieces source :=
    fun cut h hsame => h.unique hcut (hsame.trans htexts.symm)
  refine ⟨?_, Scan.pairwise_locate hsource hcut, ?_,
    ⟨Scan.pieces source, ⟨hcut, htexts⟩, fun cut h => honly cut h.1 h.2⟩, ?_,
    fun _ => tokenize_eq_ok, fun _ => tokenize_eq_error⟩
  · intro item hitem
    obtain ⟨before, text, rest, hsplit, htext, -, hspan, hreads⟩ :=
      Scan.exists_of_mem_locate hsource hcut hitem
    refine ⟨before, text, rest, hsplit, htext, hspan, ?_, hreads⟩
    rw [hspan]
    exact Nat.lt_add_of_pos_right (Source.byteLength_pos htext)
  · intro gap hgap
    obtain ⟨before, text, rest, rfl, rfl, hskipped⟩ := Scan.skipped_gaps hsource .nil hcut gap hgap
    exact ⟨before, text, rest, rfl, rfl, Source.slice?_append before text rest, hskipped⟩
  · intro cut h hsame
    rw [honly cut h hsame, scan]

end SixReg
