import SixReg.Proofs.Syntax.Stuck
import SixReg.Proofs.Token.Cover

/-!
# The place of a parse error

An error is reported at a line and a column, and not at a token. The two say the same: different
boundaries between characters have different places (`Source.eq_of_place_eq`), and every token
starts at a boundary of its own (`Cursor.offset_drop_lt`). So the place of an error tells which
token is meant, and that is the first one that no program can have there.
-/

namespace SixReg

namespace Cursor

variable {source : Source} {tokens : List Lexeme} {j k : Nat}

theorem offset_start_cons (source : Source) (lexeme : Lexeme) (tokens : List Lexeme) :
    (start source (lexeme :: tokens)).offset = lexeme.span.start := rfl

/-- A token starts at a boundary between characters, and so does the end of the text. -/
theorem exists_front (h : tokenize source = .ok tokens) (k : Nat) :
    ∃ front, front <+: source ∧
      Source.byteLength front = (start source (tokens.drop k)).offset := by
  cases hdrop : tokens.drop k with
  | nil => exact ⟨source, List.prefix_refl _, rfl⟩
  | cons lexeme rest =>
      have hmem : lexeme ∈ tokens.drop k := by simp [hdrop]
      obtain ⟨before, text, after, hsource, -, hspan, -⟩ :=
        exists_of_mem_tokens h (List.mem_of_mem_drop hmem)
      refine ⟨before, ⟨text ++ after, hsource.symm⟩, ?_⟩
      rw [offset_start_cons, hspan]

theorem offset_drop (source : Source) (hk : k < tokens.length) :
    (start source (tokens.drop k)).offset = tokens[k].span.start := by
  rw [List.drop_eq_getElem_cons hk, offset_start_cons]

/-- **Every token starts behind the one before it**, and in front of the end of the text. -/
theorem offset_drop_lt (h : tokenize source = .ok tokens) (hjk : j < k) (hk : k ≤ tokens.length) :
    (start source (tokens.drop j)).offset < (start source (tokens.drop k)).offset := by
  have hj : j < tokens.length := Nat.lt_of_lt_of_le hjk hk
  obtain ⟨before, text, after, hsource, htext, hspan, -⟩ :=
    exists_of_mem_tokens h (List.getElem_mem hj)
  have hpos := Source.byteLength_pos htext
  have hstart : tokens[j].span.start = Source.byteLength before := by rw [hspan]
  have hstop : tokens[j].span.stop = Source.byteLength before + Source.byteLength text := by
    rw [hspan]
  rw [offset_drop source hj]
  rcases Nat.lt_or_eq_of_le hk with hk | rfl
  · have hle := List.pairwise_iff_getElem.mp (pairwise_tokens h) j k hj hk hjk
    rw [offset_drop source hk]
    omega
  · have hlength : Source.byteLength source =
        Source.byteLength before + (Source.byteLength text + Source.byteLength after) := by
      rw [hsource, Source.byteLength_append, Source.byteLength_append]
    rw [List.drop_length]
    show _ < Source.byteLength source
    omega

/-- **The place of a token is that of no other.** -/
theorem place_drop_inj (h : tokenize source = .ok tokens) (hj : j ≤ tokens.length)
    (hk : k ≤ tokens.length)
    (hplace : source.place (start source (tokens.drop j)).offset =
      source.place (start source (tokens.drop k)).offset) : j = k := by
  obtain ⟨front, hfront, hoffset⟩ := exists_front h j
  obtain ⟨front', hfront', hoffset'⟩ := exists_front h k
  rw [← hoffset, ← hoffset'] at hplace
  have heq : (start source (tokens.drop j)).offset = (start source (tokens.drop k)).offset := by
    rw [← hoffset, ← hoffset', Source.eq_of_place_eq hfront hfront' hplace]
  rcases Nat.lt_trichotomy j k with hlt | heq' | hlt
  · exact absurd heq (Nat.ne_of_lt (offset_drop_lt h hlt hk))
  · exact heq'
  · exact absurd heq (Nat.ne_of_gt (offset_drop_lt h hlt hj))

theorem program_eq_error {cursor : Cursor} {e : ParseError} :
    cursor.program = .error e ↔ ∃ stuck, Parse.program cursor.depth cursor.rest = .error stuck ∧
      (cursor.stuckAt stuck).fail stuck.fault = e := by
  unfold Cursor.program
  cases Parse.program cursor.depth cursor.rest <;> simp

end Cursor

/-! ## Sentences -/

namespace Parse

open Grammar

variable {tokens rest : List Lexeme}

/-- What a blocked program leaves is a last part of its tokens; in front of it there is the
beginning of a sentence, but not so with its first token. -/
theorem Blocked.viable (h : Blocked ProgramText [.statements] tokens rest) :
    ∃ k ≤ tokens.length, rest = tokens.drop k ∧ Viable ((tokens.take k).map Lexeme.token) ∧
      (k < tokens.length → ¬ Viable ((tokens.take (k + 1)).map Lexeme.token)) ∧
      (k = tokens.length → ¬ Sentence (tokens.map Lexeme.token)) := by
  obtain ⟨read, more, rfl, ⟨tree, htree⟩, hrefuse⟩ := h
  refine ⟨read.length, ?_, ?_, ?_, ?_, ?_⟩
  · rw [List.length_append]
    exact Nat.le_add_right _ _
  · rw [List.drop_left]
  · rw [List.take_left]
    exact ⟨more.map Lexeme.token, tree, by rw [htree, List.map_append]⟩
  · intro hk
    cases rest with
    | nil => simp at hk
    | cons lexeme rest =>
        apply not_viable_of_run
        have htake : (read ++ lexeme :: rest).take (read.length + 1) = read ++ [lexeme] :=
          List.take_length_add_append 1
        rw [htake, List.map_map, List.map_append]
        exact hrefuse
  · intro hk
    obtain rfl : rest = [] := by simpa using hk
    apply not_sentence_of_run
    rw [List.append_nil, List.map_map]
    exact hrefuse

end Parse

/-- **Parse errors point at the first token that cannot go on.** If the tokens of a text are no
program, the place that is reported is that of one token, or of the end of the text. The tokens in
front of it begin some program, and with it they begin none; at the end of the text they are no
program. -/
theorem parse_error_at_first_offender {source : Source} {tokens : List Lexeme} {e : ParseError}
    {found : Option Token} {expected : Expected} (htokens : tokenize source = .ok tokens)
    (herror : (Cursor.start source tokens).program = .error e)
    (hfault : e.fault = .unexpected found expected) :
    ∃ k ≤ tokens.length,
      (∀ j ≤ tokens.length,
        source.place (Cursor.start source (tokens.drop j)).offset = e.place ↔ j = k) ∧
      Grammar.Viable ((tokens.take k).map Lexeme.token) ∧
      (k < tokens.length → ¬ Grammar.Viable ((tokens.take (k + 1)).map Lexeme.token)) ∧
      (k = tokens.length → ¬ Grammar.Sentence (tokens.map Lexeme.token)) := by
  obtain ⟨⟨fault, rest, depth⟩, hprogram, rfl⟩ := Cursor.program_eq_error.mp herror
  obtain rfl : fault = .unexpected found expected := hfault
  obtain ⟨k, hk, rfl, hviable⟩ := (Parse.program_blocked hprogram).viable
  refine ⟨k, hk, ?_, hviable⟩
  intro j hj
  constructor
  · intro hplace
    exact Cursor.place_drop_inj htokens hj hk hplace
  · rintro rfl
    rfl

/-- A second comparison in a row, behind a line with a character of two bytes. -/
theorem parse_error_at_second_comparison :
    let source : Source := "# é\nif a < b < c: \x7b \x7d".toList
    ∃ tokens e, tokenize source = .ok tokens ∧
      (Cursor.start source tokens).program = .error e ∧ e.place = ⟨2, 10⟩ ∧
      e.fault = .unexpected (some (.op (.compare .lt))) .colon ∧
      Grammar.Viable [.kwIf, .ident "a", .op (.compare .lt), .ident "b"] ∧
      ¬ Grammar.Viable [.kwIf, .ident "a", .op (.compare .lt), .ident "b", .op (.compare .lt)] := by
  intro source
  let tokens : List Lexeme :=
    [⟨.kwIf, ⟨5, 7⟩⟩, ⟨.ident "a", ⟨8, 9⟩⟩, ⟨.op (.compare .lt), ⟨10, 11⟩⟩, ⟨.ident "b", ⟨12, 13⟩⟩,
      ⟨.op (.compare .lt), ⟨14, 15⟩⟩, ⟨.ident "c", ⟨16, 17⟩⟩, ⟨.colon, ⟨17, 18⟩⟩,
      ⟨.openBrace, ⟨19, 20⟩⟩, ⟨.closeBrace, ⟨21, 22⟩⟩]
  let e : ParseError :=
    ⟨⟨2, 10⟩, "if a < b < c: \x7b \x7d", .unexpected (some (.op (.compare .lt))) .colon⟩
  have htokens : tokenize source = .ok tokens := by decide +kernel
  have herror : (Cursor.start source tokens).program = .error e := by
    have hfault : (match (Cursor.start source tokens).program with
        | .ok _ => none
        | .error e => some e) = some e := by decide +kernel
    split at hfault
    · cases hfault
    · next hprogram =>
        rw [hprogram]
        exact congrArg Except.error (Option.some.inj hfault)
  obtain ⟨k, -, hplace, hviable, hnot, -⟩ := parse_error_at_first_offender htokens herror rfl
  obtain rfl : 4 = k := (hplace 4 (by decide)).mp (by decide +kernel)
  exact ⟨tokens, e, htokens, herror, rfl, rfl, hviable, hnot (by decide)⟩

end SixReg
