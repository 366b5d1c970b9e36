import SixReg.Proofs.Computation
import SixReg.Token.Scan

/-!
# Tokens as text

The span of a token that was read off a text covers the characters that the token was read from
(`Scan.exists_piece`), and for an identifier these are the characters of its name
(`slice?_of_tokenize`).

Back from tokens to text, `spell` writes tokens with one space between neighbours. If each of them
can be spelled, the text is cut into the same tokens again and the spaces between them
(`tokenize_spell`), since a space ends every token and is part of none.
-/

namespace SixReg

namespace Source

/-- The characters of a span, if it starts and stops at boundaries of characters. -/
def slice? (text : Source) (span : Span) : Option (List Char) :=
  if span.start ≤ span.stop then
    (before? text span.start).bind fun front =>
      before? (text.drop front.length) (span.stop - span.start)
  else none

theorem slice?_append (front middle rest : Source) :
    slice? (front ++ (middle ++ rest)) ⟨byteLength front, byteLength front + byteLength middle⟩ =
      some middle := by
  rw [slice?, if_pos (Nat.le_add_right _ _), before?_append, Option.bind_some, List.drop_left,
    Nat.add_sub_cancel_left, before?_append]

end Source

/-! ## From text to tokens -/

namespace Scan

variable {c : Char} {cs rest : List Char} {source : Source} {p : Piece} {l : Lexeme} {name : String}

/-- The characters of a class that has none of those which start a blank. -/
theorem not_blank {q : Char → Bool} (h : q c = true)
    (hq : [' ', '\t', '\r', '\n', '#', '/'].any q = false) :
    isSpace c = false ∧ (c == '#') = false ∧ (c == '/') = false := by
  rw [List.any_eq_false] at hq
  have hne : ∀ d ∈ [' ', '\t', '\r', '\n', '#', '/'], (c == d) = false := by
    intro d hd
    rw [beq_eq_false_iff_ne]
    rintro rfl
    exact hq c hd h
  simp [isSpace, hne]

theorem head_of_isWordStart (h : isWordStart c = true) :
    head c cs = (.token (wordToken (String.ofList (c :: cs.takeWhile isWordChar))),
      (cs.takeWhile isWordChar).length) := by
  obtain ⟨hspace, hhash, hslash⟩ := not_blank h rfl
  simp [head, hspace, hhash, hslash, h]

theorem isWordStart_of_isDigit (h : c.isDigit = true) : isWordStart c = false := by
  have hdigit : (decide (c.val ≥ 48) && decide (c.val ≤ 57)) = true := h
  have halpha : c.isAlpha = false := by
    show (decide (c.val ≥ 65 ∧ c.val ≤ 90) ||
      (decide (c.val ≥ 97) && decide (c.val ≤ 122))) = false
    grind
  have hunderscore : (c == '_') = false := by
    rw [beq_eq_false_iff_ne]
    rintro rfl
    cases h
  rw [isWordStart, halpha, hunderscore, Bool.or_false]

theorem head_of_isDigit (h : c.isDigit = true) :
    head c cs = (numberKind (c :: cs.takeWhile Char.isDigit),
      (cs.takeWhile Char.isDigit).length) := by
  obtain ⟨hspace, hhash, hslash⟩ := not_blank h rfl
  simp [head, hspace, hhash, hslash, isWordStart_of_isDigit h, h]

theorem wordToken_eq_ident {word : String} (h : wordToken word = .ident name) : word = name := by
  unfold wordToken at h
  split at h <;> simp_all

theorem pairToken?_ne_ident (c d : Char) : pairToken? c d ≠ some (.ident name) := by
  unfold pairToken?
  split <;> simp

theorem signToken?_ne_ident (c : Char) : signToken? c ≠ some (.ident name) := by
  unfold signToken?
  split <;> simp

theorem signs_ne_ident {n : Nat} (c : Char) (cs : List Char) :
    signs c cs ≠ (.token (.ident name), n) := by
  intro h
  unfold signs at h
  split at h
  · next token htoken =>
      cases h
      obtain ⟨d, -, hpair⟩ := Option.bind_eq_some_iff.mp htoken
      exact pairToken?_ne_ident c d hpair
  · split at h
    · next token htoken =>
        cases h
        exact signToken?_ne_ident c htoken
    · cases h

/-- An identifier is a word, and is named as it is written. -/
theorem take_of_head_ident {n : Nat} (h : head c cs = (.token (.ident name), n)) :
    c :: cs.take n = name.toList := by
  by_cases hword : isWordStart c = true
  · rw [head_of_isWordStart hword, Prod.mk.injEq, Kind.token.injEq] at h
    obtain ⟨htoken, rfl⟩ := h
    rw [← wordToken_eq_ident htoken, String.toList_ofList,
      ← List.prefix_iff_eq_take.mp (List.takeWhile_prefix _)]
  · exfalso
    simp only [head, hword, numberKind, Bool.false_eq_true, if_false] at h
    split at h
    · cases h
    split at h
    · cases h
    split at h
    · split at h <;> cases h
    · exact signs_ne_ident c cs h

theorem text_of_ident (hp : p ∈ pieces source) (hkind : p.kind = .token (.ident name)) :
    p.text = name.toList := by
  fun_induction pieces source with
  | case1 => cases hp
  | case2 c cs kind n h ih =>
      rcases List.mem_cons.mp hp with rfl | hp
      · obtain rfl : kind = .token (.ident name) := hkind
        exact take_of_head_ident h
      · exact ih hp

/-- **A token stands where its piece does.** -/
theorem exists_piece {front : Source} {ps : List Piece}
    (hsource : source = front ++ ps.flatMap Piece.text)
    (hl : .ok l ∈ locate source (Source.byteLength front) ps) :
    ∃ p ∈ ps, p.kind = .token l.token ∧ source.slice? l.span = some p.text := by
  induction ps generalizing front with
  | nil => cases hl
  | cons p ps ih =>
      rw [List.flatMap_cons] at hsource
      have hlater : .ok l ∈ locate source (Source.byteLength front + Source.byteLength p.text) ps →
          ∃ p' ∈ p :: ps, p'.kind = .token l.token ∧ source.slice? l.span = some p'.text := by
        intro h
        rw [← Source.byteLength_append] at h
        obtain ⟨p', hp', hfound⟩ := ih (hsource.trans (List.append_assoc ..).symm) h
        exact ⟨p', List.mem_cons_of_mem p hp', hfound⟩
      rw [locate] at hl
      cases hkind : p.kind with
      | blank =>
          rw [hkind] at hl
          exact hlater hl
      | token token =>
          rw [hkind] at hl
          rcases List.mem_cons.mp hl with hfirst | hl
          · cases hfirst
            refine ⟨p, List.mem_cons_self, hkind, ?_⟩
            rw [hsource]
            exact Source.slice?_append _ _ _
          · exact hlater hl
      | fault fault =>
          rw [hkind] at hl
          rcases List.mem_cons.mp hl with hfirst | hl
          · cases hfirst
          · exact hlater hl

end Scan

theorem tokenize_eq_ok {source : Source} {tokens : List Lexeme} :
    tokenize source = .ok tokens ↔ scan source = tokens.map .ok :=
  Except.mapM_id_eq_ok

/-- **Identifiers keep their names**: the span of an identifier in a text covers its name. -/
theorem slice?_of_tokenize {source : Source} {tokens : List Lexeme} {name : String} {span : Span}
    (h : tokenize source = .ok tokens) (hmem : ⟨.ident name, span⟩ ∈ tokens) :
    source.slice? span = some name.toList := by
  have hscan : .ok ⟨.ident name, span⟩ ∈ scan source := by
    rw [tokenize_eq_ok.mp h]
    exact List.mem_map_of_mem hmem
  have hsource : source = [] ++ (Scan.pieces source).flatMap Scan.Piece.text :=
    (Scan.flatMap_text_pieces source).symm
  obtain ⟨p, hp, hkind, hslice⟩ := Scan.exists_piece hsource hscan
  rw [← Scan.text_of_ident hp hkind]
  exact hslice

/-! ## From tokens to text -/

/-- The words that are no identifiers. -/
def keywords : List String := ["var", "print", "if", "else", "while", "rol", "ror"]

/-- Whether a variable can have the name: a letter or an underscore, then letters, digits and
underscores, which do not make up a keyword. -/
def isName (name : String) : Bool :=
  name.toList.head?.any Scan.isWordStart && name.toList.all Scan.isWordChar &&
    !keywords.contains name

namespace Token

/-- The characters of a token. -/
def spelling : Token → List Char
  | .ident name => name.toList
  | token => token.display.toList

/-- Whether the token can be read from a text. -/
def isSpellable : Token → Bool
  | .ident name => isName name
  | .number value => 0 ≤ value ∧ value ≤ maxLiteral
  | _ => true

/-- The piece of a text that is the token. -/
def piece (token : Token) : Scan.Piece := ⟨.token token, token.spelling⟩

end Token

/-- The text of tokens with a space between them. -/
def spell (tokens : List Token) : Source := [' '].intercalate (tokens.map Token.spelling)

theorem spell_cons (token : Token) (tokens : List Token) :
    spell (token :: tokens) = token.spelling ++ tokens.flatMap fun t => ' ' :: t.spelling := by
  induction tokens generalizing token with
  | nil => simp [spell]
  | cons next tokens ih =>
      calc
        spell (token :: next :: tokens) = token.spelling ++ ' ' :: spell (next :: tokens) := by
          simp [spell]
        _ = _ := by rw [ih, List.flatMap_cons, List.cons_append]

namespace Scan

variable {c : Char} {cs rest : List Char} {token : Token} {tokens : List Token}

/-- The text ends here, or goes on with a space. -/
def Apart (rest : List Char) : Prop := rest = [] ∨ ∃ cs, rest = ' ' :: cs

theorem takeWhile_append_of_apart {q : Char → Bool} (hrest : Apart rest) (hspace : q ' ' = false)
    (hcs : ∀ c ∈ cs, q c = true) : (cs ++ rest).takeWhile q = cs := by
  rw [List.takeWhile_append_of_pos hcs]
  rcases hrest with rfl | ⟨rest, rfl⟩ <;> simp [hspace]

theorem wordToken_of_not_mem {name : String} (h : name ∉ keywords) :
    wordToken name = .ident name := by
  unfold wordToken
  split <;> simp_all [keywords]

theorem digitsValue_eq (digits : List Char) :
    digitsValue digits = Nat.ofDigitChars 10 digits 0 := by
  simp [digitsValue, Nat.ofDigitChars, Nat.mul_comm]

theorem numberKind_toDigits {value : Nat} (h : value ≤ maxLiteral) :
    numberKind (Nat.toDigits 10 value) = .token (.number value) := by
  have hvalue : digitsValue (Nat.toDigits 10 value) = value := by
    rw [digitsValue_eq, Nat.ofDigitChars_ten_toDigits]
  rw [numberKind, hvalue, if_pos h]

theorem head_ident {name : String} (h : isName name = true) (hrest : Apart rest) :
    ∃ c cs, name.toList = c :: cs ∧ isSpace c = false ∧
      head c (cs ++ rest) = (.token (.ident name), cs.length) := by
  simp only [isName, Bool.and_eq_true, Bool.not_eq_true', List.contains_eq_mem,
    decide_eq_false_iff_not, List.all_eq_true] at h
  obtain ⟨⟨hstart, hchars⟩, hkeyword⟩ := h
  cases hname : name.toList with
  | nil => simp [hname] at hstart
  | cons c cs =>
      simp only [hname, List.head?_cons, Option.any_some] at hstart
      rw [hname, List.forall_mem_cons] at hchars
      refine ⟨c, cs, rfl, (not_blank hstart rfl).1, ?_⟩
      rw [head_of_isWordStart hstart, takeWhile_append_of_apart hrest rfl hchars.2, ← hname,
        String.ofList_toList, wordToken_of_not_mem hkeyword]

theorem head_number {value : Nat} (h : value ≤ maxLiteral) (hrest : Apart rest) :
    ∃ c cs, Nat.toDigits 10 value = c :: cs ∧ isSpace c = false ∧
      head c (cs ++ rest) = (.token (.number value), cs.length) := by
  have hdigits : ∀ d ∈ Nat.toDigits 10 value, d.isDigit = true :=
    fun d => Nat.isDigit_of_mem_toDigits (by decide) (by decide)
  have hkind := numberKind_toDigits h
  cases hvalue : Nat.toDigits 10 value with
  | nil => exact absurd hvalue Nat.toDigits_ne_nil
  | cons c cs =>
      rw [hvalue, List.forall_mem_cons] at hdigits
      refine ⟨c, cs, rfl, (not_blank hdigits.1 rfl).1, ?_⟩
      rw [head_of_isDigit hdigits.1, takeWhile_append_of_apart hrest rfl hdigits.2, ← hvalue, hkind]

/-- **A token is as long as its spelling** where nothing follows or a space does. -/
theorem head_spelling (htoken : token.isSpellable = true) (hrest : Apart rest) :
    ∃ c cs, token.spelling = c :: cs ∧ isSpace c = false ∧
      head c (cs ++ rest) = (.token token, cs.length) := by
  cases token with
  | ident name => exact head_ident htoken hrest
  | number value =>
      obtain ⟨hnonneg, hle⟩ := of_decide_eq_true htoken
      obtain ⟨n, rfl⟩ := Int.eq_ofNat_of_zero_le hnonneg
      have hspelling : (Token.number n).spelling = Nat.toDigits 10 n := Nat.toList_repr
      rw [hspelling]
      exact head_number (Int.ofNat_le.mp hle) hrest
  -- the spelling of the others is known, and so is what comes behind it
  | op op =>
      rcases op with op | rel
      · cases op <;> refine ⟨_, _, rfl, rfl, ?_⟩ <;> obtain rfl | ⟨rest, rfl⟩ := hrest <;> rfl
      · cases rel <;> refine ⟨_, _, rfl, rfl, ?_⟩ <;> obtain rfl | ⟨rest, rfl⟩ := hrest <;> rfl
  | _ =>
      refine ⟨_, _, rfl, rfl, ?_⟩
      obtain rfl | ⟨rest, rfl⟩ := hrest <;> rfl

theorem pieces_of_head {kind : Kind} (h : head c (cs ++ rest) = (kind, cs.length)) :
    pieces (c :: (cs ++ rest)) = ⟨kind, c :: cs⟩ :: pieces rest := by
  rw [pieces, h]
  simp

theorem pieces_spelling (htoken : token.isSpellable = true) (hrest : Apart rest) :
    pieces (token.spelling ++ rest) = token.piece :: pieces rest := by
  obtain ⟨c, cs, hspelling, -, hhead⟩ := head_spelling htoken hrest
  rw [Token.piece, hspelling]
  exact pieces_of_head hhead

/-- The space between two tokens. -/
def gap : Piece := ⟨.blank, [' ']⟩

theorem pieces_space_spelling (htoken : token.isSpellable = true) (hrest : Apart rest) :
    pieces (' ' :: (token.spelling ++ rest)) = gap :: token.piece :: pieces rest := by
  obtain ⟨c, cs, hspelling, hspace, -⟩ := head_spelling htoken hrest
  rw [← pieces_spelling htoken hrest, hspelling]
  show pieces (' ' :: ([] ++ c :: (cs ++ rest))) = _
  apply pieces_of_head
  show (Kind.blank, ((c :: (cs ++ rest)).takeWhile isSpace).length) = _
  rw [List.takeWhile_cons_of_neg (by simp [hspace])]

theorem apart_spellings (tokens : List Token) :
    Apart (tokens.flatMap fun t => ' ' :: t.spelling) := by
  cases tokens with
  | nil => exact .inl rfl
  | cons token tokens => exact .inr ⟨_, rfl⟩

theorem pieces_spellings (htokens : ∀ token ∈ tokens, token.isSpellable = true) :
    pieces (tokens.flatMap fun t => ' ' :: t.spelling) =
      tokens.flatMap fun t => [gap, t.piece] := by
  induction tokens with
  | nil => rw [List.flatMap_nil, List.flatMap_nil, pieces]
  | cons token tokens ih =>
      rw [List.forall_mem_cons] at htokens
      rw [List.flatMap_cons, List.flatMap_cons, ← ih htokens.2]
      exact pieces_space_spelling htokens.1 (apart_spellings tokens)

/-- The tokens among pieces get their places. -/
theorem exists_locate (source : Source) (offset : Nat) (tokens : List Token) :
    ∃ lexemes : List Lexeme, lexemes.map Lexeme.token = tokens ∧
      locate source offset (tokens.flatMap fun t => [gap, t.piece]) = lexemes.map .ok := by
  induction tokens generalizing offset with
  | nil => exact ⟨[], rfl, rfl⟩
  | cons token tokens ih =>
      obtain ⟨lexemes, rfl, hlocate⟩ := ih _
      exact ⟨⟨token, _⟩ :: lexemes, rfl, congrArg (_ :: ·) hlocate⟩

end Scan

/-- **What is spelled can be read**: the text has the tokens that were spelled. -/
theorem tokenize_spell {tokens : List Token}
    (htokens : ∀ token ∈ tokens, token.isSpellable = true) :
    ∃ lexemes, tokenize (spell tokens) = .ok lexemes ∧ lexemes.map Lexeme.token = tokens := by
  simp only [tokenize_eq_ok, scan]
  cases tokens with
  | nil =>
      have hpieces : Scan.pieces [] = [] := by rw [Scan.pieces]
      exact ⟨[], congrArg (Scan.locate [] 0) hpieces, rfl⟩
  | cons token tokens =>
      rw [List.forall_mem_cons] at htokens
      have hpieces : Scan.pieces (spell (token :: tokens)) =
          token.piece :: tokens.flatMap fun t => [Scan.gap, t.piece] := by
        rw [spell_cons, Scan.pieces_spelling htokens.1 (Scan.apart_spellings tokens),
          Scan.pieces_spellings htokens.2]
      obtain ⟨lexemes, rfl, hlocate⟩ := Scan.exists_locate (spell (token :: tokens)) _ tokens
      rw [hpieces]
      exact ⟨⟨token, _⟩ :: lexemes, congrArg (_ :: ·) hlocate, rfl⟩

end SixReg
