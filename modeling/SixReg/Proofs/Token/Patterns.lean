import Mathlib.Data.List.TakeWhile
import SixReg.Proofs.Token.Spelling

/-!
# Lexical patterns

What the words of the language look like, said by patterns and not by the way they are found:

    white space   [ \t\r\n]+
    comments      #[^\n]*   //[^\n]*
    words         [A-Za-z_][A-Za-z0-9_]*
    numbers       [0-9]+
    literals      keywords and signs, spelled in one way

A pattern is compared with a whole text (`Pattern.Matches`). Of all the prefixes of a text that
some pattern matches, a piece is the longest (`Longest`); a keyword matches the pattern for words
too, and is a keyword all the same (`Writes`). The main result is `Scan.reads_head`: the piece at
the head of a text is what the patterns say, and where no pattern matches it is one character. The
patterns say only one thing (`Scan.Kind.Reads.unique`), so they leave no choice to who cuts a text.
-/

namespace SixReg

/-! ## Patterns -/

/-- A class of characters: those in one of the ranges, both ends included, or all others. -/
structure CharClass where
  ranges : List (Char × Char)
  negated : Bool

/-- Whether the class has the character. -/
def CharClass.has (k : CharClass) (c : Char) : Bool :=
  (k.ranges.any fun range => range.1 ≤ c && c ≤ range.2) != k.negated

/-- A regular expression of the kinds that the language needs. -/
inductive Pattern where
  | literal (text : List Char)
  | one (k : CharClass)
  | many (k : CharClass)
  | seq (first second : Pattern)

/-- The pattern describes the whole text. -/
inductive Pattern.Matches : Pattern → List Char → Prop where
  | literal {text : List Char} : Matches (.literal text) text
  | one {k : CharClass} {c : Char} (h : k.has c = true) : Matches (.one k) [c]
  | many {k : CharClass} {text : List Char} (h : ∀ c ∈ text, k.has c = true) :
      Matches (.many k) text
  | seq {p q : Pattern} {s t : List Char} (hp : p.Matches s) (hq : q.Matches t) :
      Matches (.seq p q) (s ++ t)

namespace CharClass

/-- `[ \t\r\n]` -/
def space : CharClass := ⟨[(' ', ' '), ('\t', '\t'), ('\r', '\r'), ('\n', '\n')], false⟩

/-- `[^\n]` -/
def notFeed : CharClass := ⟨[('\n', '\n')], true⟩

/-- `[A-Za-z_]` -/
def wordStart : CharClass := ⟨[('A', 'Z'), ('a', 'z'), ('_', '_')], false⟩

/-- `[A-Za-z0-9_]` -/
def wordChar : CharClass := ⟨[('A', 'Z'), ('a', 'z'), ('0', '9'), ('_', '_')], false⟩

/-- `[0-9]` -/
def digit : CharClass := ⟨[('0', '9')], false⟩

end CharClass

namespace Pattern

/-- `[ \t\r\n]+` -/
def white : Pattern := .seq (.one .space) (.many .space)

/-- `#[^\n]*` -/
def hashComment : Pattern := .seq (.literal ['#']) (.many .notFeed)

/-- `//[^\n]*` -/
def slashComment : Pattern := .seq (.literal ['/', '/']) (.many .notFeed)

/-- `[A-Za-z_][A-Za-z0-9_]*` -/
def word : Pattern := .seq (.one .wordStart) (.many .wordChar)

/-- `[0-9]+` -/
def number : Pattern := .seq (.one .digit) (.many .digit)

/-- What is left out between tokens. -/
def skips : List Pattern := [white, hashComment, slashComment]

end Pattern

/-- The keywords. -/
def wordLiterals : List (List Char × Token) :=
  [(['v', 'a', 'r'], .kwVar), (['p', 'r', 'i', 'n', 't'], .kwPrint), (['i', 'f'], .kwIf),
    (['e', 'l', 's', 'e'], .kwElse), (['w', 'h', 'i', 'l', 'e'], .kwWhile),
    (['r', 'o', 'l'], .op (.arith .rol)), (['r', 'o', 'r'], .op (.arith .ror))]

/-- The tokens that are written with two signs. -/
def pairLiterals : List (List Char × Token) :=
  [(['=', '='], .op (.compare .eq)), (['!', '='], .op (.compare .ne)),
    (['<', '<'], .op (.arith .shl)), (['>', '>'], .op (.arith .shr)),
    (['>', '='], .op (.compare .ge)), (['<', '='], .op (.compare .le))]

/-- The tokens that are written with one sign. -/
def signLiterals : List (List Char × Token) :=
  [(['='], .assign), (['+'], .op (.arith .add)), (['-'], .op (.arith .sub)),
    (['*'], .op (.arith .mul)), (['/'], .op (.arith .div)), (['%'], .op (.arith .rem)),
    (['>'], .op (.compare .gt)), (['<'], .op (.compare .lt)), (['&'], .op (.arith .and)),
    (['|'], .op (.arith .or)), (['^'], .op (.arith .xor)), (['~'], .tilde),
    (['\x7b'], .openBrace), (['\x7d'], .closeBrace), (['('], .openParen), ([')'], .closeParen),
    ([':'], .colon), ([';'], .semicolon)]

/-- The tokens that are written in one way only. -/
def literals : List (List Char × Token) := wordLiterals ++ pairLiterals ++ signLiterals

/-- All patterns. -/
def Pattern.all : List Pattern :=
  skips ++ literals.map (fun entry => .literal entry.1) ++ [word, number]

/-- The text is the longest of the prefixes of `text ++ rest` that a pattern matches. -/
structure Longest (text rest : List Char) : Prop where
  matched : ∃ p ∈ Pattern.all, p.Matches text
  longest : ∀ p ∈ Pattern.all, ∀ w, w <+: text ++ rest → p.Matches w → w.length ≤ text.length

/-- What a token is written as. A word that is spelled like a literal is that literal. -/
inductive Writes : Token → List Char → Prop where
  | literal {text : List Char} {token : Token} (h : (text, token) ∈ literals) : Writes token text
  | ident {text : List Char} (h : Pattern.word.Matches text)
      (hliteral : ∀ entry ∈ literals, entry.1 ≠ text) : Writes (.ident (String.ofList text)) text
  | number {text : List Char} (h : Pattern.number.Matches text)
      (hvalue : Nat.ofDigitChars 10 text 0 ≤ maxLiteral) :
      Writes (.number (Nat.ofDigitChars 10 text 0)) text

namespace Longest

variable {text text' rest rest' : List Char}

theorem not_stray (h : Longest text rest) (hsame : text ++ rest = text' ++ rest') :
    ¬ ∀ p ∈ Pattern.all, ∀ w, w <+: text' ++ rest' → ¬ p.Matches w := by
  intro hstray
  obtain ⟨p, hp, hmatch⟩ := h.matched
  exact hstray p hp text (hsame ▸ List.prefix_append text rest) hmatch

theorem length_le (h : Longest text rest) (h' : Longest text' rest')
    (hsame : text ++ rest = text' ++ rest') : text.length ≤ text'.length := by
  obtain ⟨p, hp, hmatch⟩ := h.matched
  exact h'.longest p hp text (hsame ▸ List.prefix_append text rest) hmatch

end Longest

/-! ## Classes and runs -/

namespace Pattern

variable {k k' : CharClass} {c : Char} {cs text w l : List Char}

theorem matches_one_many : (seq (one k) (many k')).Matches text ↔
    ∃ c cs, text = c :: cs ∧ k.has c = true ∧ ∀ d ∈ cs, k'.has d = true := by
  constructor
  · intro h
    cases h with
    | seq hone hmany =>
        cases hone with
        | one hc =>
            cases hmany with
            | many hcs => exact ⟨_, _, rfl, hc, hcs⟩
  · rintro ⟨c, cs, rfl, hc, hcs⟩
    exact .seq (.one hc) (.many hcs)

theorem matches_literal_many : (seq (literal l) (many k)).Matches text ↔
    ∃ cs, text = l ++ cs ∧ ∀ d ∈ cs, k.has d = true := by
  constructor
  · intro h
    cases h with
    | seq hliteral hmany =>
        cases hliteral with
        | literal =>
            cases hmany with
            | many hcs => exact ⟨_, rfl, hcs⟩
  · rintro ⟨cs, rfl, hcs⟩
    exact .seq .literal (.many hcs)

theorem matches_literal : (literal l).Matches text ↔ text = l := by
  constructor
  · rintro ⟨⟩
    rfl
  · rintro rfl
    exact .literal

end Pattern

namespace CharClass

theorem singleton_has (d c : Char) : (decide (d ≤ c) && decide (c ≤ d)) = (c == d) := by
  rw [Bool.eq_iff_iff, Bool.and_eq_true, decide_eq_true_iff, decide_eq_true_iff, beq_iff_eq]
  constructor
  · rintro ⟨hle, hge⟩
    exact Char.le_antisymm hge hle
  · rintro rfl
    exact ⟨Char.le_refl c, Char.le_refl c⟩

theorem space_has (c : Char) : space.has c = Scan.isSpace c := by
  simp [space, has, singleton_has, Scan.isSpace, Bool.or_assoc]

theorem notFeed_has (c : Char) : notFeed.has c = Scan.inComment c := by
  simp [notFeed, has, singleton_has, Scan.inComment, bne]

theorem upper_has (c : Char) : (decide ('A' ≤ c) && decide (c ≤ 'Z')) = c.isUpper := by
  show _ = decide (c.val ≥ 65 ∧ c.val ≤ 90)
  rw [Bool.decide_and]
  rfl

theorem lower_has (c : Char) : (decide ('a' ≤ c) && decide (c ≤ 'z')) = c.isLower := rfl

theorem isAlpha_eq (c : Char) : c.isAlpha = (c.isUpper || c.isLower) := rfl

theorem digit_has (c : Char) : digit.has c = c.isDigit := by
  simp [digit, has, Char.isDigit, Char.le_def]

theorem wordStart_has (c : Char) : wordStart.has c = Scan.isWordStart c := by
  simp [wordStart, has, singleton_has, upper_has, lower_has, Scan.isWordStart, isAlpha_eq,
    Bool.or_assoc]

theorem wordChar_has (c : Char) : wordChar.has c = Scan.isWordChar c := by
  have hdigit : (decide ('0' ≤ c) && decide (c ≤ '9')) = c.isDigit := by
    simp [← digit_has, digit, has]
  simp [wordChar, has, singleton_has, upper_has, lower_has, hdigit, Scan.isWordChar,
    Char.isAlphanum, isAlpha_eq, Bool.or_assoc]

end CharClass

namespace Pattern

variable {text : List Char}

theorem matches_white : white.Matches text ↔
    ∃ c cs, text = c :: cs ∧ Scan.isSpace c = true ∧ ∀ d ∈ cs, Scan.isSpace d = true := by
  simp only [white, matches_one_many, CharClass.space_has]

theorem matches_hashComment : hashComment.Matches text ↔
    ∃ cs, text = '#' :: cs ∧ ∀ d ∈ cs, Scan.inComment d = true := by
  simp only [hashComment, matches_literal_many, CharClass.notFeed_has, List.singleton_append]

theorem matches_slashComment : slashComment.Matches text ↔
    ∃ cs, text = '/' :: '/' :: cs ∧ ∀ d ∈ cs, Scan.inComment d = true := by
  simp only [slashComment, matches_literal_many, CharClass.notFeed_has, List.cons_append,
    List.nil_append]

theorem matches_word : word.Matches text ↔
    ∃ c cs, text = c :: cs ∧ Scan.isWordStart c = true ∧ ∀ d ∈ cs, Scan.isWordChar d = true := by
  simp only [word, matches_one_many, CharClass.wordStart_has, CharClass.wordChar_has]

theorem matches_number : number.Matches text ↔
    ∃ c cs, text = c :: cs ∧ c.isDigit = true ∧ ∀ d ∈ cs, d.isDigit = true := by
  simp only [number, matches_one_many, CharClass.digit_has]

end Pattern

/-! ## Literals -/

namespace Scan

variable {c d : Char} {cs text : List Char} {token : Token}

theorem matches_word_of_mem (h : (text, token) ∈ wordLiterals) : Pattern.word.Matches text := by
  have hall : ∀ entry ∈ wordLiterals,
      (entry.1.head?.any isWordStart && entry.1.tail.all isWordChar) = true := by decide
  have hentry := hall _ h
  rw [Pattern.matches_word]
  cases text with
  | nil => cases hentry
  | cons c cs =>
      simp only [List.head?_cons, Option.any_some, List.tail_cons, Bool.and_eq_true,
        List.all_eq_true] at hentry
      exact ⟨c, cs, rfl, hentry⟩

/-- A word is the keyword that it is spelled like, and if there is none an identifier. -/
theorem wordToken_cases (text : List Char) :
    (text, wordToken (String.ofList text)) ∈ wordLiterals ∨
      (wordToken (String.ofList text) = .ident (String.ofList text) ∧
        ∀ entry ∈ wordLiterals, entry.1 ≠ text) := by
  by_cases h : ∃ entry ∈ wordLiterals, entry.1 = text
  · obtain ⟨entry, hentry, rfl⟩ := h
    have hall : ∀ entry ∈ wordLiterals, wordToken (String.ofList entry.1) = entry.2 := by decide
    left
    rw [hall entry hentry]
    exact hentry
  · have hkeywords : keywords = wordLiterals.map fun entry => String.ofList entry.1 := by decide
    right
    constructor
    · apply wordToken_of_not_mem
      rw [hkeywords, List.mem_map]
      rintro ⟨entry, hentry, htext⟩
      exact h ⟨entry, hentry, String.ofList_injective htext⟩
    · intro entry hentry htext
      exact h ⟨entry, hentry, htext⟩

theorem mem_pairLiterals (h : pairToken? c d = some token) : ([c, d], token) ∈ pairLiterals := by
  unfold pairToken? at h
  split at h <;> cases h <;> simp [pairLiterals]

theorem mem_signLiterals (h : signToken? c = some token) : ([c], token) ∈ signLiterals := by
  unfold signToken? at h
  split at h <;> cases h <;> simp [signLiterals]

theorem head_of_mem_pairLiterals (h : (text, token) ∈ pairLiterals) :
    ∃ c d, text = [c, d] ∧ ∀ cs, head c (d :: cs) = (.token token, 1) := by
  simp only [pairLiterals, List.mem_cons, List.not_mem_nil, or_false, Prod.mk.injEq] at h
  rcases h with ⟨rfl, rfl⟩ | ⟨rfl, rfl⟩ | ⟨rfl, rfl⟩ | ⟨rfl, rfl⟩ | ⟨rfl, rfl⟩ | ⟨rfl, rfl⟩ <;>
    exact ⟨_, _, rfl, fun _ => rfl⟩

theorem numberKind_ne_unexpected (digits : List Char) :
    numberKind digits ≠ .fault .unexpectedCharacter := by
  unfold numberKind
  split <;> nofun

/-- A character that is reported is no sign. -/
theorem signToken?_eq_none (h : (head c cs).1 = .fault .unexpectedCharacter) :
    signToken? c = none := by
  unfold head at h
  split at h
  · cases h
  split at h
  · cases h
  split at h
  · cases h
  split at h
  · exact absurd h (numberKind_ne_unexpected _)
  unfold signs at h
  split at h
  · cases h
  split at h
  · cases h
  · assumption

theorem signToken?_of_mem (h : (text, token) ∈ signLiterals) :
    ∃ c, text = [c] ∧ signToken? c = some token := by
  have hlength : ∀ entry ∈ signLiterals, entry.1.length = 1 := by decide
  have hall : ∀ entry ∈ signLiterals, entry.1.head?.bind signToken? = some entry.2 := by decide
  obtain ⟨c, rfl⟩ := List.length_eq_one_iff.mp (hlength _ h)
  exact ⟨c, rfl, hall _ h⟩

end Scan

/-! ## The piece at the head of a text -/

namespace Scan

variable {c : Char} {cs w : List Char} {token : Token} {kind : Kind} {n : Nat} {q : Char → Bool}

theorem length_le_takeWhile (hbegins : w <+: cs) (hall : ∀ d ∈ w, q d = true) :
    w.length ≤ (cs.takeWhile q).length := by
  obtain ⟨rest, rfl⟩ := hbegins
  rw [List.takeWhile_append_of_pos hall, List.length_append]
  exact Nat.le_add_right _ _

theorem take_length_takeWhile (q : Char → Bool) (cs : List Char) :
    cs.take (cs.takeWhile q).length = cs.takeWhile q :=
  (List.prefix_iff_eq_take.mp (List.takeWhile_prefix q)).symm

/-- The piece at the head of `c :: cs` reaches as far as `w`, and is no stray character. -/
def Covers (c : Char) (cs w : List Char) : Prop :=
  w.length ≤ (head c cs).2 + 1 ∧ (head c cs).1 ≠ .fault .unexpectedCharacter

/-- A piece that is a run of characters covers every shorter run of them. -/
theorem covers_of_run {ds : List Char} (hhead : head c cs = (kind, (cs.takeWhile q).length))
    (hkind : kind ≠ .fault .unexpectedCharacter) (hbegins : ds <+: cs)
    (hds : ∀ d ∈ ds, q d = true) : Covers c cs (c :: ds) := by
  rw [Covers, hhead]
  exact ⟨Nat.succ_le_succ (length_le_takeWhile hbegins hds), hkind⟩

/-- What is skipped is one character and a run of others behind it. -/
theorem head_of_skip {p : Pattern} (hp : p ∈ Pattern.skips) (hw : p.Matches w) :
    ∃ (c : Char) (ds : List Char) (q : Char → Bool), w = c :: ds ∧ (∀ d ∈ ds, q d = true) ∧
      ∀ cs, ds <+: cs → head c cs = (.blank, (cs.takeWhile q).length) := by
  simp only [Pattern.skips, List.mem_cons, List.not_mem_nil, or_false] at hp
  rcases hp with rfl | rfl | rfl
  · obtain ⟨c, ds, rfl, hspace, hds⟩ := Pattern.matches_white.mp hw
    refine ⟨c, ds, isSpace, rfl, hds, ?_⟩
    intro cs _
    rw [head, if_pos hspace]
  · obtain ⟨ds, rfl, hds⟩ := Pattern.matches_hashComment.mp hw
    exact ⟨'#', ds, inComment, rfl, hds, fun _ _ => rfl⟩
  · -- the second slash is in the comment
    obtain ⟨ds, rfl, hds⟩ := Pattern.matches_slashComment.mp hw
    refine ⟨'/', '/' :: ds, inComment, rfl, List.forall_mem_cons.mpr ⟨rfl, hds⟩, ?_⟩
    rintro _ ⟨rest, rfl⟩
    rfl

theorem covers_of_skip {p : Pattern} (hp : p ∈ Pattern.skips) (hw : p.Matches w)
    (hbegins : w <+: c :: cs) : Covers c cs w := by
  obtain ⟨d, ds, q, rfl, hds, hhead⟩ := head_of_skip hp hw
  obtain ⟨rfl, htail⟩ := List.cons_prefix_cons.mp hbegins
  exact covers_of_run (hhead cs htail) (by simp) htail hds

theorem covers_of_word (hw : Pattern.word.Matches w) (hbegins : w <+: c :: cs) :
    Covers c cs w := by
  obtain ⟨d, ds, rfl, hstart, hds⟩ := Pattern.matches_word.mp hw
  obtain ⟨rfl, htail⟩ := List.cons_prefix_cons.mp hbegins
  exact covers_of_run (head_of_isWordStart hstart) (by simp) htail hds

theorem covers_of_number (hw : Pattern.number.Matches w) (hbegins : w <+: c :: cs) :
    Covers c cs w := by
  obtain ⟨d, ds, rfl, hdigit, hds⟩ := Pattern.matches_number.mp hw
  obtain ⟨rfl, htail⟩ := List.cons_prefix_cons.mp hbegins
  exact covers_of_run (head_of_isDigit hdigit) (numberKind_ne_unexpected _) htail hds

theorem covers_of_literal (hw : (w, token) ∈ literals) (hbegins : w <+: c :: cs) :
    Covers c cs w := by
  simp only [literals, List.mem_append] at hw
  rcases hw with (hword | hpair) | hsign
  · exact covers_of_word (matches_word_of_mem hword) hbegins
  · obtain ⟨a, b, rfl, hhead⟩ := head_of_mem_pairLiterals hpair
    obtain ⟨rfl, rest, rfl⟩ := List.cons_prefix_cons.mp hbegins
    rw [Covers, List.singleton_append, hhead]
    exact ⟨Nat.le_refl _, by simp⟩
  · obtain ⟨a, rfl, htoken⟩ := signToken?_of_mem hsign
    obtain ⟨rfl, -⟩ := List.cons_prefix_cons.mp hbegins
    refine ⟨Nat.le_add_left _ _, ?_⟩
    intro hfault
    rw [signToken?_eq_none hfault] at htoken
    cases htoken

/-- **No pattern reaches further than the piece at the head of a text.** -/
theorem covers_of_matches {p : Pattern} (hp : p ∈ Pattern.all) (hw : p.Matches w)
    (hbegins : w <+: c :: cs) : Covers c cs w := by
  simp only [Pattern.all, List.mem_append, List.mem_map, List.mem_cons, List.not_mem_nil,
    or_false] at hp
  rcases hp with (hskip | ⟨⟨text, token⟩, hentry, rfl⟩) | rfl | rfl
  · exact covers_of_skip hskip hw hbegins
  · rw [Pattern.matches_literal] at hw
    subst hw
    exact covers_of_literal hentry hbegins
  · exact covers_of_word hw hbegins
  · exact covers_of_number hw hbegins

/-- What the text of a piece is in front of `rest`, going by the patterns. -/
def Kind.Reads : Kind → List Char → List Char → Prop
  | .blank, text, rest => Longest text rest ∧ ∃ p ∈ Pattern.skips, p.Matches text
  | .token token, text, rest => Longest text rest ∧ Writes token text
  | .fault .numberOutOfRange, text, rest =>
    Longest text rest ∧ Pattern.number.Matches text ∧ maxLiteral < Nat.ofDigitChars 10 text 0
  | .fault .unexpectedCharacter, text, rest =>
    (∃ c, text = [c]) ∧ ∀ p ∈ Pattern.all, ∀ w, w <+: text ++ rest → ¬ p.Matches w

theorem longest_head {p : Pattern} (hp : p ∈ Pattern.all) (h : (head c cs).2 = n)
    (hmatch : p.Matches (c :: cs.take n)) : Longest (c :: cs.take n) (cs.drop n) := by
  refine ⟨⟨p, hp, hmatch⟩, ?_⟩
  intro p' hp' w hbegins hw
  rw [List.cons_append, List.take_append_drop] at hbegins
  have hlength := hbegins.length_le
  have hcover := (covers_of_matches hp' hw hbegins).1
  simp only [List.length_cons, List.length_take] at hlength ⊢
  omega

theorem mem_all_of_mem_skips {p : Pattern} (hp : p ∈ Pattern.skips) : p ∈ Pattern.all := by
  simp only [Pattern.all, List.mem_append]
  exact .inl (.inl hp)

theorem reads_blank {p : Pattern} (hp : p ∈ Pattern.skips)
    (hn : (head c cs).2 = (cs.takeWhile q).length) (hmatch : p.Matches (c :: cs.takeWhile q)) :
    Kind.blank.Reads (c :: cs.take (cs.takeWhile q).length)
      (cs.drop (cs.takeWhile q).length) := by
  rw [← take_length_takeWhile] at hmatch
  exact ⟨longest_head (mem_all_of_mem_skips hp) hn hmatch, p, hp, hmatch⟩

theorem writes_word (hstart : isWordStart c = true) (hcs : ∀ d ∈ cs, isWordChar d = true) :
    Writes (wordToken (String.ofList (c :: cs))) (c :: cs) := by
  rcases wordToken_cases (c :: cs) with hkeyword | ⟨hident, hother⟩
  · apply Writes.literal
    simp only [literals, List.mem_append]
    exact .inl (.inl hkeyword)
  · rw [hident]
    apply Writes.ident (Pattern.matches_word.mpr ⟨c, cs, rfl, hstart, hcs⟩)
    have hsigns : ∀ entry ∈ pairLiterals ++ signLiterals,
        entry.1.head?.any isWordStart = false := by decide
    intro entry hentry htext
    rw [literals, List.append_assoc, List.mem_append] at hentry
    rcases hentry with hword | hsign
    · exact hother entry hword htext
    · have hfalse := hsigns entry hsign
      simp [htext, hstart] at hfalse

theorem mem_all_of_mem_literals (h : (w, token) ∈ literals) : .literal w ∈ Pattern.all := by
  simp only [Pattern.all, List.mem_append, List.mem_map]
  exact .inl (.inr ⟨_, h, rfl⟩)

theorem reads_literal (hn : (head c cs).2 = n) (hliteral : (c :: cs.take n, token) ∈ literals) :
    (Kind.token token).Reads (c :: cs.take n) (cs.drop n) :=
  ⟨longest_head (mem_all_of_mem_literals hliteral) hn .literal, .literal hliteral⟩

theorem reads_signs (hhead : head c cs = signs c cs) (h : signs c cs = (kind, n)) :
    kind.Reads (c :: cs.take n) (cs.drop n) := by
  have hn : (head c cs).2 = n := by rw [hhead, h]
  unfold signs at h
  split at h
  · next token htoken =>
      cases h
      obtain ⟨d, hd, hpair⟩ := Option.bind_eq_some_iff.mp htoken
      obtain ⟨ds, rfl⟩ := List.head?_eq_some_iff.mp hd
      apply reads_literal hn
      simp only [literals, List.mem_append]
      exact .inl (.inr (mem_pairLiterals hpair))
  split at h
  · next token htoken =>
      cases h
      apply reads_literal hn
      simp only [literals, List.mem_append]
      exact .inr (mem_signLiterals htoken)
  · next hpair _ hsign =>
      cases h
      refine ⟨⟨c, rfl⟩, ?_⟩
      intro p hp w hbegins hw
      have hcovers : Covers c cs w := covers_of_matches hp hw hbegins
      apply hcovers.2
      rw [hhead, signs, hpair, hsign]

theorem reads_comment (hspace : isSpace c = false)
    (hcomment : (c == '#' || (c == '/' && cs.head? == some '/')) = true)
    (h : head c cs = (kind, n)) : kind.Reads (c :: cs.take n) (cs.drop n) := by
  have hn : (head c cs).2 = n := congrArg Prod.snd h
  rw [head, if_neg (Bool.eq_false_iff.mp hspace), if_pos hcomment] at h
  cases h
  simp only [Bool.or_eq_true, Bool.and_eq_true, beq_iff_eq] at hcomment
  rcases hcomment with rfl | ⟨rfl, hnext⟩
  · apply reads_blank (p := .hashComment) (by simp [Pattern.skips]) hn
    apply Pattern.matches_hashComment.mpr
    exact ⟨cs.takeWhile inComment, rfl, fun _ => List.mem_takeWhile_imp⟩
  · obtain ⟨ds, rfl⟩ := List.head?_eq_some_iff.mp hnext
    apply reads_blank (p := .slashComment) (by simp [Pattern.skips]) hn
    apply Pattern.matches_slashComment.mpr
    exact ⟨ds.takeWhile inComment, rfl, fun _ => List.mem_takeWhile_imp⟩

theorem reads_word (hword : isWordStart c = true) (h : head c cs = (kind, n)) :
    kind.Reads (c :: cs.take n) (cs.drop n) := by
  have hn : (head c cs).2 = n := congrArg Prod.snd h
  rw [head_of_isWordStart hword] at h
  obtain ⟨rfl, hlength⟩ := Prod.mk.inj h
  have htake : cs.takeWhile isWordChar = cs.take n := by rw [← hlength, take_length_takeWhile]
  have htail : ∀ d ∈ cs.take n, isWordChar d = true := by
    rw [← htake]
    exact fun _ => List.mem_takeWhile_imp
  have hmem : Pattern.word ∈ Pattern.all := by simp [Pattern.all]
  rw [htake]
  refine ⟨longest_head hmem hn ?_, writes_word hword htail⟩
  exact Pattern.matches_word.mpr ⟨c, _, rfl, hword, htail⟩

theorem reads_number (hdigit : c.isDigit = true) (h : head c cs = (kind, n)) :
    kind.Reads (c :: cs.take n) (cs.drop n) := by
  have hn : (head c cs).2 = n := congrArg Prod.snd h
  rw [head_of_isDigit hdigit] at h
  obtain ⟨rfl, hlength⟩ := Prod.mk.inj h
  have htake : cs.takeWhile Char.isDigit = cs.take n := by rw [← hlength, take_length_takeWhile]
  have htail : ∀ d ∈ cs.take n, d.isDigit = true := by
    rw [← htake]
    exact fun _ => List.mem_takeWhile_imp
  have hmem : Pattern.number ∈ Pattern.all := by simp [Pattern.all]
  have hmatch := Pattern.matches_number.mpr ⟨c, _, rfl, hdigit, htail⟩
  have hlongest := longest_head hmem hn hmatch
  rw [htake, numberKind, digitsValue_eq]
  split
  · next hvalue => exact ⟨hlongest, .number hmatch hvalue⟩
  · next hvalue => exact ⟨hlongest, hmatch, Nat.lt_of_not_le hvalue⟩

/-- **A piece is what the patterns say**: the longest text that one of them matches, and where none
does a single character. -/
theorem reads_head (h : head c cs = (kind, n)) : kind.Reads (c :: cs.take n) (cs.drop n) := by
  by_cases hspace : isSpace c = true
  · have hn : (head c cs).2 = n := congrArg Prod.snd h
    rw [head, if_pos hspace] at h
    cases h
    apply reads_blank (p := .white) List.mem_cons_self hn
    exact Pattern.matches_white.mpr ⟨c, _, rfl, hspace, fun _ => List.mem_takeWhile_imp⟩
  by_cases hcomment : (c == '#' || (c == '/' && cs.head? == some '/')) = true
  · exact reads_comment (Bool.eq_false_iff.mpr hspace) hcomment h
  by_cases hword : isWordStart c = true
  · exact reads_word hword h
  by_cases hdigit : c.isDigit = true
  · exact reads_number hdigit h
  have hsigns : head c cs = signs c cs := by
    rw [head, if_neg hspace, if_neg hcomment, if_neg hword, if_neg hdigit]
  exact reads_signs hsigns (hsigns.symm.trans h)

/-! ## The patterns leave no choice -/

variable {kind' : Kind} {text text' rest rest' : List Char}

theorem head_of_mem_literals (h : (c :: cs, token) ∈ literals) : (head c cs).1 = .token token := by
  have hall : ∀ entry ∈ literals,
      (entry.1.head?.map fun d => (head d entry.1.tail).1) = some (.token entry.2) := by decide
  exact Option.some.inj (hall _ h)

theorem head_of_matches_number (h : Pattern.number.Matches (c :: cs)) :
    (head c cs).1 = numberKind (c :: cs) := by
  obtain ⟨d, ds, htext, hdigit, hds⟩ := Pattern.matches_number.mp h
  cases htext
  rw [head_of_isDigit hdigit, List.takeWhile_eq_self_iff.mpr hds]

theorem head_of_writes (h : Writes token (c :: cs)) : (head c cs).1 = .token token := by
  generalize htext : c :: cs = text at h
  cases h with
  | literal hentry =>
      rw [← htext] at hentry
      exact head_of_mem_literals hentry
  | ident hword hliteral =>
      subst htext
      obtain ⟨d, ds, htext, hstart, hds⟩ := Pattern.matches_word.mp hword
      cases htext
      rw [head_of_isWordStart hstart, List.takeWhile_eq_self_iff.mpr hds]
      rcases wordToken_cases (c :: cs) with hkeyword | ⟨hident, -⟩
      · have hmem : (c :: cs, wordToken (String.ofList (c :: cs))) ∈ literals := by
          simp only [literals, List.mem_append]
          exact .inl (.inl hkeyword)
        exact absurd rfl (hliteral _ hmem)
      · rw [hident]
  | number hnumber hvalue =>
      subst htext
      rw [head_of_matches_number hnumber, numberKind, digitsValue_eq, if_pos hvalue]

/-- What is read is the longest match, and its kind can be told from its text, or it is a stray
character. -/
theorem Kind.Reads.longest_or_stray (h : kind.Reads (c :: cs) rest) :
    (Longest (c :: cs) rest ∧ (head c cs).1 = kind) ∨
      (kind = .fault .unexpectedCharacter ∧ cs = [] ∧
        ∀ p ∈ Pattern.all, ∀ w, w <+: c :: cs ++ rest → ¬ p.Matches w) := by
  match kind with
  | .blank =>
      obtain ⟨hlongest, p, hp, hmatch⟩ := h
      obtain ⟨d, ds, q, htext, -, hhead⟩ := head_of_skip hp hmatch
      cases htext
      exact .inl ⟨hlongest, congrArg Prod.fst (hhead cs (List.prefix_refl cs))⟩
  | .token _ => exact .inl ⟨h.1, head_of_writes h.2⟩
  | .fault .numberOutOfRange =>
      obtain ⟨hlongest, hmatch, hvalue⟩ := h
      left
      rw [head_of_matches_number hmatch, numberKind, digitsValue_eq,
        if_neg (Nat.not_le_of_lt hvalue)]
      exact ⟨hlongest, rfl⟩
  | .fault .unexpectedCharacter =>
      obtain ⟨⟨d, htext⟩, hstray⟩ := h
      exact .inr ⟨rfl, (List.cons.inj htext).2, hstray⟩

/-- **The patterns say only one thing** of the head of a text: where it ends and what it is. -/
theorem Kind.Reads.unique (hne : text ≠ []) (hne' : text' ≠ []) (h : kind.Reads text rest)
    (h' : kind'.Reads text' rest') (hsame : text ++ rest = text' ++ rest') :
    kind = kind' ∧ text = text' ∧ rest = rest' := by
  obtain ⟨c, cs, rfl⟩ := List.exists_cons_of_ne_nil hne
  obtain ⟨c', cs', rfl⟩ := List.exists_cons_of_ne_nil hne'
  rcases h.longest_or_stray with ⟨hlongest, hkind⟩ | ⟨rfl, rfl, hstray⟩ <;>
    rcases h'.longest_or_stray with ⟨hlongest', hkind'⟩ | ⟨rfl, rfl, hstray'⟩
  · have hlength := Nat.le_antisymm (hlongest.length_le hlongest' hsame)
      (hlongest'.length_le hlongest hsame.symm)
    obtain ⟨htext, hrest⟩ := List.append_inj hsame hlength
    cases htext
    exact ⟨hkind.symm.trans hkind', rfl, hrest⟩
  · exact absurd hstray' (hlongest.not_stray hsame)
  · exact absurd hstray (hlongest'.not_stray hsame.symm)
  · obtain ⟨rfl, hrest⟩ := List.cons.inj hsame
    exact ⟨rfl, rfl, hrest⟩

end Scan

end SixReg
