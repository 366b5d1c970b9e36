import Mathlib.Data.Set.Function
import Mathlib.Logic.Equiv.Basic
import SixReg.Proofs.Compile
import SixReg.Proofs.Tac.Renaming

/-!
# Names, blanks and comments leave no trace

What a text is compiled to depends on its tokens only, and on names only as far as they are equal or
different. Between two texts whose tokens become the same when names are exchanged one for one, each
pass keeps what it is given the same but for names and spans: the parser (`Program.parse_renamed`),
the scope check (`Program.analyze_renamed`) and the builder (`Program.build_renamed`). What comes
after reads neither. `compile_renamed` is the sum of this.
-/

namespace SixReg

open Tac

/-- The token with another name, if it is one. -/
def Token.rename (f : String → String) : Token → Token
  | .ident name => .ident (f name)
  | token => token

/-- The function takes the one name to the other, and the first is among the given ones. -/
def Takes (f : String → String) (names : Set String) (name name' : String) : Prop :=
  name ∈ names ∧ f name = name'

theorem takes_biUnique {f : String → String} {names : Set String} (h : Set.InjOn f names) :
    Relator.BiUnique (Takes f names) := by
  constructor
  · intro a b c ha hb
    exact h ha.1 hb.1 (ha.2.trans hb.2.symm)
  · intro a b c hb hc
    exact hb.2.symm.trans hc.2

theorem Token.renamed_rename {f : String → String} {names : Set String} {token : Token}
    (h : ∀ name, token = .ident name → name ∈ names) :
    Token.Renamed (Takes f names) token (token.rename f) := by
  cases token with
  | ident name => exact .ident ⟨h name rfl, rfl⟩
  | _ => exact .same (by simp)

theorem Lexeme.renamed_of_rename {f : String → String} {names : Set String}
    {tokens tokens' : List Lexeme}
    (hnames : ∀ name, .ident name ∈ tokens.map Lexeme.token → name ∈ names)
    (h : tokens.map (fun l => l.token.rename f) = tokens'.map Lexeme.token) :
    List.Forall₂ (Lexeme.Renamed (Takes f names)) tokens tokens' := by
  induction tokens generalizing tokens' with
  | nil =>
      obtain rfl := List.map_eq_nil_iff.mp h.symm
      exact .nil
  | cons first rest ih =>
      obtain ⟨first', rest', rfl, hfirst, hrest⟩ := List.map_eq_cons_iff.mp h.symm
      refine .cons ?_ (ih (fun name hname => hnames name (.tail _ hname)) hrest.symm)
      rw [Lexeme.Renamed, hfirst]
      apply Token.renamed_rename
      intro name hname
      exact hnames name (hname ▸ .head _)

/-! ## The whole compiler -/

section Compile

variable {options : Options} {source : Source} {program : Program} {symbols : SymbolTable}

theorem compile_of_parse_error {e : CompileError} (h : Program.parse source = .error e) :
    compile options source = .error e := by
  rw [compile, compileToCode, h]
  rfl

theorem compile_of_analyze_error {e : ScopeError} (hparse : Program.parse source = .ok program)
    (h : program.analyze source options.redeclaration = .error e) :
    compile options source = .error (.scope e) := by
  rw [compile, compileToCode, hparse]
  simp only [bind, Except.bind, h, Except.mapError]

theorem compile_of_analyze (hparse : Program.parse source = .ok program)
    (hanalyze : program.analyze source options.redeclaration = .ok symbols) :
    compile options source = program.build source symbols >>= Code.assemble := by
  rw [compile, compileToCode, hparse]
  simp only [bind, Except.bind, hanalyze, Except.mapError]

/-- Code that is the same but for names is assembled into the same program. -/
theorem Tac.Code.assemble_anonymous {code code' : Code}
    (h : code.instrs.map Instr.anonymous = code'.instrs.map Instr.anonymous) :
    (∃ lowered encoded, code.assemble = .ok ⟨code, lowered, encoded⟩ ∧
      code'.assemble = .ok ⟨code', lowered, encoded⟩) ∨
    ∃ e, code.assemble = .error e ∧ code'.assemble = .error e := by
  have hlower : code'.lower = code.lower := by
    rw [← Code.lower_anonymous code [], ← Code.lower_anonymous code' [], h]
  rw [Code.assemble, Code.assemble, hlower]
  cases code.lower with
  | error e => exact .inr ⟨e, rfl, rfl⟩
  | ok lowered =>
      cases hencode : Instruction.encodeAll lowered.instrs with
      | error e =>
          refine .inr ⟨e, ?_, ?_⟩ <;> simp only [bind, Except.bind, hencode]
      | ok encoded =>
          refine .inl ⟨lowered, encoded, ?_, ?_⟩ <;> simp only [bind, Except.bind, hencode] <;> rfl

end Compile

/-- **What a text is compiled to depends on its tokens up to a change of names.** Take two texts and
a change of names that keeps the names of the first one apart and makes its tokens those of the
second one. Whatever the options, either both texts are compiled, to the same machine instructions
with the same labels, the same peak of registers and the same words, or both are rejected for the
same kind of error. -/
theorem compile_renamed (options : Options) {source source' : Source} {tokens tokens' : List Lexeme}
    {f : String → String} (h : tokenize source = .ok tokens) (h' : tokenize source' = .ok tokens')
    (hinj : Set.InjOn f {name | .ident name ∈ tokens.map Lexeme.token})
    (hrename : tokens.map (fun l => l.token.rename f) = tokens'.map Lexeme.token) :
    (∃ c c', compile options source = .ok c ∧ compile options source' = .ok c' ∧
      c.encoded = c'.encoded ∧ c.lowered = c'.lowered) ∨
    ∃ e e', compile options source = .error e ∧ compile options source' = .error e' ∧
      e.ctorIdx = e'.ctorIdx := by
  have hR := takes_biUnique hinj
  have htokens := Lexeme.renamed_of_rename (fun name hname => hname) hrename
  obtain ⟨p, p', hp, hp', hblock⟩ | ⟨e, e', he, he'⟩ := Program.parse_renamed h h' htokens
  · obtain ⟨table, table', ha, ha', htable⟩ | ⟨e, e', he, he'⟩ :=
      Program.analyze_renamed hR hblock options.redeclaration source source'
    · rw [compile_of_analyze hp ha, compile_of_analyze hp' ha']
      obtain ⟨code, code', hb, hb', hcode⟩ | ⟨e, e', he, he'⟩ :=
        Program.build_renamed hR hblock htable ha ha'
      · rw [hb, hb']
        obtain ⟨lowered, encoded, hc, hc'⟩ | ⟨e, he, he'⟩ := Code.assemble_anonymous hcode
        · exact .inl ⟨_, _, hc, hc', rfl, rfl⟩
        · exact .inr ⟨e, e, he, he', rfl⟩
      · rw [he, he']
        exact .inr ⟨_, _, rfl, rfl, rfl⟩
    · exact .inr ⟨_, _, compile_of_analyze_error hp he, compile_of_analyze_error hp' he', rfl⟩
  · exact .inr ⟨_, _, compile_of_parse_error he, compile_of_parse_error he', rfl⟩

/-- Two names are swapped, and the second text has other blanks and a comment. -/
theorem compile_renamed_swap :
    let source : Source := "var a = 3; while a > 0: { print a; var b = a - 1; var a = b; }".toList
    let source' : Source := "var b=3; # counts down
      while b>0: { print b;  var a=b-1;  var b=a; }".toList
    ∃ c c', compile {} source = .ok c ∧ compile {} source' = .ok c' ∧
      c.encoded = c'.encoded ∧ c.lowered = c'.lowered := by
  intro source source'
  let swap : String → String := Equiv.swap "a" "b"
  have hsame : (tokenize source).toOption.map (List.map fun l => l.token.rename swap) =
      (tokenize source').toOption.map (List.map Lexeme.token) := by decide +kernel
  obtain ⟨tokens, h⟩ :=
    Except.exists_of_isOk (show (tokenize source).isOk = true by decide +kernel)
  obtain ⟨tokens', h'⟩ :=
    Except.exists_of_isOk (show (tokenize source').isOk = true by decide +kernel)
  rw [h, h'] at hsame
  obtain hok | ⟨e, -, he, -⟩ := compile_renamed {} h h' (Equiv.swap "a" "b").injective.injOn
    (Option.some.inj hsame)
  · exact hok
  · have hcompile : (compile {} source).isOk = true := by decide +kernel
    rw [he] at hcompile
    cases hcompile

end SixReg
