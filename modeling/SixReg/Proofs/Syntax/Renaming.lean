import Mathlib.Data.List.Forall2
import SixReg.Compile
import SixReg.Proofs.Computation
import SixReg.Proofs.Syntax.Parse

/-!
# Programs that differ in names and spans

Texts with other blanks, other comments and other names in them can have the same tokens but for
names and spans. `Lexeme.Renamed R` says so of two tokens, where `R` relates the names of the one
text to those of the other; `Expr.Renamed R` and `Block.Renamed R` say the same of syntax trees.

The parser keeps the relation (`Program.parse_renamed`). No parser has to be opened for this: what
is read is the tree of a derivation, all tokens stand in the derivation, and others of the same
kinds can be put in their places (`Grammar.Derives.renamed`, `Grammar.ProgramTree.renamed`).
-/

namespace SixReg

open Grammar

/-! ## Trees up to names -/

variable {R : String → String → Prop}

/-- The same token, or two names that are related. -/
inductive Token.Renamed (R : String → String → Prop) : Token → Token → Prop where
  | ident {name name' : String} (h : R name name') : Renamed R (.ident name) (.ident name')
  | same {token : Token} (h : ∀ name, token ≠ .ident name) : Renamed R token token

/-- The spans do not matter. -/
def Lexeme.Renamed (R : String → String → Prop) (l l' : Lexeme) : Prop :=
  Token.Renamed R l.token l'.token

/-- Expressions that are the same but for names and spans. -/
inductive Expr.Renamed (R : String → String → Prop) : Expr → Expr → Prop where
  | number {value} : Renamed R (.number value) (.number value)
  | var {name name' span span'} (h : R name name') : Renamed R (.var name span) (.var name' span')
  | binary {op left left' right right'} (hl : Renamed R left left') (hr : Renamed R right right') :
      Renamed R (.binary op left right) (.binary op left' right')
  | not {operand operand'} (h : Renamed R operand operand') :
      Renamed R (.not operand) (.not operand')

/-- Programs that are the same but for names and spans. -/
inductive Block.Renamed (R : String → String → Prop) : Block → Block → Prop where
  | nil : Renamed R [] []
  | declare {name name' span span' value value' others others'} (hname : R name name')
      (hv : Expr.Renamed R value value') (ho : Renamed R others others') :
      Renamed R (.declare name span value :: others) (.declare name' span' value' :: others')
  | print {value value' others others'} (hv : Expr.Renamed R value value')
      (ho : Renamed R others others') :
      Renamed R (.print value :: others) (.print value' :: others')
  | ifThen {condition condition' body body' others others'}
      (hc : Expr.Renamed R condition condition') (hb : Renamed R body body')
      (ho : Renamed R others others') :
      Renamed R (.ifThen condition body :: others) (.ifThen condition' body' :: others')
  | ifElse {condition condition' body body' other other' others others'}
      (hc : Expr.Renamed R condition condition') (hb : Renamed R body body')
      (he : Renamed R other other') (ho : Renamed R others others') :
      Renamed R (.ifElse condition body other :: others)
        (.ifElse condition' body' other' :: others')
  | loop {condition condition' body body' others others'}
      (hc : Expr.Renamed R condition condition') (hb : Renamed R body body')
      (ho : Renamed R others others') :
      Renamed R (.loop condition body :: others) (.loop condition' body' :: others')
  | block {body body' others others'} (hb : Renamed R body body') (ho : Renamed R others others') :
      Renamed R (.block body :: others) (.block body' :: others')

/-! ## Tokens in the place of others -/

theorem forall₂_append_left {α β : Type} {R : α → β → Prop} {first second : List α} {whole : List β}
    (h : List.Forall₂ R (first ++ second) whole) :
    ∃ first' second', List.Forall₂ R first first' ∧ List.Forall₂ R second second' ∧
      whole = first' ++ second' := by
  have hfirst := List.forall₂_take first.length h
  have hsecond := List.forall₂_drop first.length h
  rw [List.take_left] at hfirst
  rw [List.drop_left] at hsecond
  exact ⟨_, _, hfirst, hsecond, (List.take_append_drop _ _).symm⟩

namespace Lexeme

variable {rest tokens tokens' : List Lexeme} {token : Token} {name : String} {span : Span}

/-- A token that is no name is there again. -/
theorem cons_renamed (h : List.Forall₂ (Renamed R) (⟨token, span⟩ :: rest) tokens')
    (htoken : ∀ name, token ≠ .ident name) :
    ∃ span' rest', List.Forall₂ (Renamed R) rest rest' ∧ tokens' = ⟨token, span'⟩ :: rest' := by
  obtain ⟨⟨token', span'⟩, rest', hlexeme, hrest, rfl⟩ := List.forall₂_cons_left_iff.mp h
  cases hlexeme with
  | ident => exact absurd rfl (htoken _)
  | same => exact ⟨span', rest', hrest, rfl⟩

theorem ident_renamed (h : List.Forall₂ (Renamed R) (⟨.ident name, span⟩ :: rest) tokens') :
    ∃ name' span' rest', R name name' ∧ List.Forall₂ (Renamed R) rest rest' ∧
      tokens' = ⟨.ident name', span'⟩ :: rest' := by
  obtain ⟨⟨token', span'⟩, rest', hlexeme, hrest, rfl⟩ := List.forall₂_cons_left_iff.mp h
  cases hlexeme with
  | ident hname => exact ⟨_, span', rest', hname, hrest, rfl⟩
  | same hne => exact absurd rfl (hne name)

/-- The same with other tokens in front. -/
theorem append_cons_renamed {first : List Lexeme}
    (h : List.Forall₂ (Renamed R) (first ++ ⟨token, span⟩ :: rest) tokens')
    (htoken : ∀ name, token ≠ .ident name) :
    ∃ first' span' rest', List.Forall₂ (Renamed R) first first' ∧
      List.Forall₂ (Renamed R) rest rest' ∧ tokens' = first' ++ ⟨token, span'⟩ :: rest' := by
  obtain ⟨first', _, hfirst, hsecond, rfl⟩ := forall₂_append_left h
  obtain ⟨span', rest', hrest, rfl⟩ := cons_renamed hsecond htoken
  exact ⟨first', span', rest', hfirst, hrest, rfl⟩

theorem flip_renamed (h : List.Forall₂ (Renamed R) tokens tokens') :
    List.Forall₂ (Renamed (flip R)) tokens' tokens := by
  apply List.Forall₂.flip
  apply h.imp
  intro l l' hl
  obtain ⟨token, span⟩ := l
  obtain ⟨token', span'⟩ := l'
  cases hl with
  | ident hname => exact .ident hname
  | same hne => exact .same hne

end Lexeme

/-! ## Derivations over other tokens -/

/-- **A derivation of an expression can be put over other tokens.** -/
theorem Grammar.Derives.renamed {k : Nat} {e : ExprTree} {tokens' : List Lexeme} (h : Derives k e)
    (htokens : List.Forall₂ (Lexeme.Renamed R) e.yield tokens') :
    ∃ e', Derives k e' ∧ e'.yield = tokens' ∧ e'.nesting = e.nesting ∧
      Expr.Renamed R e.ast e'.ast := by
  induction h generalizing tokens' with
  | number =>
      obtain ⟨span', _, hend, rfl⟩ := Lexeme.cons_renamed htokens nofun
      obtain rfl := List.forall₂_nil_left_iff.mp hend
      exact ⟨_, .number, rfl, rfl, .number⟩
  | name =>
      obtain ⟨name', span', _, hname, hend, rfl⟩ := Lexeme.ident_renamed htokens
      obtain rfl := List.forall₂_nil_left_iff.mp hend
      exact ⟨_, .name, rfl, rfl, .var hname⟩
  | group _ ih =>
      obtain ⟨start', _, hrest, rfl⟩ := Lexeme.cons_renamed htokens nofun
      obtain ⟨_, stop', _, hinner, hend, rfl⟩ := Lexeme.append_cons_renamed hrest nofun
      obtain rfl := List.forall₂_nil_left_iff.mp hend
      obtain ⟨e', hderives, rfl, hnesting, hast⟩ := ih hinner
      exact ⟨.group start' e' stop', .group hderives, rfl, congrArg (· + 1) hnesting, hast⟩
  | not _ ih =>
      obtain ⟨span', _, hrest, rfl⟩ := Lexeme.cons_renamed htokens nofun
      obtain ⟨e', hderives, rfl, hnesting, hast⟩ := ih hrest
      exact ⟨.not span' e', .not hderives, rfl, congrArg (· + 1) hnesting, .not hast⟩
  | operand _ ih =>
      obtain ⟨e', hderives, hyield, hnesting, hast⟩ := ih htokens
      exact ⟨e', .operand hderives, hyield, hnesting, hast⟩
  | compare hop _ _ ihl ihr =>
      obtain ⟨_, span', _, hleft, hright, rfl⟩ := Lexeme.append_cons_renamed htokens nofun
      obtain ⟨l, hl, rfl, hnesting, hast⟩ := ihl hleft
      obtain ⟨r, hr, rfl, hnesting', hast'⟩ := ihr hright
      exact ⟨.binary l _ span' r, .compare hop hl hr, rfl, congrArg₂ max hnesting hnesting',
        .binary hast hast'⟩
  | chain hk hop _ _ ihl ihr =>
      obtain ⟨_, span', _, hleft, hright, rfl⟩ := Lexeme.append_cons_renamed htokens nofun
      obtain ⟨l, hl, rfl, hnesting, hast⟩ := ihl hleft
      obtain ⟨r, hr, rfl, hnesting', hast'⟩ := ihr hright
      exact ⟨.binary l _ span' r, .chain hk hop hl hr, rfl, congrArg₂ max hnesting hnesting',
        .binary hast hast'⟩

theorem Grammar.Expression.renamed (e : Expression) {tokens' : List Lexeme}
    (htokens : List.Forall₂ (Lexeme.Renamed R) e.val.yield tokens') :
    ∃ e' : Expression, e'.val.yield = tokens' ∧ e'.val.nesting = e.val.nesting ∧
      Expr.Renamed R e.val.ast e'.val.ast := by
  obtain ⟨e', hderives, hyield, hnesting, hast⟩ := e.property.renamed htokens
  exact ⟨⟨e', hderives⟩, hyield, hnesting, hast⟩

mutual

/-- A derivation of a statement, whatever comes after it. -/
theorem Grammar.StmtTree.renamed (s : StmtTree) {tokens' : List Lexeme}
    (htokens : List.Forall₂ (Lexeme.Renamed R) s.yield tokens') :
    ∃ s' : StmtTree, s'.yield = tokens' ∧ s'.nesting = s.nesting ∧
      ∀ {others others'}, Block.Renamed R others others' →
        Block.Renamed R (s.ast :: others) (s'.ast :: others') := by
  match s with
  | .declare keyword id span equals value semicolon =>
      obtain ⟨keyword', _, hname, rfl⟩ := Lexeme.cons_renamed htokens nofun
      obtain ⟨id', span', _, hid, hequals, rfl⟩ := Lexeme.ident_renamed hname
      obtain ⟨equals', _, hrest, rfl⟩ := Lexeme.cons_renamed hequals nofun
      obtain ⟨_, semicolon', _, hvalue, hend, rfl⟩ := Lexeme.append_cons_renamed hrest nofun
      obtain rfl := List.forall₂_nil_left_iff.mp hend
      obtain ⟨value', rfl, hnesting, hast⟩ := value.renamed hvalue
      exact ⟨.declare keyword' id' span' equals' value' semicolon', rfl, hnesting,
        .declare hid hast⟩
  | .print keyword value semicolon =>
      obtain ⟨keyword', _, hrest, rfl⟩ := Lexeme.cons_renamed htokens nofun
      obtain ⟨_, semicolon', _, hvalue, hend, rfl⟩ := Lexeme.append_cons_renamed hrest nofun
      obtain rfl := List.forall₂_nil_left_iff.mp hend
      obtain ⟨value', rfl, hnesting, hast⟩ := value.renamed hvalue
      exact ⟨.print keyword' value' semicolon', rfl, hnesting, .print hast⟩
  | .ifThen keyword condition colon body =>
      obtain ⟨keyword', _, hrest, rfl⟩ := Lexeme.cons_renamed htokens nofun
      obtain ⟨_, colon', _, hcondition, hbody, rfl⟩ := Lexeme.append_cons_renamed hrest nofun
      obtain ⟨condition', rfl, hnesting, hc⟩ := condition.renamed hcondition
      obtain ⟨body', rfl, hnesting', hb⟩ := body.renamed hbody
      exact ⟨.ifThen keyword' condition' colon' body', rfl, congrArg₂ max hnesting hnesting',
        .ifThen hc hb⟩
  | .ifElse keyword condition colon body otherwise colon? other =>
      obtain ⟨keyword', _, hrest, rfl⟩ := Lexeme.cons_renamed htokens nofun
      obtain ⟨_, colon', _, hcondition, helse, rfl⟩ := Lexeme.append_cons_renamed hrest nofun
      obtain ⟨_, otherwise', _, hbody, hother, rfl⟩ := Lexeme.append_cons_renamed helse nofun
      obtain ⟨condition', rfl, hnesting, hc⟩ := condition.renamed hcondition
      obtain ⟨body', rfl, hnesting', hb⟩ := body.renamed hbody
      -- the colon behind the second keyword may be left out
      cases colon? with
      | none =>
          obtain ⟨other', rfl, hnesting'', he⟩ := other.renamed hother
          exact ⟨.ifElse keyword' condition' colon' body' otherwise' none other', rfl,
            congrArg₂ max hnesting (congrArg₂ max hnesting' hnesting''), .ifElse hc hb he⟩
      | some _ =>
          obtain ⟨second', _, hblock, rfl⟩ := Lexeme.cons_renamed hother nofun
          obtain ⟨other', rfl, hnesting'', he⟩ := other.renamed hblock
          exact ⟨.ifElse keyword' condition' colon' body' otherwise' (some second') other', rfl,
            congrArg₂ max hnesting (congrArg₂ max hnesting' hnesting''), .ifElse hc hb he⟩
  | .loop keyword condition colon body =>
      obtain ⟨keyword', _, hrest, rfl⟩ := Lexeme.cons_renamed htokens nofun
      obtain ⟨_, colon', _, hcondition, hbody, rfl⟩ := Lexeme.append_cons_renamed hrest nofun
      obtain ⟨condition', rfl, hnesting, hc⟩ := condition.renamed hcondition
      obtain ⟨body', rfl, hnesting', hb⟩ := body.renamed hbody
      exact ⟨.loop keyword' condition' colon' body', rfl, congrArg₂ max hnesting hnesting',
        .loop hc hb⟩
  | .block body =>
      obtain ⟨body', rfl, hnesting, hb⟩ := body.renamed htokens
      exact ⟨.block body', rfl, hnesting, .block hb⟩

theorem Grammar.BlockTree.renamed (b : BlockTree) {tokens' : List Lexeme}
    (htokens : List.Forall₂ (Lexeme.Renamed R) b.yield tokens') :
    ∃ b' : BlockTree, b'.yield = tokens' ∧ b'.nesting = b.nesting ∧
      Block.Renamed R b.ast b'.ast := by
  match b with
  | .braces start body stop =>
      obtain ⟨start', _, hrest, rfl⟩ := Lexeme.cons_renamed htokens nofun
      obtain ⟨_, stop', _, hbody, hend, rfl⟩ := Lexeme.append_cons_renamed hrest nofun
      obtain rfl := List.forall₂_nil_left_iff.mp hend
      obtain ⟨body', rfl, hnesting, hb⟩ := ProgramTree.renamed body hbody
      exact ⟨.braces start' body' stop', rfl, congrArg (· + 1) hnesting, hb⟩

/-- **A derivation of a program can be put over other tokens.** -/
theorem Grammar.ProgramTree.renamed (p : ProgramTree) {tokens' : List Lexeme}
    (htokens : List.Forall₂ (Lexeme.Renamed R) p.yield tokens') :
    ∃ p' : ProgramTree, p'.yield = tokens' ∧ p'.nesting = p.nesting ∧
      Block.Renamed R p.ast p'.ast := by
  match p with
  | [] =>
      obtain rfl := List.forall₂_nil_left_iff.mp htokens
      exact ⟨[], rfl, rfl, .nil⟩
  | first :: others =>
      obtain ⟨_, _, hfirst, hothers, rfl⟩ := forall₂_append_left htokens
      obtain ⟨first', rfl, hnesting, hblock⟩ := first.renamed hfirst
      obtain ⟨others', rfl, hnesting', ho⟩ := ProgramTree.renamed others hothers
      exact ⟨first' :: others', rfl, congrArg₂ max hnesting hnesting', hblock ho⟩

end

/-! ## The parser -/

theorem Parse.program_renamed {depth : Nat} {tokens tokens' : List Lexeme} {p : Program}
    (htokens : List.Forall₂ (Lexeme.Renamed R) tokens tokens') (h : program depth tokens = .ok p) :
    ∃ p', program depth tokens' = .ok p' ∧ Block.Renamed R p p' := by
  obtain ⟨tree, rfl, rfl, hnesting⟩ := program_sound h
  obtain ⟨tree', rfl, hsame, hast⟩ := ProgramTree.renamed tree htokens
  exact ⟨_, program_complete tree' (hsame ▸ hnesting), hast⟩

/-- **The parser keeps names apart and spans out.** Of two texts whose tokens are the same but for
names and spans, either both can be parsed, into programs that are the same but for these, or
neither can. -/
theorem Program.parse_renamed {source source' : Source} {tokens tokens' : List Lexeme}
    (h : tokenize source = .ok tokens) (h' : tokenize source' = .ok tokens')
    (htokens : List.Forall₂ (Lexeme.Renamed R) tokens tokens') :
    (∃ p p', Program.parse source = .ok p ∧ Program.parse source' = .ok p' ∧
      Block.Renamed R p p') ∨
    ∃ e e', Program.parse source = .error (.parse e) ∧
      Program.parse source' = .error (.parse e') := by
  have hparse : ∀ {source tokens}, tokenize source = .ok tokens → Program.parse source =
      (Cursor.start source tokens).program.mapError .parse := by
    intro source tokens h
    rw [Program.parse, h]
  rw [hparse h, hparse h']
  cases hp : (Cursor.start source tokens).program with
  | ok p =>
      obtain ⟨p', hp', hrenamed⟩ := Parse.program_renamed htokens (Cursor.program_eq_ok.mp hp)
      exact .inl ⟨p, p', rfl, Except.mapError_eq_ok.mpr (Cursor.program_eq_ok.mpr hp'), hrenamed⟩
  | error e =>
      cases hp' : (Cursor.start source' tokens').program with
      | ok p' =>
          -- what the second text can be parsed into, the first one could be too
          obtain ⟨p, hok, -⟩ :=
            Parse.program_renamed (Lexeme.flip_renamed htokens) (Cursor.program_eq_ok.mp hp')
          rw [Cursor.program_eq_ok.mpr hok] at hp
          cases hp
      | error e' => exact .inr ⟨e, e', rfl, rfl⟩

end SixReg
