import SixReg.Proofs.Compile
import SixReg.Proofs.Tac.Capacity

/-!
# The variables of built code

The scope check numbers variables in the order of their declarations, on a walk of its own. A
builder lists them in the order in which its code first reaches them, whatever numbers they have.
The two lists are the same, and neither walk can tell why alone:

* The builder meets the names of a program in the order of its events (`Builder.meets_block`), which
  is the order of the check.
* Where no event is at fault, the first event with a name is its declaration. So after each event
  the builder has reached the variables declared up to there, in the order of their slots
  (`Builder.reachName_after` for one event, `Builder.foldl_reachName` for all of them).

`storage_agrees` puts this together for texts that have code.
-/

namespace SixReg

open Tac

/-! ## Tables that grow -/

namespace SymbolTable

/-- A declared variable keeps its slot. -/
theorem find?_after_append {events later : List Event} {name : String}
    (h : name ∈ declaredIn events) : (after (events ++ later)).find? name =
      (after events).find? name := by
  have hmem : name ∈ declaredIn (events ++ later) := by
    rw [declaredIn_append]
    exact List.mem_append_left _ h
  rw [find?_after, find?_after, if_pos h, if_pos hmem, declaredIn_append, List.eraseDups_append,
    List.idxOf_append_of_mem (List.mem_eraseDups.mpr h)]

/-- An event with a name that is declared already adds nothing. -/
theorem after_concat_of_mem {events : List Event} {event : Event}
    (h : event.name ∈ declaredIn events) : after (events ++ [event]) = after events := by
  cases event with
  | use name span => simp [after]
  | declare name span =>
      have hname : name ∈ declaredIn events := h
      simp [after, eraseDups_concat, hname]

/-- A new name comes after the others. -/
theorem after_concat_of_not_mem {events : List Event} {name : String} (span : Span)
    (h : name ∉ declaredIn events) :
    after (events ++ [.declare name span]) = ⟨(after events).names.push name⟩ := by
  simp [after, eraseDups_concat, h]

end SymbolTable

namespace Builder

/-! ## The names that a computation meets -/

/-- The variables reached after a name is met. -/
def reachName (table : SymbolTable) (reached : List Symbol) (name : String) : List Symbol :=
  match table.find? name with
  | none => reached
  | some symbol => if reached.any (·.slot == symbol.slot) then reached else reached ++ [symbol]

/-- If the computation succeeds, it has met the names in this order. -/
def Meets {α : Type} (x : Build α) (names : List String) : Prop :=
  ∀ b a b', x b = .ok a b' → b'.symbols = b.symbols ∧
    b'.slots.toList = names.foldl (reachName b.symbols) b.slots.toList

section Meets

variable {α β : Type} {x : Build α} {f : α → Build β} {names names' : List String}

theorem Meets.bind (hx : Meets x names) (hf : ∀ a, Meets (f a) names') :
    Meets (x >>= f) (names ++ names') := by
  intro b c b'' h
  obtain ⟨a, b', ha, hc⟩ := EStateM.bind_eq_ok.mp h
  obtain ⟨hsymbols, hslots⟩ := hx b a b' ha
  obtain ⟨hsymbols', hslots'⟩ := hf a b' c b'' hc
  refine ⟨hsymbols'.trans hsymbols, ?_⟩
  rw [hslots', hslots, hsymbols, List.foldl_append]

/-- After the last name. -/
theorem Meets.bind_nil (hx : Meets x names) (hf : ∀ a, Meets (f a) []) : Meets (x >>= f) names := by
  have h := hx.bind hf
  rwa [List.append_nil] at h

theorem meets_pure (a : α) : Meets (pure a : Build α) [] := by
  intro b a' b' h
  obtain ⟨-, rfl⟩ := EStateM.pure_eq_ok.mp h
  exact ⟨rfl, rfl⟩

theorem meets_throw (e : CompileError) : Meets (throw e : Build α) names := by
  intro b a b' h
  exact absurd h EStateM.throw_ne_ok

theorem meets_freshTemp : Meets freshTemp [] := by
  intro b t b' h
  cases h
  exact ⟨rfl, rfl⟩

theorem meets_freshLabel : Meets freshLabel [] := by
  intro b l b' h
  cases h
  exact ⟨rfl, rfl⟩

theorem meets_append (instr : Instr) : Meets (append instr) [] := by
  intro b u b' h
  cases h
  exact ⟨rfl, rfl⟩

theorem meets_reference (name : String) (span : Span) : Meets (reference name span) [name] := by
  intro b symbol b' h
  obtain ⟨hfound, rfl⟩ := reference_eq_ok h
  refine ⟨(reach_fields b symbol).2.1, ?_⟩
  simp only [List.foldl_cons, List.foldl_nil, reachName, hfound, reach, ← Array.any_toList]
  split <;> simp

/-- The last instruction of an expression writes to a fresh temporary. -/
theorem meets_result (instr : Temp → Instr) :
    Meets (do
      let dst ← freshTemp
      append (instr dst)
      return dst) [] := by
  apply meets_freshTemp.bind
  intro dst
  exact (meets_append _).bind fun _ => meets_pure dst

/-- A literal needs no code, and it has no names either. -/
theorem Meets.operand {e : Expr} (h : Meets (expr e) (e.events.map Event.name)) :
    Meets (operand e) (e.events.map Event.name) := by
  intro b o b' ho
  obtain ⟨value, rfl, -, rfl⟩ | ⟨-, t, -, ht⟩ := operand_eq_ok ho
  · exact ⟨rfl, rfl⟩
  · exact h b t b' ht

end Meets

/-! ## Building meets events in order -/

theorem meets_expr (e : Expr) : Meets (expr e) (e.events.map Event.name) := by
  induction e with
  | number value => exact meets_result _
  | var name span => exact (meets_reference name span).bind_nil fun src => meets_result _
  | binary op left right ihl ihr =>
      rw [expr_binary, Expr.events, List.map_append]
      apply ihl.bind
      intro l
      exact ihr.operand.bind_nil fun r => meets_result _
  | not operand ih =>
      rw [expr_not]
      exact ih.operand.bind_nil fun src => meets_result _

theorem meets_leaveUnless (condition : Expr) (target : Label) :
    Meets (leaveUnless condition target) (condition.events.map Event.name) := by
  unfold leaveUnless
  split
  · next rel left right =>
      rw [Expr.events, List.map_append]
      apply (meets_expr left).bind
      intro l
      exact (meets_expr right).bind_nil fun r => meets_append _
  · exact meets_throw _

mutual

theorem meets_stmt (s : Stmt) : Meets (stmt s) (s.events.map Event.name) := by
  match s with
  | .declare name span value =>
      rw [stmt, Stmt.events, List.map_append]
      apply (meets_expr value).operand.bind
      intro src
      exact (meets_reference name span).bind_nil fun dst => meets_append _
  | .print value =>
      rw [stmt, Stmt.events]
      exact (meets_expr value).bind_nil fun t => meets_append _
  | .ifThen condition body =>
      rw [stmt, Stmt.events, List.map_append]
      apply meets_freshLabel.bind
      intro other
      apply meets_freshLabel.bind
      intro stop
      apply (meets_leaveUnless condition other).bind
      intro _
      apply (meets_block body).bind_nil
      intro _
      exact (meets_append _).bind fun _ => (meets_append _).bind fun _ => meets_append _
  | .ifElse condition body otherwise =>
      rw [stmt, Stmt.events, List.map_append, List.map_append]
      apply meets_freshLabel.bind
      intro other
      apply meets_freshLabel.bind
      intro stop
      apply (meets_leaveUnless condition other).bind
      intro _
      apply (meets_block body).bind
      intro _
      apply (meets_append _).bind
      intro _
      apply (meets_append _).bind
      intro _
      exact (meets_block otherwise).bind_nil fun _ => meets_append _
  | .loop condition body =>
      rw [stmt, Stmt.events, List.map_append]
      apply meets_freshLabel.bind
      intro first
      apply meets_freshLabel.bind
      intro stop
      apply (meets_append _).bind
      intro _
      apply (meets_leaveUnless condition stop).bind
      intro _
      apply (meets_block body).bind_nil
      intro _
      exact (meets_append _).bind fun _ => meets_append _
  | .block body =>
      rw [stmt, Stmt.events]
      exact meets_block body

/-- **A builder meets the names of a program in the order of the scope check.** -/
theorem meets_block (p : Block) : Meets (block p) ((Block.events p).map Event.name) := by
  match p with
  | [] => exact meets_pure ()
  | first :: others =>
      rw [block, Block.events, List.map_append]
      exact (meets_stmt first).bind fun _ => meets_block others

end

/-! ## First declarations come first -/

/-- **One event.** A builder that has reached the variables declared so far has, after one more
event that is not at fault, reached those declared up to there. The slots are looked up in the table
of the whole program, which has the later variables too. -/
theorem reachName_after {policy : Redeclaration} {events : List Event} {event : Event}
    (later : List Event) (h : event.fault? policy events = none) :
    reachName (.after (events ++ event :: later)) (SymbolTable.after events).toList event.name =
      (SymbolTable.after (events ++ [event])).toList := by
  -- the name is declared by now, so that what follows does not matter for its slot
  have hmem : event.name ∈ declaredIn (events ++ [event]) := by
    cases event with
    | use name span => simpa [Event.fault?, Event.name] using h
    | declare name span => simp [Event.name]
  rw [List.append_cons, reachName, SymbolTable.find?_after_append hmem]
  by_cases hold : event.name ∈ declaredIn events
  · -- a name that was declared before is reached already
    obtain ⟨symbol, hfind⟩ : ∃ symbol, (SymbolTable.after events).find? event.name = some symbol :=
      ⟨_, by rw [SymbolTable.find?_after, if_pos hold]⟩
    have hreached : (SymbolTable.after events).toList.any (·.slot == symbol.slot) = true :=
      List.any_eq_true.mpr ⟨symbol, SymbolTable.mem_toList_of_find? hfind, beq_self_eq_true _⟩
    rw [SymbolTable.after_concat_of_mem hold, hfind]
    simp only [hreached, if_true]
  · cases event with
    | use name span => exact absurd (by simpa using hmem) hold
    | declare name span =>
        -- a new name has the next slot, which no variable reached so far has
        let symbol : Symbol := ⟨name, (SymbolTable.after events).size⟩
        have hlist : (SymbolTable.after (events ++ [.declare name span])).toList =
            (SymbolTable.after events).toList ++ [symbol] := by
          rw [SymbolTable.after_concat_of_not_mem span (show name ∉ declaredIn events from hold),
            SymbolTable.toList_push]
          rfl
        have hfind : (SymbolTable.after (events ++ [.declare name span])).find? name =
            some symbol := by
          apply (SymbolTable.find?_eq_some_iff (SymbolTable.nodup_after _)).mpr
          rw [hlist]
          exact ⟨List.mem_append_right _ (List.mem_singleton_self _), rfl⟩
        have hnew : (SymbolTable.after events).toList.any (·.slot == symbol.slot) = false := by
          apply List.any_eq_false.mpr
          intro other hother
          have hlt := SymbolTable.slot_lt_of_mem_toList hother
          simpa [symbol] using Nat.ne_of_lt hlt
        simp only [Event.name, hfind, hnew, hlist]
        simp

/-- **All events.** Where no event is at fault, a builder that met the events has reached the
declared variables in the order of their slots. -/
theorem foldl_reachName {policy : Redeclaration} {events : List Event} (later : List Event)
    (h : Faultless policy events) :
    (events.map Event.name).foldl (reachName (.after (events ++ later))) [] =
      (SymbolTable.after events).toList := by
  induction events using List.reverseRecOn generalizing later with
  | nil => rfl
  | append_singleton events event ih =>
      obtain ⟨hevents, hevent⟩ := faultless_concat.mp h
      rw [← List.append_cons, List.map_append, List.foldl_append, ih (event :: later) hevents]
      exact reachName_after later hevent

end Builder

/-! ## Programs -/

/-- The variables of built code are those of the scope check, in the same order. -/
theorem Program.slots_of_build {source : Source} {policy : Redeclaration} {program : Program}
    {symbols : SymbolTable} {code : Code} (hanalyze : program.analyze source policy = .ok symbols)
    (hbuild : program.build source symbols = .ok code) : code.slots = symbols.toList := by
  obtain ⟨hfaultless, rfl⟩ := analyze_eq_ok_iff.mp hanalyze
  obtain ⟨b, hb⟩ := Program.build_eq_ok.mp hbuild
  obtain ⟨b₁, hblock, rfl, -⟩ := Builder.program_eq_ok hb
  obtain ⟨-, hslots⟩ := Builder.meets_block program _ _ _ hblock
  have hreached := Builder.foldl_reachName [] hfaultless
  rw [List.append_nil] at hreached
  exact hslots.trans hreached

/-- What built code loads from and stores to is among them. -/
theorem Program.symbols_of_build {source : Source} {symbols : SymbolTable} {program : Program}
    {code : Code} {instr : Instr} {symbol : Symbol}
    (hbuild : program.build source symbols = .ok code) (hinstr : instr ∈ code.instrs)
    (hsymbol : symbol ∈ instr.symbols) : symbol ∈ symbols.toList := by
  obtain ⟨t, l, hshape⟩ := Program.build_shape hbuild
  apply SymbolTable.mem_toList_of_find?
  exact hshape.find?_symbol symbol (List.mem_flatMap.mpr ⟨instr, hinstr, hsymbol⟩)

/-- **The scope check and the builder agree on storage.** The variables of the code of a text are
those that the check finds, in the order of their slots. Variable number `i` has slot `i` and the
name that is declared as number `i`, and there are as many as different names are declared. Code
loads from and stores to nothing else, so that no two names share a slot and no name has two. -/
theorem storage_agrees {options : Options} {source : Source} {code : Code}
    (h : compileToCode options source = .ok code) :
    ∃ program symbols, Program.parse source = .ok program ∧ analyze options source = .ok symbols ∧
      code.slots = symbols.toList ∧
      (∀ (i : Nat) (symbol : Symbol), code.slots[i]? = some symbol ↔
        symbol.slot = i ∧ (Block.declared program).eraseDups[i]? = some symbol.name) ∧
      code.slots.length = (Block.declared program).toFinset.card ∧
      (∀ dst symbol, .load dst symbol ∈ code.instrs → symbol ∈ code.slots) ∧
      (∀ symbol src, .store symbol src ∈ code.instrs → symbol ∈ code.slots) ∧
      ∀ a ∈ code.slots, ∀ b ∈ code.slots, a.name = b.name ↔ a.slot = b.slot := by
  obtain ⟨program, symbols, hparse, hanalyze, hbuild⟩ := compileToCode_eq_ok.mp h
  have hslots := Program.slots_of_build hanalyze hbuild
  have hnames := names_eq_of_analyze hanalyze
  refine ⟨program, symbols, hparse, analyze_eq_ok.mpr ⟨program, hparse, hanalyze⟩, hslots, ?_⟩
  rw [hslots]
  refine ⟨?_, ?_, ?_, ?_, ?_⟩
  · intro i symbol
    rw [SymbolTable.getElem?_toList, ← hnames, Array.getElem?_toList]
  · rw [SymbolTable.length_toList]
    exact size_eq_of_analyze hanalyze
  · intro dst symbol hload
    exact Program.symbols_of_build hbuild hload (List.mem_singleton_self symbol)
  · intro symbol src hstore
    exact Program.symbols_of_build hbuild hstore (List.mem_singleton_self symbol)
  · intro a ha b hb
    exact SymbolTable.name_eq_iff (names_nodup_of_analyze hanalyze) ha hb

/-- Variables that are declared in a branch, in the other one and in a loop, where one of them is
declared again. -/
theorem storage_agrees_nested :
    let source : Source := "var a = 2; if a < 2: { var b = a; } else { var c = 3; }
      while a > 0: { var d = b; var a = a - 1; } print c;".toList
    ∃ code, compileToCode {} source = .ok code ∧ code.slots[2]? = some ⟨"c", 2⟩ ∧
      code.slots.length = 4 := by
  intro source
  have hdeclared : (Program.parse source).toOption.map Block.declared =
      some ["a", "b", "c", "d", "a"] := by decide +kernel
  obtain ⟨code, hcode⟩ :=
    Except.exists_of_isOk (show (compileToCode {} source).isOk = true by decide +kernel)
  obtain ⟨program, symbols, hparse, -, -, hnumbered, hlength, -⟩ := storage_agrees hcode
  rw [hparse] at hdeclared
  have hnames : Block.declared program = ["a", "b", "c", "d", "a"] := Option.some.inj hdeclared
  rw [hnames] at hnumbered hlength
  exact ⟨code, hcode, (hnumbered _ _).mpr ⟨rfl, by decide⟩, hlength.trans (by decide)⟩

end SixReg
