import Lox.Proofs.Grammar.Breaks
import Lox.Proofs.PrintedTrees.Worded

/-!
# The words in the trees of phrases

Where each token of a phrase is spelled like its kind, each token of its tree is of a kind that may
stand in its place: `Phrase.worded`.
-/

namespace Lox

theorem Expr.wordedAll_iff {es : List Expr} : Expr.WordedAll es ↔ ∀ e ∈ es, e.Worded := by
  induction es with
  | nil => simp [Expr.WordedAll]
  | cons e es ih => simp [Expr.WordedAll, ih]

theorem FunctionDecl.wordedAll_iff {fs : List FunctionDecl} :
    FunctionDecl.WordedAll fs ↔ ∀ f ∈ fs, f.Worded := by
  induction fs with
  | nil => simp [FunctionDecl.WordedAll]
  | cons f fs ih => simp [FunctionDecl.WordedAll, ih]

theorem Stmt.wordedAll_iff {ss : List Stmt} : Stmt.WordedAll ss ↔ ∀ s ∈ ss, s.Worded := by
  induction ss with
  | nil => simp [Stmt.WordedAll]
  | cons s ss ih => simp [Stmt.WordedAll, ih]

theorem Token.Stands.mono {types others : List TokenType} {t : Token} (h : t.Stands types)
    (sub : types ⊆ others) : t.Stands others := ⟨sub h.1, h.2⟩

namespace Grammar

def Symbol.Worded : (n : Symbol) → n.Value → Prop
  | .program, ss => Stmt.WordedAll ss
  | .block, ss => Stmt.WordedAll ss
  | .function, f => f.Worded
  | .parameters, ps => ∀ p ∈ ps, p.Stands [.identifier]
  | .arguments, es => Expr.WordedAll es
  | .expr _, e => e.Worded
  | .declaration, s => s.Worded
  | .classDecl, s => s.Worded
  | .funDecl, s => s.Worded
  | .varDecl, s => s.Worded
  | .statement, s => s.Worded
  | .exprStmt, s => s.Worded
  | .forStmt, s => s.Worded
  | .ifStmt, s => s.Worded
  | .printStmt, s => s.Worded
  | .returnStmt, s => s.Worded
  | .whileStmt, s => s.Worded
  | .breakStmt, s => s.Worded

def Form.Worded : (f : Form) → f.Value → Prop
  | .token fits, t => fits t.type = true ∧ Lexeme t.type t.lexeme.toList
  | .rule n, x => x.Yields n.Worded
  | .seq f g, (v, w) => f.Worded v ∧ g.Worded w
  | .either f _, .inl v => f.Worded v
  | .either _ g, .inr w => g.Worded w
  | .optional f, o => ∀ v ∈ o, f.Worded v
  | .many f, vs => ∀ v ∈ vs, f.Worded v

theorem stands_of_oneOf {types : List TokenType} {t : Token} (h : (Form.oneOf types).Worded t) :
    t.Stands types := ⟨List.contains_iff_mem.mp h.1, h.2⟩

/-! ### Parts of trees -/

def JoinsWorded (types : List TokenType) (join : Expr → Token → Expr → Expr) : Prop :=
  ∀ l t r, l.Worded → t.Stands types → r.Worded → (join l t r).Worded

theorem joinsWorded_binary {types : List TokenType} (sub : types ⊆ binaryTypes) :
    JoinsWorded types .binary := fun _ _ _ hl ht hr => ⟨hl, ht.mono sub, hr⟩

theorem joinsWorded_logical {types : List TokenType} (sub : types ⊆ [.kwAnd, .kwOr]) :
    JoinsWorded types .logical := fun _ _ _ hl ht hr => ⟨hl, ht.mono sub, hr⟩

theorem worded_joinLeft {types : List TokenType} {join : Expr → Token → Expr → Expr}
    (joins : JoinsWorded types join) {left : Expr} (first : left.Worded)
    {rest : List (Token × Numbered Expr)}
    (others : ∀ part ∈ rest, part.1.Stands types ∧ part.2.Yields Expr.Worded) :
    (joinLeft join left rest).Yields Expr.Worded := by
  induction rest generalizing left with
  | nil => exact .pure first
  | cons part rest ih =>
    obtain ⟨operator, operand⟩ := others part List.mem_cons_self
    refine .bind operand fun right second => ?_
    exact ih (joins _ _ _ first operator second) fun part mem =>
      others part (List.mem_cons_of_mem _ mem)

theorem worded_chainTree {types : List TokenType} {join : Expr → Token → Expr → Expr}
    (joins : JoinsWorded types join) {n : ExprSymbol} {parts : (Form.chain n types).Value}
    (worded : (Form.chain n types).Worded parts) :
    (chainTree join parts).Yields Expr.Worded := by
  obtain ⟨first, rest⟩ := parts
  refine .bind worded.1 fun left here => worded_joinLeft joins here fun part mem => ?_
  obtain ⟨operator, operand⟩ := worded.2 part mem
  exact ⟨stands_of_oneOf operator, operand⟩

theorem worded_wordTree {t : Token} (lexeme : Lexeme t.type t.lexeme.toList) :
    (wordTree t).Yields Expr.Worded := by
  unfold wordTree
  split
  iterate 4 exact fun _ => trivial
  · exact fun _ => ⟨List.mem_singleton.mpr ‹_›, lexeme⟩
  · exact fun _ => ⟨List.mem_singleton.mpr ‹_›, lexeme⟩
  · exact fun _ => trivial

theorem worded_callTree {e : Expr} (first : e.Worded) {rest : CallParts}
    (others : ∀ part ∈ rest, Form.callPart.Worded part) :
    (callTree e rest).Yields Expr.Worded := by
  induction rest generalizing e with
  | nil => exact .pure first
  | cons part rest ih =>
    have here := others part List.mem_cons_self
    have later := fun part mem => others part (List.mem_cons_of_mem _ mem)
    rcases part with ⟨opening, arguments, paren⟩ | ⟨dot, name⟩
    · refine .bind (.orNone here.2.1) fun es given => ?_
      refine ih ⟨first, stands_of_oneOf here.2.2, ?_⟩ later
      cases es with
      | none => trivial
      | some es => exact given es rfl
    · exact ih ⟨first, stands_of_oneOf here.2⟩ later

theorem worded_functionParts {params : Option (Numbered (List Token))} {body : Numbered (List Stmt)}
    (names : ∀ x ∈ params, x.Yields (Symbol.Worded .parameters))
    (worded : body.Yields Stmt.WordedAll) :
    (functionParts params body).Yields fun parts =>
      (∀ p ∈ parts.1, p.Stands [.identifier]) ∧ Stmt.WordedAll parts.2 := by
  refine .bind (.orNone names) fun params given => .bind worded fun body inner => .pure ⟨?_, inner⟩
  cases params with
  | none => exact nofun
  | some params => exact given params rfl

theorem worded_expr {n : ExprSymbol} {parts : n.form.Value} (worded : n.form.Worded parts) :
    (n.tree parts).Yields Expr.Worded := by
  cases n with
  | expression => exact worded
  | assignment =>
    rcases parts with ⟨_ | ⟨object, dot⟩, name, equal, value⟩ | e
    · obtain ⟨-, name, -, value⟩ := worded
      exact fun i => ⟨stands_of_oneOf name, value (i + 1)⟩
    · obtain ⟨object, name, -, value⟩ := worded
      exact .bind (object _ rfl).1 fun _ first => .bind value fun _ second =>
        .pure ⟨first, stands_of_oneOf name, second⟩
    · exact worded
  | logicOr => exact worded_chainTree (joinsWorded_logical (by decide)) worded
  | logicAnd => exact worded_chainTree (joinsWorded_logical (by decide)) worded
  | equality => exact worded_chainTree (joinsWorded_binary (by decide)) worded
  | comparison => exact worded_chainTree (joinsWorded_binary (by decide)) worded
  | term => exact worded_chainTree (joinsWorded_binary (by decide)) worded
  | factor => exact worded_chainTree (joinsWorded_binary (by decide)) worded
  | unary =>
    rcases parts with ⟨operator, operand⟩ | e
    · exact .bind worded.2 fun _ here => .pure ⟨stands_of_oneOf worded.1, here⟩
    · exact worded
  | call =>
    obtain ⟨first, rest⟩ := parts
    exact .bind worded.1 fun e here => worded_callTree here worded.2
  | primary =>
    rcases parts with t | ⟨opening, inner, closing⟩ | ⟨keyword, dot, method⟩ |
      ⟨keyword, opening, params, closing, body⟩
    · exact worded_wordTree worded.2
    · exact .map worded.2.1 fun _ here => here
    · exact fun _ => ⟨stands_of_oneOf worded.1, stands_of_oneOf worded.2.2⟩
    · exact .bind (worded_functionParts worded.2.2.1 worded.2.2.2.2) fun _ here => .pure here

/-! ### Statements -/

theorem worded_firstClause {clause : Form.firstClause.Value}
    (worded : Form.firstClause.Worded clause) :
    (firstClause clause).Yields fun o => ∀ s ∈ o, s.Worded := by
  rcases clause with s | s | semicolon
  · exact Numbered.Yields.orNone (o := some s) (by rintro _ ⟨⟩; exact worded)
  · exact Numbered.Yields.orNone (o := some s) (by rintro _ ⟨⟩; exact worded)
  · exact .pure nofun

theorem worded_whileForm {initializer : Option Stmt} {condition increment : Option Expr}
    {body : Stmt} (first : ∀ s ∈ initializer, s.Worded) (second : ∀ e ∈ condition, e.Worded)
    (third : ∀ e ∈ increment, e.Worded) (last : body.Worded) :
    (whileForm initializer condition increment body).Worded := by
  have test : (condition.getD (.literal (.bool true))).Worded := by
    cases condition with
    | none => trivial
    | some e => exact second e rfl
  have within (loop : Stmt) (worded : loop.Worded) :
      (initializer.elim loop fun s => .block [s, loop]).Worded := by
    cases initializer with
    | none => exact worded
    | some s => exact ⟨first s rfl, worded, trivial⟩
  rw [whileForm_eq]
  unfold Syntax.forLoop
  cases increment with
  | none => cases initializer <;> exact within (.whileLoop _ body) ⟨test, last⟩
  | some e =>
    have round : (Stmt.block [body, .expression e]).Worded := ⟨last, third e rfl, trivial⟩
    cases initializer <;> exact within (.whileLoop _ (.block [body, .expression e])) ⟨test, round⟩

/-- The tree of a symbol keeps its promise when its parts keep theirs. -/
theorem Symbol.worded {n : Symbol} {parts : n.form.Value} (worded : n.form.Worded parts) :
    (n.tree parts).Yields n.Worded := by
  cases n with
  | program => exact .mono (.inOrder worded) fun _ => Stmt.wordedAll_iff.mpr
  | declaration => rcases parts with s | s | s | s <;> exact worded
  | classDecl =>
    obtain ⟨keyword, name, superclass, opening, methods, closing⟩ := parts
    obtain ⟨-, name, parent, -, inner, -⟩ := worded
    refine .bind (.orNone (P := fun u => u.name.Stands [.identifier]) fun x mem => ?_)
      fun _ above => .bind (.inOrder inner) fun _ here => .pure ?_
    · obtain ⟨part, given, rfl⟩ := Option.map_eq_some_iff.mp mem
      exact fun _ => stands_of_oneOf (parent part given).2
    · exact ⟨stands_of_oneOf name, above, FunctionDecl.wordedAll_iff.mpr here⟩
  | funDecl => exact .map worded.2 fun _ here => here
  | varDecl =>
    obtain ⟨keyword, name, initializer, semicolon⟩ := parts
    obtain ⟨-, name, value, -⟩ := worded
    cases initializer with
    | none => exact fun _ => stands_of_oneOf name
    | some initializer => exact fun i => ⟨stands_of_oneOf name, (value initializer rfl).2 i⟩
  | statement =>
    rcases parts with s | s | s | s | s | s | s | ss
    iterate 7 exact worded
    exact .map worded fun _ here => here
  | exprStmt => exact .map worded.1 fun _ here => here
  | forStmt =>
    obtain ⟨keyword, opening, initializer, condition, semicolon, increment, closing, body⟩ := parts
    obtain ⟨-, -, hinitializer, hcondition, -, hincrement, -, hbody⟩ := worded
    refine .bind (worded_firstClause hinitializer) fun _ first => ?_
    refine .bind (.orNone hcondition) fun _ second => .bind (.orNone hincrement) fun _ third => ?_
    exact .bind hbody fun _ last => .pure (worded_whileForm first second third last)
  | ifStmt =>
    obtain ⟨keyword, opening, condition, closing, thenBranch, elseBranch⟩ := parts
    obtain ⟨-, -, hcondition, -, hthen, helse⟩ := worded
    refine .bind hcondition fun _ first => .bind hthen fun _ second => ?_
    refine .bind (.orNone (P := Stmt.Worded) fun x mem => ?_) fun o third => .pure ?_
    · obtain ⟨part, here, rfl⟩ := Option.map_eq_some_iff.mp mem
      exact (helse part here).2
    · cases o with
      | none => exact ⟨first, second⟩
      | some s => exact ⟨first, second, third s rfl⟩
  | printStmt => exact .map worded.2.1 fun _ here => here
  | returnStmt =>
    obtain ⟨keyword, value, semicolon⟩ := parts
    cases value with
    | none => exact fun _ => stands_of_oneOf worded.1
    | some value => exact fun i => ⟨stands_of_oneOf worded.1, worded.2.1 value rfl i⟩
  | whileStmt =>
    obtain ⟨-, -, hcondition, -, hbody⟩ := worded
    exact .bind hcondition fun _ first => .bind hbody fun _ second => .pure ⟨first, second⟩
  | breakStmt => exact .pure (stands_of_oneOf worded.1)
  | function =>
    obtain ⟨name, opening, params, closing, body⟩ := parts
    obtain ⟨name, -, params, -, body⟩ := worded
    exact .bind (worded_functionParts params body) fun _ here =>
      .pure ⟨stands_of_oneOf name, here⟩
  | block => exact .mono (.inOrder worded.2.1) fun _ => Stmt.wordedAll_iff.mpr
  | parameters =>
    obtain ⟨first, rest⟩ := parts
    refine .pure fun p mem => ?_
    obtain rfl | mem := List.mem_cons.mp mem
    · exact stands_of_oneOf worded.1
    · obtain ⟨part, here, rfl⟩ := List.mem_map.mp mem
      exact stands_of_oneOf (worded.2 part here).2
  | arguments =>
    obtain ⟨first, rest⟩ := parts
    refine Numbered.Yields.mono (.inOrder fun x mem => ?_) fun _ => Expr.wordedAll_iff.mpr
    obtain rfl | mem := List.mem_cons.mp mem
    · exact worded.1
    · obtain ⟨part, here, rfl⟩ := List.mem_map.mp mem
      exact (worded.2 part here).2
  | expr n => exact worded_expr worded

/-- Where each token of a phrase is spelled like its kind, each token of its tree is of a kind that
may stand in its place. -/
theorem Phrase.worded {f : Form} (p : Phrase f)
    (lexemes : ∀ t ∈ p.tokens, Lexeme t.type t.lexeme.toList) : f.Worded p.value := by
  induction p with
  | token t fits => exact ⟨fits, lexemes t List.mem_cons_self⟩
  | rule p ih => exact Symbol.worded (ih lexemes)
  | seq p q ihp ihq =>
    exact ⟨ihp fun t mem => lexemes t (List.mem_append_left _ mem),
      ihq fun t mem => lexemes t (List.mem_append_right _ mem)⟩
  | left p ih => exact ih lexemes
  | right q ih => exact ih lexemes
  | none => exact nofun
  | some p ih =>
    rintro _ ⟨⟩
    exact ih lexemes
  | nil => exact nofun
  | cons p ps ihp ihps =>
    intro v mem
    obtain rfl | mem := List.mem_cons.mp mem
    · exact ihp fun t mem => lexemes t (List.mem_append_left _ mem)
    · exact ihps (fun t mem => lexemes t (List.mem_append_right _ mem)) v mem

end Grammar

end Lox
