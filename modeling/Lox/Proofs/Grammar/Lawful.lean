import Lox.Proofs.Grammar.Reading
import Lox.Proofs.Proper

/-!
# Trees of phrases are proper

The tree of a phrase whose words are spelled like their kinds is proper, and its uses have the
numbers that were handed out: `Phrase.lawful`.
-/

namespace Lox.Grammar

/-- What each symbol promises of a tree whose uses are numbered from `i` to below `j`. -/
def Symbol.Lawful : (n : Symbol) → n.Value → Nat → Nat → Prop
  | .program, ss, i, j => Stmt.ProperAll ss ∧ Ids i j (Stmt.usesAll ss)
  | .block, ss, i, j => Stmt.ProperAll ss ∧ Ids i j (Stmt.usesAll ss)
  | .function, f, i, j => f.Proper ∧ Ids i j f.uses
  | .parameters, ps, i, j => (∀ p ∈ ps, p.IsName) ∧ i = j
  | .arguments, es, i, j => Expr.ProperAll es ∧ Ids i j (Expr.usesAll es)
  | .expr _, e, i, j => e.Proper ∧ Ids i j e.uses
  | .declaration, s, i, j => s.Proper ∧ Ids i j s.uses
  | .classDecl, s, i, j => s.Proper ∧ Ids i j s.uses
  | .funDecl, s, i, j => s.Proper ∧ Ids i j s.uses
  | .varDecl, s, i, j => s.Proper ∧ Ids i j s.uses
  | .statement, s, i, j => (s.Proper ∧ s.declared? = none) ∧ Ids i j s.uses
  | .exprStmt, s, i, j => (s.Proper ∧ s.declared? = none) ∧ Ids i j s.uses
  | .forStmt, s, i, j => (s.Proper ∧ s.declared? = none) ∧ Ids i j s.uses
  | .ifStmt, s, i, j => (s.Proper ∧ s.declared? = none) ∧ Ids i j s.uses
  | .printStmt, s, i, j => (s.Proper ∧ s.declared? = none) ∧ Ids i j s.uses
  | .returnStmt, s, i, j => (s.Proper ∧ s.declared? = none) ∧ Ids i j s.uses
  | .whileStmt, s, i, j => (s.Proper ∧ s.declared? = none) ∧ Ids i j s.uses
  | .breakStmt, s, i, j => (s.Proper ∧ s.declared? = none) ∧ Ids i j s.uses

def Numbered.Keeps (x : Numbered α) (P : α → Nat → Nat → Prop) : Prop :=
  ∀ i, P (x i).1 i (x i).2

def Form.Lawful : (f : Form) → f.Value → Prop
  | .token fits, t => t.Spelled ∧ fits t.type = true
  | .rule n, x => x.Keeps n.Lawful
  | .seq f g, (v, w) => f.Lawful v ∧ g.Lawful w
  | .either f _, .inl v => f.Lawful v
  | .either _ g, .inr w => g.Lawful w
  | .optional f, o => ∀ v ∈ o, f.Lawful v
  | .many f, vs => ∀ v ∈ vs, f.Lawful v

/-! ### Parts of trees -/

theorem keeps_inOrder {n : Symbol} {P : List n.Value → Nat → Nat → Prop} (nil : ∀ i, P [] i i)
    (cons : ∀ a as i j k, n.Lawful a i j → P as j k → P (a :: as) i k)
    {items : List (Numbered n.Value)} (lawful : ∀ x ∈ items, x.Keeps n.Lawful) :
    (inOrder items).Keeps P := by
  induction items with
  | nil => exact nil
  | cons x items ih =>
    intro i
    have first := lawful x List.mem_cons_self i
    have others := ih (fun y hy => lawful y (List.mem_cons_of_mem x hy)) (x i).2
    exact cons _ _ i _ _ first others

theorem keeps_statements {items : List (Numbered Stmt)}
    (lawful : ∀ x ∈ items, x.Keeps (Symbol.Lawful .declaration)) :
    (inOrder items).Keeps fun ss i j => Stmt.ProperAll ss ∧ Ids i j (Stmt.usesAll ss) := by
  refine keeps_inOrder (n := .declaration) (fun i => ⟨trivial, .nil i⟩) ?_ lawful
  intro s ss i j k first others
  exact ⟨⟨first.1, others.1⟩, first.2.append others.2⟩

theorem keeps_methods {items : List (Numbered FunctionDecl)}
    (lawful : ∀ x ∈ items, x.Keeps (Symbol.Lawful .function)) :
    (inOrder items).Keeps fun fs i j =>
      FunctionDecl.ProperAll fs ∧ Ids i j (FunctionDecl.usesAll fs) := by
  refine keeps_inOrder (n := .function) (fun i => ⟨trivial, .nil i⟩) ?_ lawful
  intro f fs i j k first others
  exact ⟨⟨first.1, others.1⟩, first.2.append others.2⟩

theorem keeps_arguments {items : List (Numbered Expr)}
    (lawful : ∀ x ∈ items, x.Keeps (Symbol.Lawful (.expr .expression))) :
    (inOrder items).Keeps (Symbol.Lawful .arguments) := by
  refine keeps_inOrder (n := .expr .expression) (fun i => ⟨trivial, .nil i⟩) ?_ lawful
  intro e es i j k first others
  exact ⟨⟨first.1, others.1⟩, first.2.append others.2⟩

theorem keeps_orNone {P : α → Nat → Nat → Prop} {o : Option (Numbered α)}
    (lawful : ∀ x ∈ o, x.Keeps P) :
    (orNone o).Keeps fun a i j => (a = none ∧ i = j) ∨ ∃ b, a = some b ∧ P b i j := by
  intro i
  cases o with
  | none => exact .inl ⟨rfl, rfl⟩
  | some x => exact .inr ⟨_, rfl, lawful x rfl i⟩

structure Joins (join : Expr → Token → Expr → Expr) : Prop where
  proper : ∀ l t r, l.Proper → r.Proper → (join l t r).Proper
  uses : ∀ l t r, (join l t r).uses = l.uses ++ r.uses

theorem joins_binary : Joins .binary := ⟨fun _ _ _ hl hr => ⟨hl, hr⟩, fun _ _ _ => rfl⟩

theorem joins_logical : Joins .logical := ⟨fun _ _ _ hl hr => ⟨hl, hr⟩, fun _ _ _ => rfl⟩

theorem lawful_joinLeft {join : Expr → Token → Expr → Expr} (joins : Joins join) {n : ExprSymbol}
    {left : Expr} {rest : List (Token × Numbered Expr)} {i j : Nat}
    (first : left.Proper ∧ Ids i j left.uses)
    (lawful : ∀ part ∈ rest, part.2.Keeps (Symbol.Lawful (.expr n))) :
    Symbol.Lawful (.expr n) (joinLeft join left rest j).1 i (joinLeft join left rest j).2 := by
  induction rest generalizing left j with
  | nil => exact first
  | cons part rest ih =>
    have right := lawful part List.mem_cons_self j
    refine ih ⟨joins.proper _ part.1 _ first.1 right.1, ?_⟩ fun part hpart =>
      lawful part (List.mem_cons_of_mem _ hpart)
    rw [joins.uses]
    exact first.2.append right.2

theorem keeps_chainTree {join : Expr → Token → Expr → Expr} (joins : Joins join) {n : ExprSymbol}
    {types : List TokenType} {parts : (Form.chain n types).Value}
    (lawful : (Form.chain n types).Lawful parts) :
    (chainTree join parts).Keeps (Symbol.Lawful (.expr n)) := by
  obtain ⟨first, rest⟩ := parts
  intro i
  exact lawful_joinLeft joins (lawful.1 i) fun part hpart => (lawful.2 part hpart).2

/-! ### Expressions -/

theorem isName_of_spelled {t : Token} (h : t.Spelled ∧ [TokenType.identifier].contains t.type = true) :
    t.IsName :=
  h.1.lookup_eq_none (by simpa using h.2)

theorem keeps_wordTree {t : Token} (h : t.Spelled) {n : ExprSymbol} :
    (wordTree t).Keeps (Symbol.Lawful (.expr n)) := by
  have constant (value : Literal) :
      Numbered.Keeps (pure (.literal value)) (Symbol.Lawful (.expr n)) :=
    fun i => ⟨trivial, .nil i⟩
  unfold wordTree
  split
  iterate 4 exact constant _
  · exact fun i => ⟨h.lexeme_this ‹_›, .single .this t⟩
  · exact fun i => ⟨h.lookup_eq_none ‹_›, .single .variable t⟩
  · exact constant _

theorem lawful_callTree {n : ExprSymbol} {e : Expr} {rest : CallParts} {i j : Nat}
    (first : e.Proper ∧ Ids i j e.uses)
    (lawful : ∀ keyword arguments paren, .inl (keyword, arguments, paren) ∈ rest →
      ∀ x ∈ arguments, x.Keeps (Symbol.Lawful .arguments)) :
    Symbol.Lawful (.expr n) (callTree e rest j).1 i (callTree e rest j).2 := by
  induction rest generalizing e j with
  | nil => exact first
  | cons part rest ih =>
    have others := fun keyword arguments paren hpart =>
      lawful keyword arguments paren (List.mem_cons_of_mem _ hpart)
    cases part with
    | inr property => exact ih first others
    | inl parts =>
      obtain ⟨keyword, arguments, paren⟩ := parts
      have second := keeps_orNone (lawful keyword arguments paren List.mem_cons_self) j
      refine ih ⟨⟨first.1, ?_⟩, ?_⟩ others
      · change Expr.ProperAll ((orNone arguments j).1.getD [])
        obtain ⟨none, -⟩ | ⟨es, some, proper, -⟩ := second
        · rw [none]
          trivial
        · rw [some]
          exact proper
      · change Ids i (orNone arguments j).2
          (e.uses ++ Expr.usesAll ((orNone arguments j).1.getD []))
        obtain ⟨none, same⟩ | ⟨es, some, -, ids⟩ := second
        · rw [none, ← same]
          exact first.2.append (.nil j)
        · rw [some]
          exact first.2.append ids

theorem keeps_functionParts {params : Option (Numbered (List Token))} {body : Numbered (List Stmt)}
    (lawful : ∀ x ∈ params, x.Keeps (Symbol.Lawful .parameters))
    (hbody : body.Keeps (Symbol.Lawful .block)) :
    (functionParts params body).Keeps fun parts i j =>
      (∀ p ∈ parts.1, p.IsName) ∧ Stmt.ProperAll parts.2 ∧ Ids i j (Stmt.usesAll parts.2) := by
  intro i
  cases params with
  | none => exact ⟨nofun, hbody i⟩
  | some params =>
    obtain ⟨names, same⟩ := lawful params rfl i
    have second := hbody (params i).2
    exact ⟨names, second.1, second.2.starts same⟩

theorem keeps_expr {n : ExprSymbol} {parts : n.form.Value} (lawful : n.form.Lawful parts) :
    (n.tree parts).Keeps (Symbol.Lawful (.expr n)) := by
  cases n with
  | expression => exact lawful
  | assignment =>
    rcases parts with ⟨_ | ⟨object, dot⟩, name, equal, value⟩ | e
    · intro i
      obtain ⟨-, name, -, value⟩ := lawful
      have after := value (i + 1)
      exact ⟨⟨isName_of_spelled name, after.1⟩, (Ids.single .assign _).append after.2⟩
    · intro i
      have first := (lawful.1 _ rfl).1 i
      have second := lawful.2.2.2 (object i).2
      exact ⟨⟨first.1, second.1⟩, first.2.append second.2⟩
    · exact lawful
  | logicOr => exact keeps_chainTree joins_logical lawful
  | logicAnd => exact keeps_chainTree joins_logical lawful
  | equality => exact keeps_chainTree joins_binary lawful
  | comparison => exact keeps_chainTree joins_binary lawful
  | term => exact keeps_chainTree joins_binary lawful
  | factor => exact keeps_chainTree joins_binary lawful
  | unary =>
    rcases parts with ⟨operator, operand⟩ | e
    · exact fun i => lawful.2 i
    · exact lawful
  | call =>
    obtain ⟨first, rest⟩ := parts
    intro i
    refine lawful_callTree (lawful.1 i) fun keyword arguments paren hpart => ?_
    exact (lawful.2 _ hpart).2.1
  | primary =>
    rcases parts with t | ⟨opening, inner, closing⟩ | ⟨keyword, dot, method⟩ |
      ⟨keyword, opening, params, closing, body⟩
    · exact keeps_wordTree lawful.1
    · exact fun i => lawful.2.1 i
    · intro i
      have spelled : keyword.Spelled := lawful.1.1
      exact ⟨spelled.lexeme_super (by simpa using lawful.1.2), .single .super keyword⟩
    · intro i
      have parts := keeps_functionParts lawful.2.2.1 lawful.2.2.2.2 i
      exact ⟨⟨parts.1, parts.2.1⟩, parts.2.2⟩

/-! ### Statements -/

theorem keeps_firstClause {clause : Form.firstClause.Value} (lawful : Form.firstClause.Lawful clause) :
    (firstClause clause).Keeps fun o i j =>
      (o = none ∧ i = j) ∨ ∃ s, o = some s ∧ s.Proper ∧ Ids i j s.uses := by
  intro i
  rcases clause with s | s | semicolon
  · exact .inr ⟨_, rfl, lawful i⟩
  · exact .inr ⟨_, rfl, (lawful i).1.1, (lawful i).2⟩
  · exact .inl ⟨rfl, rfl⟩

theorem lawful_whileForm {initializer : Option Stmt} {condition increment : Option Expr}
    {body : Stmt} {i j k l m : Nat}
    (first : (initializer = none ∧ i = j) ∨ ∃ s, initializer = some s ∧ s.Proper ∧ Ids i j s.uses)
    (second : (condition = none ∧ j = k) ∨ ∃ e, condition = some e ∧ e.Proper ∧ Ids j k e.uses)
    (third : (increment = none ∧ k = l) ∨ ∃ e, increment = some e ∧ e.Proper ∧ Ids k l e.uses)
    (last : (body.Proper ∧ body.declared? = none) ∧ Ids l m body.uses) :
    Symbol.Lawful .forStmt (whileForm initializer condition increment body) i m := by
  obtain ⟨test, htest, tested, testIds⟩ : ∃ e, condition.getD (.literal (.bool true)) = e ∧
      e.Proper ∧ Ids j k e.uses := by
    obtain ⟨rfl, rfl⟩ | ⟨e, rfl, lawful⟩ := second
    · exact ⟨_, rfl, trivial, .nil j⟩
    · exact ⟨e, rfl, lawful⟩
  have whole (round : Stmt) (proper : round.Proper) (undeclared : round.declared? = none)
      (ids : Ids k m round.uses) : Symbol.Lawful .whileStmt (.whileLoop test round) j m :=
    ⟨⟨⟨tested, proper, undeclared⟩, rfl⟩, testIds.append ids⟩
  have within (loop : Stmt) (lawful : Symbol.Lawful .whileStmt loop j m) :
      Symbol.Lawful .forStmt (initializer.elim loop fun s => .block [s, loop]) i m := by
    obtain ⟨rfl, rfl⟩ | ⟨s, rfl, proper, ids⟩ := first
    · exact lawful
    · refine ⟨⟨⟨proper, lawful.1.1, trivial⟩, rfl⟩, ?_⟩
      exact ids.append (lawful.2.append (.nil m))
  rw [whileForm_eq]
  unfold Syntax.forLoop
  rw [htest]
  obtain ⟨rfl, rfl⟩ | ⟨e, rfl, proper, ids⟩ := third
  · have lawful := within _ (whole body last.1.1 last.1.2 last.2)
    cases initializer <;> exact lawful
  · -- The increment is numbered before the body but stands after it.
    have swapped := ids.append_swap last.2
    rw [← List.append_nil e.uses] at swapped
    have lawful :=
      within _ (whole (.block [body, .expression e]) ⟨last.1.1, proper, trivial⟩ rfl swapped)
    cases initializer <;> exact lawful

/-- The tree of a symbol keeps its promise when its parts keep theirs. -/
theorem Symbol.keeps {n : Symbol} {parts : n.form.Value} (lawful : n.form.Lawful parts) :
    (n.tree parts).Keeps n.Lawful := by
  cases n with
  | program => exact keeps_statements lawful
  | declaration =>
    rcases parts with s | s | s | s
    · exact lawful
    · exact lawful
    · exact lawful
    · intro i
      have statement := lawful i
      exact ⟨statement.1.1, statement.2⟩
  | classDecl =>
    obtain ⟨keyword, name, superclass, opening, methods, closing⟩ := parts
    obtain ⟨-, hname, hsuperclass, -, hmethods, -⟩ := lawful
    intro i
    cases superclass with
    | none =>
      have methods := keeps_methods hmethods i
      exact ⟨⟨isName_of_spelled hname, methods.1⟩, methods.2⟩
    | some superclass =>
      have methods := keeps_methods hmethods (i + 1)
      have superName := isName_of_spelled (hsuperclass superclass rfl).2
      exact ⟨⟨isName_of_spelled hname, superName, methods.1⟩,
        (Ids.single .variable superclass.2).append methods.2⟩
  | funDecl => exact fun i => lawful.2 i
  | varDecl =>
    obtain ⟨keyword, name, initializer, semicolon⟩ := parts
    obtain ⟨-, hname, hinitializer, -⟩ := lawful
    intro i
    cases initializer with
    | none => exact ⟨isName_of_spelled hname, .nil i⟩
    | some initializer =>
      have value := (hinitializer initializer rfl).2 i
      exact ⟨⟨isName_of_spelled hname, value.1⟩, value.2⟩
  | statement =>
    rcases parts with s | s | s | s | s | s | s | ss
    iterate 7 exact lawful
    intro i
    exact ⟨⟨(lawful i).1, rfl⟩, (lawful i).2⟩
  | exprStmt => exact fun i => ⟨⟨(lawful.1 i).1, rfl⟩, (lawful.1 i).2⟩
  | forStmt =>
    obtain ⟨keyword, opening, initializer, condition, semicolon, increment, closing, body⟩ := parts
    obtain ⟨-, -, hinitializer, hcondition, -, hincrement, -, hbody⟩ := lawful
    intro i
    have first := keeps_firstClause hinitializer i
    have second := keeps_orNone hcondition (firstClause initializer i).2
    have third := keeps_orNone hincrement (orNone condition (firstClause initializer i).2).2
    exact lawful_whileForm first second third (hbody _)
  | ifStmt =>
    obtain ⟨keyword, opening, condition, closing, thenBranch, elseBranch⟩ := parts
    obtain ⟨-, -, hcondition, -, hthen, helse⟩ := lawful
    intro i
    have first := hcondition i
    have second := hthen (condition i).2
    cases elseBranch with
    | none => exact ⟨⟨⟨first.1, second.1.1, second.1.2⟩, rfl⟩, first.2.append second.2⟩
    | some elseBranch =>
      have third := (helse elseBranch rfl).2 (thenBranch (condition i).2).2
      exact ⟨⟨⟨first.1, second.1, third.1⟩, rfl⟩, (first.2.append second.2).append third.2⟩
  | printStmt => exact fun i => ⟨⟨(lawful.2.1 i).1, rfl⟩, (lawful.2.1 i).2⟩
  | returnStmt =>
    obtain ⟨keyword, value, semicolon⟩ := parts
    intro i
    cases value with
    | none => exact ⟨⟨trivial, rfl⟩, .nil i⟩
    | some value =>
      have lawful := lawful.2.1 value rfl i
      exact ⟨⟨lawful.1, rfl⟩, lawful.2⟩
  | whileStmt =>
    obtain ⟨keyword, opening, condition, closing, body⟩ := parts
    obtain ⟨-, -, hcondition, -, hbody⟩ := lawful
    intro i
    have first := hcondition i
    have second := hbody (condition i).2
    exact ⟨⟨⟨first.1, second.1⟩, rfl⟩, first.2.append second.2⟩
  | breakStmt => exact fun i => ⟨⟨trivial, rfl⟩, .nil i⟩
  | function =>
    obtain ⟨name, opening, params, closing, body⟩ := parts
    obtain ⟨hname, -, hparams, -, hbody⟩ := lawful
    intro i
    have parts := keeps_functionParts hparams hbody i
    exact ⟨⟨isName_of_spelled hname, parts.1, parts.2.1⟩, parts.2.2⟩
  | block => exact keeps_statements lawful.2.1
  | parameters =>
    obtain ⟨first, rest⟩ := parts
    refine fun i => ⟨fun p hp => ?_, rfl⟩
    obtain rfl | hp := List.mem_cons.mp hp
    · exact isName_of_spelled lawful.1
    · obtain ⟨part, hpart, rfl⟩ := List.mem_map.mp hp
      exact isName_of_spelled (lawful.2 part hpart).2
  | arguments =>
    obtain ⟨first, rest⟩ := parts
    refine keeps_arguments fun x hx => ?_
    obtain rfl | hx := List.mem_cons.mp hx
    · exact lawful.1
    · obtain ⟨part, hpart, rfl⟩ := List.mem_map.mp hx
      exact (lawful.2 part hpart).2
  | expr n => exact keeps_expr lawful

/-- A phrase whose words are spelled like their kinds stands for a proper tree, whose uses have the
numbers that were handed out. -/
theorem Phrase.lawful {f : Form} (p : Phrase f) (spelled : ∀ t ∈ p.tokens, t.Spelled) :
    f.Lawful p.value := by
  induction p with
  | token t fits => exact ⟨spelled t List.mem_cons_self, fits⟩
  | rule p ih => exact Symbol.keeps (ih spelled)
  | seq p q ihp ihq =>
    exact ⟨ihp fun t ht => spelled t (List.mem_append_left _ ht),
      ihq fun t ht => spelled t (List.mem_append_right _ ht)⟩
  | left p ih => exact ih spelled
  | right q ih => exact ih spelled
  | none => exact nofun
  | some p ih =>
    intro v hv
    cases hv
    exact ih spelled
  | nil => exact nofun
  | cons p ps ihp ihps =>
    intro v hv
    obtain rfl | hv := List.mem_cons.mp hv
    · exact ihp fun t ht => spelled t (List.mem_append_left _ ht)
    · exact ihps (fun t ht => spelled t (List.mem_append_right _ ht)) v hv

end Lox.Grammar
