import Lox.Proofs.Breaks
import Lox.Proofs.Grammar.Reading

/-!
# Breaks in the trees of phrases

Where each `break` of a phrase is in a loop of its function, so is each of its tree:
`Phrase.keepsBreaks`.
-/

namespace Lox.Grammar

/-- What each symbol promises of a tree that stands in a loop of its function, or does not. -/
def Symbol.KeepsBreaks (around : Bool) : (n : Symbol) → n.Value → Prop
  | .program, ss => Stmt.AllBreaksInLoops around ss
  | .block, ss => Stmt.AllBreaksInLoops around ss
  | .function, f => f.BreaksInLoops
  | .parameters, _ => True
  | .arguments, es => Expr.AllBreaksInLoops es
  | .expr _, e => e.BreaksInLoops
  | .declaration, s => s.BreaksInLoops around
  | .classDecl, s => s.BreaksInLoops around
  | .funDecl, s => s.BreaksInLoops around
  | .varDecl, s => ∀ other, s.BreaksInLoops other
  | .statement, s => s.BreaksInLoops around
  | .exprStmt, s => ∀ other, s.BreaksInLoops other
  | .forStmt, s => s.BreaksInLoops around
  | .ifStmt, s => s.BreaksInLoops around
  | .printStmt, s => s.BreaksInLoops around
  | .returnStmt, s => s.BreaksInLoops around
  | .whileStmt, s => s.BreaksInLoops around
  | .breakStmt, s => s.BreaksInLoops around

/-- What a numbered tree is, wherever its numbers start. -/
def Numbered.Yields (x : Numbered α) (P : α → Prop) : Prop := ∀ i, P (x i).1

def Form.KeepsBreaks (around : Bool) : (f : Form) → f.Value → Prop
  | .token _, _ => True
  | .rule n, x => x.Yields (n.KeepsBreaks around)
  | .seq f g, (v, w) => f.KeepsBreaks around v ∧ g.KeepsBreaks around w
  | .either f _, .inl v => f.KeepsBreaks around v
  | .either _ g, .inr w => g.KeepsBreaks around w
  | .optional f, o => ∀ v ∈ o, f.KeepsBreaks around v
  | .many f, vs => ∀ v ∈ vs, f.KeepsBreaks around v

/-! ### Parts of trees -/

namespace Numbered.Yields

variable {x : Numbered α} {f : α → Numbered β} {P : α → Prop} {Q : β → Prop}

theorem pure {a : α} (h : P a) : Numbered.Yields (pure a) P := fun _ => h

theorem bind (hx : x.Yields P) (hf : ∀ a, P a → (f a).Yields Q) : Numbered.Yields (x >>= f) Q :=
  fun i => hf _ (hx i) _

theorem map {g : α → β} (hx : x.Yields P) (hg : ∀ a, P a → Q (g a)) :
    Numbered.Yields (g <$> x) Q := fun i => hg _ (hx i)

theorem mono {P' : α → Prop} (hx : x.Yields P) (h : ∀ a, P a → P' a) : x.Yields P' :=
  fun i => h _ (hx i)

theorem inOrder {items : List (Numbered α)} (h : ∀ x ∈ items, x.Yields P) :
    (inOrder items).Yields fun as => ∀ a ∈ as, P a := by
  induction items with
  | nil => exact .pure nofun
  | cons x items ih =>
    refine .bind (h x List.mem_cons_self) fun a first => ?_
    refine .bind (ih fun y hy => h y (List.mem_cons_of_mem x hy)) fun as others => .pure ?_
    intro b mem
    obtain rfl | later := List.mem_cons.mp mem
    · exact first
    · exact others b later

theorem orNone {o : Option (Numbered α)} (h : ∀ x ∈ o, x.Yields P) :
    (orNone o).Yields fun a => ∀ b ∈ a, P b := by
  cases o with
  | none => exact .pure nofun
  | some x =>
    refine .map (h x rfl) fun a here b mem => ?_
    obtain rfl := Option.some.inj mem
    exact here

end Numbered.Yields

variable {around : Bool}

/-- A join of two trees has no `break` but those of both. -/
def JoinsBreaks (join : Expr → Token → Expr → Expr) : Prop :=
  ∀ l t r, l.BreaksInLoops → r.BreaksInLoops → (join l t r).BreaksInLoops

theorem joinsBreaks_binary : JoinsBreaks .binary := fun _ _ _ hl hr => ⟨hl, hr⟩

theorem joinsBreaks_logical : JoinsBreaks .logical := fun _ _ _ hl hr => ⟨hl, hr⟩

theorem yields_joinLeft {join : Expr → Token → Expr → Expr} (joins : JoinsBreaks join) {left : Expr}
    (first : left.BreaksInLoops) {rest : List (Token × Numbered Expr)}
    (others : ∀ part ∈ rest, part.2.Yields Expr.BreaksInLoops) :
    (joinLeft join left rest).Yields Expr.BreaksInLoops := by
  induction rest generalizing left with
  | nil => exact .pure first
  | cons part rest ih =>
    refine .bind (others part List.mem_cons_self) fun right second => ?_
    exact ih (joins _ _ _ first second) fun part mem => others part (List.mem_cons_of_mem _ mem)

theorem yields_chainTree {join : Expr → Token → Expr → Expr} (joins : JoinsBreaks join)
    {n : ExprSymbol} {types : List TokenType} {parts : (Form.chain n types).Value}
    (keeps : (Form.chain n types).KeepsBreaks around parts) :
    (chainTree join parts).Yields Expr.BreaksInLoops := by
  obtain ⟨first, rest⟩ := parts
  refine .bind keeps.1 fun left here => ?_
  exact yields_joinLeft joins here fun part mem => (keeps.2 part mem).2

theorem yields_wordTree {t : Token} : (wordTree t).Yields Expr.BreaksInLoops := by
  unfold wordTree
  split <;> exact fun _ => trivial

theorem yields_callTree {e : Expr} (first : e.BreaksInLoops) {rest : CallParts}
    (others : ∀ keyword arguments paren, .inl (keyword, arguments, paren) ∈ rest →
      ∀ x ∈ arguments, x.Yields Expr.AllBreaksInLoops) :
    (callTree e rest).Yields Expr.BreaksInLoops := by
  induction rest generalizing e with
  | nil => exact .pure first
  | cons part rest ih =>
    have later := fun keyword arguments paren mem =>
      others keyword arguments paren (List.mem_cons_of_mem _ mem)
    cases part with
    | inr property => exact ih first later
    | inl parts =>
      obtain ⟨keyword, arguments, paren⟩ := parts
      refine .bind (.orNone (others keyword arguments paren List.mem_cons_self)) fun es here => ?_
      refine ih ⟨first, ?_⟩ later
      cases es with
      | none => trivial
      | some es => exact here es rfl

theorem yields_functionParts {params : Option (Numbered (List Token))} {body : Numbered (List Stmt)}
    (keeps : body.Yields (Stmt.AllBreaksInLoops false)) :
    (functionParts params body).Yields fun parts => Stmt.AllBreaksInLoops false parts.2 :=
  .bind (P := fun _ => True) (fun _ => trivial) fun _ _ => .bind keeps fun _ here => .pure here

theorem yields_expr {n : ExprSymbol} {parts : n.form.Value}
    (keeps : n.form.KeepsBreaks ((Symbol.expr n).inLoop around) parts) :
    (n.tree parts).Yields Expr.BreaksInLoops := by
  cases n with
  | expression => exact keeps
  | assignment =>
    rcases parts with ⟨_ | ⟨object, dot⟩, name, equal, value⟩ | e
    · exact .bind (P := fun _ => True) (fun _ => trivial) fun _ _ =>
        .bind keeps.2.2.2 fun _ here => .pure here
    · exact .bind (keeps.1 _ rfl).1 fun _ first => .bind keeps.2.2.2 fun _ second =>
        .pure ⟨first, second⟩
    · exact keeps
  | logicOr => exact yields_chainTree joinsBreaks_logical keeps
  | logicAnd => exact yields_chainTree joinsBreaks_logical keeps
  | equality => exact yields_chainTree joinsBreaks_binary keeps
  | comparison => exact yields_chainTree joinsBreaks_binary keeps
  | term => exact yields_chainTree joinsBreaks_binary keeps
  | factor => exact yields_chainTree joinsBreaks_binary keeps
  | unary =>
    rcases parts with ⟨operator, operand⟩ | e
    · exact .bind keeps.2 fun _ here => .pure here
    · exact keeps
  | call =>
    obtain ⟨first, rest⟩ := parts
    refine .bind keeps.1 fun e here => yields_callTree here fun keyword arguments paren mem => ?_
    exact (keeps.2 _ mem).2.1
  | primary =>
    rcases parts with t | ⟨opening, inner, closing⟩ | ⟨keyword, dot, method⟩ |
      ⟨keyword, opening, params, closing, body⟩
    · exact yields_wordTree
    · exact .map keeps.2.1 fun _ here => here
    · exact fun _ => trivial
    · exact .bind (yields_functionParts keeps.2.2.2.2) fun _ here => .pure here

/-! ### Statements -/

theorem yields_firstClause {clause : Form.firstClause.Value}
    (keeps : Form.firstClause.KeepsBreaks around clause) :
    (firstClause clause).Yields fun o => ∀ s ∈ o, ∀ other, s.BreaksInLoops other := by
  rcases clause with s | s | semicolon
  · refine .map keeps fun s here t mem => ?_
    obtain rfl := Option.some.inj mem
    exact here
  · refine .map keeps fun s here t mem => ?_
    obtain rfl := Option.some.inj mem
    exact here
  · exact .pure nofun

theorem breaksInLoops_whileForm {initializer : Option Stmt} {condition increment : Option Expr}
    {body : Stmt} (first : ∀ s ∈ initializer, ∀ other, s.BreaksInLoops other)
    (second : ∀ e ∈ condition, e.BreaksInLoops) (third : ∀ e ∈ increment, e.BreaksInLoops)
    (last : body.BreaksInLoops true) :
    (whileForm initializer condition increment body).BreaksInLoops around := by
  have test : (condition.getD (.literal (.bool true))).BreaksInLoops := by
    cases condition with
    | none => trivial
    | some e => exact second e rfl
  rw [whileForm_eq]
  unfold Syntax.forLoop
  cases increment with
  | none =>
    cases initializer with
    | none => exact ⟨test, last⟩
    | some s => exact ⟨first s rfl around, ⟨test, last⟩, trivial⟩
  | some e =>
    have round : (Stmt.block [body, .expression e]).BreaksInLoops true := ⟨last, third e rfl, trivial⟩
    cases initializer with
    | none => exact ⟨test, round⟩
    | some s => exact ⟨first s rfl around, ⟨test, round⟩, trivial⟩

/-- The tree of a symbol keeps its promise when its parts keep theirs. -/
theorem Symbol.yields {n : Symbol} {parts : n.form.Value}
    (keeps : n.form.KeepsBreaks (n.inLoop around) parts) (inLoop : n = .breakStmt → around = true) :
    (n.tree parts).Yields (n.KeepsBreaks around) := by
  cases n with
  | program =>
    exact .mono (.inOrder keeps) fun _ => Stmt.allBreaksInLoops_iff.mpr
  | declaration =>
    rcases parts with s | s | s | s
    · exact keeps
    · exact keeps
    · exact fun i => keeps i around
    · exact keeps
  | classDecl =>
    obtain ⟨keyword, name, superclass, opening, methods, closing⟩ := parts
    refine .bind (P := fun _ => True) (fun _ => trivial) fun superclass _ => ?_
    exact .bind (.inOrder keeps.2.2.2.2.1) fun methods here =>
      .pure (FunctionDecl.allBreaksInLoops_iff.mpr here)
  | funDecl => exact .map keeps.2 fun _ here => here
  | varDecl =>
    obtain ⟨keyword, name, initializer, semicolon⟩ := parts
    cases initializer with
    | none => exact fun _ _ => trivial
    | some initializer => exact fun i _ => (keeps.2.2.1 initializer rfl).2 i
  | statement =>
    rcases parts with s | s | s | s | s | s | s | ss
    · exact fun i => keeps i around
    iterate 6 exact keeps
    exact .map keeps fun _ here => here
  | exprStmt => exact .map keeps.1 fun _ here _ => here
  | forStmt =>
    obtain ⟨keyword, opening, initializer, condition, semicolon, increment, closing, body⟩ := parts
    obtain ⟨-, -, hinitializer, hcondition, -, hincrement, -, hbody⟩ := keeps
    refine .bind (yields_firstClause hinitializer) fun _ first => ?_
    refine .bind (.orNone hcondition) fun _ second => .bind (.orNone hincrement) fun _ third => ?_
    exact .bind hbody fun _ last => .pure (breaksInLoops_whileForm first second third last)
  | ifStmt =>
    obtain ⟨keyword, opening, condition, closing, thenBranch, elseBranch⟩ := parts
    obtain ⟨-, -, hcondition, -, hthen, helse⟩ := keeps
    cases elseBranch with
    | none => exact .bind hcondition fun _ first => .bind hthen fun _ second => .pure ⟨first, second⟩
    | some elseBranch =>
      refine .bind hcondition fun _ first => .bind hthen fun _ second => ?_
      refine .bind (.orNone (P := Stmt.BreaksInLoops around) ?_) fun branch third => .pure ?_
      · rintro _ ⟨⟩
        exact (helse elseBranch rfl).2
      · cases branch with
        | none => exact ⟨first, second⟩
        | some s => exact ⟨first, second, third s rfl⟩
  | printStmt => exact .map keeps.2.1 fun _ here => here
  | returnStmt =>
    obtain ⟨keyword, value, semicolon⟩ := parts
    cases value with
    | none => exact fun _ => trivial
    | some value => exact fun i => keeps.2.1 value rfl i
  | whileStmt =>
    obtain ⟨-, -, hcondition, -, hbody⟩ := keeps
    exact .bind hcondition fun _ first => .bind hbody fun _ second => .pure ⟨first, second⟩
  | breakStmt => exact .pure (inLoop rfl)
  | function => exact .bind (yields_functionParts keeps.2.2.2.2) fun _ here => .pure here
  | block => exact .mono (.inOrder keeps.2.1) fun _ => Stmt.allBreaksInLoops_iff.mpr
  | parameters => exact fun _ => trivial
  | arguments =>
    obtain ⟨first, rest⟩ := parts
    refine Numbered.Yields.mono (.inOrder fun x mem => ?_) fun _ => Expr.allBreaksInLoops_iff.mpr
    obtain rfl | mem := List.mem_cons.mp mem
    · exact keeps.1
    · obtain ⟨part, here, rfl⟩ := List.mem_map.mp mem
      exact (keeps.2 part here).2
  | expr n => exact yields_expr keeps

/-- Where each `break` of a phrase is in a loop of its function, so is each of its tree. -/
theorem Phrase.keepsBreaks {f : Form} (p : Phrase f) {around : Bool} (h : p.BreaksInLoops around) :
    f.KeepsBreaks around p.value := by
  induction p generalizing around with
  | token t fits => trivial
  | rule p ih => exact Symbol.yields (ih h.2) h.1
  | seq p q ihp ihq => exact ⟨ihp h.1, ihq h.2⟩
  | left p ih => exact ih h
  | right q ih => exact ih h
  | none => exact nofun
  | some p ih =>
    rintro _ ⟨⟩
    exact ih h
  | nil => exact nofun
  | cons p ps ihp ihps =>
    intro v mem
    obtain rfl | mem := List.mem_cons.mp mem
    · exact ihp h.1
    · exact ihps h.2 v mem

end Lox.Grammar
