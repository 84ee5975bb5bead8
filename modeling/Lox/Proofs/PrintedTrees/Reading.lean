import Lox.Proofs.PrintedTrees.Worded

/-!
# Reading shapes

A shape is read as a tree by its first word, the number of the items after it and which of them are
words. The shape of a tree is read as the tree: `Stmt.reading_shape`.
-/

namespace Lox

structure Reading where
  word : Option String := none
  /-- A parameter list. -/
  names : Option (List Token) := none
  /-- A property of an object. -/
  property : Option (Expr × Token) := none
  expr : Option Expr := none
  method : Option FunctionDecl := none
  stmt : Option Stmt := none

namespace Reading

def name (r : Reading) : Option Token := r.word.map .ofLexeme

def exprOfWord (w : String) : Expr :=
  if w = "nil" then .literal .nil
  else if w = "true" then .literal (.bool true)
  else if w = "false" then .literal (.bool false)
  else if w = "this" then .this ⟨0, .ofLexeme w⟩
  else .variable ⟨0, .ofLexeme w⟩

def ofWord (w : String) : Reading := { word := some w, expr := some (exprOfWord w) }

def operatorWords : List String :=
  ["!", "-", "+", "*", "/", "!=", "==", ">", ">=", "<", "<=", "and", "or"]

def operation? (operator : String) : List Reading → Option Expr
  | [x] => do
    let operand ← x.expr
    pure (.unary (.ofLexeme operator) operand)
  | [x, y] => do
    let left ← x.expr
    let right ← y.expr
    pure (if operator = "and" ∨ operator = "or" then .logical left (.ofLexeme operator) right
      else .binary left (.ofLexeme operator) right)
  | _ => none

def property? : String → List Reading → Option (Expr × Token)
  | ".", [x, y] => do
    let object ← x.expr
    let name ← y.name
    pure (object, name)
  | _, _ => none

def assigned (target : Reading) (value : Expr) : Option Expr :=
  match target.property with
  | some (object, name) => some (.set object name value)
  | none => do
    let name ← target.name
    pure (.assign ⟨0, name⟩ value)

def expr? (head : String) (items : List Reading) : Option Expr :=
  if operatorWords.contains head then operation? head items
  else
    match head, items with
    | "group", [x] => do
      let inner ← x.expr
      pure (.grouping inner)
    | "=", [target, value] => do
      let value ← value.expr
      assigned target value
    | "super", [x] => do
      let method ← x.name
      pure (.super ⟨0, .ofLexeme "super"⟩ method)
    | "call", callee :: arguments => do
      let callee ← callee.expr
      let arguments ← arguments.mapM (·.expr)
      pure (.call callee (.ofLexeme ")") arguments)
    | ".", items => (property? "." items).map fun (object, name) => .get object name
    | "fun", params :: body => do
      let params ← params.names
      let body ← body.mapM (·.stmt)
      pure (.lambda params body)
    | _, _ => none

def function? : List Reading → Option FunctionDecl
  | name :: params :: body => do
    let name ← name.name
    let params ← params.names
    let body ← body.mapM (·.stmt)
    pure ⟨name, params, body⟩
  | _ => none

def class? (name : Token) : List Reading → Option Stmt
  | [] => some (.classDecl name none [])
  | first :: others =>
    if first.word = some "<" then
      match others with
      | superclass :: methods => do
        let superclass ← superclass.name
        let methods ← methods.mapM (·.method)
        pure (.classDecl name (some ⟨0, superclass⟩) methods)
      | [] => none
    else do
      let methods ← (first :: others).mapM (·.method)
      pure (.classDecl name none methods)

def stmt? : String → List Reading → Option Stmt
  | ";", [x] => do
    let e ← x.expr
    pure (.expression e)
  | "print", [x] => do
    let e ← x.expr
    pure (.print e)
  | "var", [x] => do
    let name ← x.name
    pure (.var name none)
  | "var", [x, y] => do
    let name ← x.name
    let e ← y.expr
    pure (.var name (some e))
  | "block", items => do
    let body ← items.mapM (·.stmt)
    pure (.block body)
  | "if", [x, y] => do
    let condition ← x.expr
    let thenBranch ← y.stmt
    pure (.ifElse condition thenBranch none)
  | "if", [x, y, z] => do
    let condition ← x.expr
    let thenBranch ← y.stmt
    let elseBranch ← z.stmt
    pure (.ifElse condition thenBranch (some elseBranch))
  | "while", [x, y] => do
    let condition ← x.expr
    let body ← y.stmt
    pure (.whileLoop condition body)
  | "break", [] => some (.breakLoop (.ofLexeme "break"))
  | "return", [] => some (.returnFrom (.ofLexeme "return") none)
  | "return", [x] => do
    let e ← x.expr
    pure (.returnFrom (.ofLexeme "return") (some e))
  | "fun", items => do
    let declaration ← function? items
    pure (.function declaration)
  | "class", x :: items => do
    let name ← x.name
    class? name items
  | _, _ => none

def ofList (items : List Reading) : Reading where
  names := items.mapM name
  property := do property? (← (← items.head?).word) items.tail
  expr := do expr? (← (← items.head?).word) items.tail
  method := do if (← items.head?).word = some "method" then function? items.tail else none
  stmt := do stmt? (← (← items.head?).word) items.tail

end Reading

mutual

def Shape.reading : Shape → Reading
  | .word w => .ofWord w
  | .list items => .ofList (Shape.readings items)
termination_by structural x => x

def Shape.readings : List Shape → List Reading
  | [] => []
  | x :: xs => x.reading :: Shape.readings xs
termination_by structural xs => xs

end

/-! ### Words of trees -/

namespace Token.Stands

variable {t : Token}

/-- A name is no constant and not `this`. -/
theorem reads_name (h : t.Stands [.identifier]) :
    Reading.exprOfWord t.lexeme = .variable ⟨0, t.bare⟩ := by
  obtain ⟨-, -, -, -, -, other⟩ := h.name
  have ne {word : String} (keyword : word ∈ TokenType.keywords.map Prod.fst) : t.lexeme ≠ word :=
    fun same => other (same ▸ keyword)
  unfold Reading.exprOfWord
  rw [if_neg (ne (by decide)), if_neg (ne (by decide)), if_neg (ne (by decide)),
    if_neg (ne (by decide)), h.bare_name]

/-- A token of a kind that is spelled in one way. -/
theorem bare_word {type : TokenType} (h : t.Stands [type]) {w : String}
    (only : ∀ p ∈ spellings, p.2 = type → p.1 = w)
    (fixed : [type] ⊆ spellings.map Prod.snd) : Token.ofLexeme w = t.bare := by
  have spelled := only _ (h.mem_spellings fixed) (List.mem_singleton.mp h.1)
  rw [← spelled, h.bare_mark fixed]

end Token.Stands

namespace Reading

theorem expr?_operator {types : List TokenType} {operator : Token} (h : operator.Stands types)
    (fixed : types ⊆ spellings.map Prod.snd)
    (words : ∀ p ∈ spellings, p.2 ∈ types → operatorWords.contains p.1 = true)
    (operands : List Reading) :
    expr? operator.lexeme operands = operation? operator.lexeme operands :=
  if_pos (words _ (h.mem_spellings fixed) h.1)

end Reading

theorem names_paramsShape {params : List Token} (h : ∀ p ∈ params, p.Stands [.identifier]) :
    (paramsShape params).reading.names = some (params.map Token.bare) := by
  change (Shape.readings (params.map fun p => .word p.lexeme)).mapM Reading.name = _
  induction params with
  | nil => rfl
  | cons p ps ih =>
    have first : (Shape.word p.lexeme).reading.name = some p.bare :=
      congrArg some (h p List.mem_cons_self).bare_name
    have others := ih fun q mem => h q (List.mem_cons_of_mem p mem)
    rw [List.map_cons, Shape.readings, List.mapM_cons, first, others]
    rfl

/-! ### Reading back -/

mutual

/-- The shape of an expression is read as the expression. -/
theorem Expr.reading_shape : ∀ {e : Expr}, e.Worded → e.Symbolic →
    e.shape.reading.expr = some e.bare
  | .literal .nil, _, _ => rfl
  | .literal (.bool true), _, _ => rfl
  | .literal (.bool false), _, _ => rfl
  | .literal (.number _), _, symbolic => symbolic.elim
  | .literal (.string _), _, symbolic => symbolic.elim
  | .grouping inner, worded, symbolic =>
    congrArg (·.bind fun e => some (Expr.grouping e))
      (Expr.reading_shape (e := inner) worded symbolic)
  | .unary operator operand, worded, symbolic => by
    have inner := Expr.reading_shape worded.2 symbolic
    have reads := Reading.expr?_operator worded.1 (by decide) (by decide) [operand.shape.reading]
    refine Eq.trans reads ?_
    rw [Reading.operation?, inner, worded.1.bare_mark (by decide)]
    rfl
  | .binary left operator right, worded, symbolic => by
    have first := Expr.reading_shape worded.1 symbolic.1
    have second := Expr.reading_shape worded.2.2 symbolic.2
    have reads := Reading.expr?_operator worded.2.1 (by decide) (by decide)
      [left.shape.reading, right.shape.reading]
    have both : ∀ p ∈ spellings, p.2 ∈ binaryTypes → ¬ (p.1 = "and" ∨ p.1 = "or") := by decide
    have evaluated : ¬ (operator.lexeme = "and" ∨ operator.lexeme = "or") :=
      both _ (worded.2.1.mem_spellings (by decide)) worded.2.1.1
    refine Eq.trans reads ?_
    rw [Reading.operation?, first, second, worded.2.1.bare_mark (by decide)]
    exact congrArg some (if_neg evaluated)
  | .logical left operator right, worded, symbolic => by
    have first := Expr.reading_shape worded.1 symbolic.1
    have second := Expr.reading_shape worded.2.2 symbolic.2
    have reads := Reading.expr?_operator worded.2.1 (by decide) (by decide)
      [left.shape.reading, right.shape.reading]
    have either : ∀ p ∈ spellings, p.2 ∈ [TokenType.kwAnd, .kwOr] → p.1 = "and" ∨ p.1 = "or" := by
      decide
    have skips : operator.lexeme = "and" ∨ operator.lexeme = "or" :=
      either _ (worded.2.1.mem_spellings (by decide)) worded.2.1.1
    refine Eq.trans reads ?_
    rw [Reading.operation?, first, second, worded.2.1.bare_mark (by decide)]
    exact congrArg some (if_pos skips)
  | .variable _, worded, _ => congrArg some worded.reads_name
  | .assign target value, worded, symbolic => by
    have inner := Expr.reading_shape worded.2 symbolic
    change (value.shape.reading.expr.bind fun v =>
      some (Expr.assign ⟨0, .ofLexeme target.name.lexeme⟩ v)) = _
    rw [inner, worded.1.bare_name]
    rfl
  | .this _, worded, _ => by
    have word := Token.Stands.bare_word worded (w := "this") (by decide) (by decide)
    exact congrArg (fun t => some (Expr.this ⟨0, t⟩)) word
  | .super _ _, worded, _ => by
    have word := Token.Stands.bare_word worded.1 (w := "super") (by decide) (by decide)
    exact congrArg₂ (fun t m => some (Expr.super ⟨0, t⟩ m)) word worded.2.bare_name
  | .call callee paren arguments, worded, symbolic => by
    have first := Expr.reading_shape worded.1 symbolic.1
    have others := Expr.readings_shapes worded.2.2 symbolic.2
    have closing := Token.Stands.bare_word worded.2.1 (w := ")") (by decide) (by decide)
    change (callee.shape.reading.expr.bind fun c =>
      ((Shape.readings (Expr.shapes arguments)).mapM Reading.expr).bind fun es =>
        some (Expr.call c (.ofLexeme ")") es)) = _
    rw [first, others, closing]
    rfl
  | .get object name, worded, symbolic => by
    have inner := Expr.reading_shape worded.1 symbolic
    change (object.shape.reading.expr.bind fun o => some (o, Token.ofLexeme name.lexeme)).map _ = _
    rw [inner, worded.2.bare_name]
    rfl
  | .set object name value, worded, symbolic => by
    have first := Expr.reading_shape worded.1 symbolic.1
    have second := Expr.reading_shape worded.2.2 symbolic.2
    have property : (Shape.list [.word ".", object.shape, .word name.lexeme]).reading.property =
        some (object.bare, name.bare) := by
      change (object.shape.reading.expr.bind fun o => some (o, Token.ofLexeme name.lexeme)) = _
      rw [first, worded.2.1.bare_name]
      rfl
    change (value.shape.reading.expr.bind fun v =>
      Reading.assigned (Shape.list [.word ".", object.shape, .word name.lexeme]).reading v) = _
    rw [second, Option.bind_some, Reading.assigned, property]
    rfl
  | .lambda params body, worded, symbolic => by
    have names := names_paramsShape worded.1
    have statements := Stmt.readings_shapes worded.2 symbolic
    change ((paramsShape params).reading.names.bind fun ps =>
      ((Shape.readings (Stmt.shapes body)).mapM Reading.stmt).bind fun ss =>
        some (Expr.lambda ps ss)) = _
    rw [names, statements]
    rfl

theorem Expr.readings_shapes : ∀ {es : List Expr}, Expr.WordedAll es → Expr.SymbolicAll es →
    (Shape.readings (Expr.shapes es)).mapM Reading.expr = some (Expr.bares es)
  | [], _, _ => rfl
  | e :: es, worded, symbolic => by
    have first := Expr.reading_shape worded.1 symbolic.1
    have others := Expr.readings_shapes worded.2 symbolic.2
    rw [Expr.shapes, Shape.readings, List.mapM_cons, first, others]
    rfl

theorem FunctionDecl.reading_shape : ∀ {f : FunctionDecl}, f.Worded → f.Symbolic →
    Reading.function? (.ofWord f.name.lexeme :: (paramsShape f.params).reading ::
      Shape.readings (Stmt.shapes f.body)) = some f.bare
  | ⟨name, params, body⟩, worded, symbolic => by
    have names := names_paramsShape worded.2.1
    have statements := Stmt.readings_shapes worded.2.2 symbolic
    change ((paramsShape params).reading.names.bind fun ps =>
      ((Shape.readings (Stmt.shapes body)).mapM Reading.stmt).bind fun ss =>
        some (FunctionDecl.mk (.ofLexeme name.lexeme) ps ss)) = _
    rw [names, statements, worded.1.bare_name]
    rfl

theorem FunctionDecl.readings_shapes : ∀ {fs : List FunctionDecl}, FunctionDecl.WordedAll fs →
    FunctionDecl.SymbolicAll fs →
      (Shape.readings (FunctionDecl.shapes fs)).mapM Reading.method = some (FunctionDecl.bares fs)
  | [], _, _ => rfl
  | ⟨name, params, body⟩ :: fs, worded, symbolic => by
    have first := FunctionDecl.reading_shape worded.1 symbolic.1
    have others := FunctionDecl.readings_shapes worded.2 symbolic.2
    have method : (FunctionDecl.shape "method" ⟨name, params, body⟩).reading.method =
      some (FunctionDecl.bare ⟨name, params, body⟩) := first
    rw [FunctionDecl.shapes, Shape.readings, List.mapM_cons, method, others]
    rfl

/-- The shape of a statement is read as the statement. -/
theorem Stmt.reading_shape : ∀ {s : Stmt}, s.Worded → s.Symbolic →
    s.shape.reading.stmt = some s.bare
  | .expression e, worded, symbolic =>
    congrArg (·.bind fun e => some (Stmt.expression e))
      (Expr.reading_shape (e := e) worded symbolic)
  | .print e, worded, symbolic =>
    congrArg (·.bind fun e => some (Stmt.print e))
      (Expr.reading_shape (e := e) worded symbolic)
  | .var _ none, worded, _ => congrArg (fun name => some (Stmt.var name none)) worded.bare_name
  | .var name (some e), worded, symbolic => by
    have inner := Expr.reading_shape worded.2 symbolic
    change (e.shape.reading.expr.bind fun e => some (Stmt.var (.ofLexeme name.lexeme) (some e))) = _
    rw [inner, worded.1.bare_name]
    rfl
  | .block _, worded, symbolic =>
    congrArg (·.bind fun ss => some (Stmt.block ss)) (Stmt.readings_shapes worded symbolic)
  | .ifElse condition thenBranch none, worded, symbolic => by
    have test := Expr.reading_shape worded.1 symbolic.1
    have first := Stmt.reading_shape worded.2 symbolic.2
    change (condition.shape.reading.expr.bind fun c => thenBranch.shape.reading.stmt.bind fun t =>
      some (Stmt.ifElse c t none)) = _
    rw [test, first]
    rfl
  | .ifElse condition thenBranch (some elseBranch), worded, symbolic => by
    have test := Expr.reading_shape worded.1 symbolic.1
    have first := Stmt.reading_shape worded.2.1 symbolic.2.1
    have second := Stmt.reading_shape worded.2.2 symbolic.2.2
    change (condition.shape.reading.expr.bind fun c => thenBranch.shape.reading.stmt.bind fun t =>
      elseBranch.shape.reading.stmt.bind fun e => some (Stmt.ifElse c t (some e))) = _
    rw [test, first, second]
    rfl
  | .whileLoop condition body, worded, symbolic => by
    have test := Expr.reading_shape worded.1 symbolic.1
    have inner := Stmt.reading_shape worded.2 symbolic.2
    change (condition.shape.reading.expr.bind fun c => body.shape.reading.stmt.bind fun b =>
      some (Stmt.whileLoop c b)) = _
    rw [test, inner]
    rfl
  | .breakLoop _, worded, _ => by
    have word := Token.Stands.bare_word worded (w := "break") (by decide) (by decide)
    exact congrArg (fun t => some (Stmt.breakLoop t)) word
  | .returnFrom _ none, worded, _ => by
    have word := Token.Stands.bare_word worded (w := "return") (by decide) (by decide)
    exact congrArg (fun t => some (Stmt.returnFrom t none)) word
  | .returnFrom _ (some e), worded, symbolic => by
    have word := Token.Stands.bare_word worded.1 (w := "return") (by decide) (by decide)
    have inner := Expr.reading_shape worded.2 symbolic
    change (e.shape.reading.expr.bind fun e =>
      some (Stmt.returnFrom (.ofLexeme "return") (some e))) = _
    rw [inner, word]
    rfl
  | .function ⟨_, _, _⟩, worded, symbolic =>
    congrArg (·.bind fun f => some (Stmt.function f)) (FunctionDecl.reading_shape worded symbolic)
  | .classDecl name none [], worded, _ =>
    congrArg (fun name => some (Stmt.classDecl name none [])) worded.1.bare_name
  | .classDecl name none (⟨f, params, body⟩ :: fs), worded, symbolic => by
    have methods := FunctionDecl.readings_shapes worded.2.2 symbolic
    change ((Shape.readings (FunctionDecl.shapes (⟨f, params, body⟩ :: fs))).mapM
      Reading.method).bind (fun fs => some (Stmt.classDecl (.ofLexeme name.lexeme) none fs)) = _
    rw [methods, worded.1.bare_name]
    rfl
  | .classDecl name (some superclass) methods, worded, symbolic => by
    have inner := FunctionDecl.readings_shapes worded.2.2 symbolic
    have parent := (worded.2.1 _ rfl).bare_name
    change ((Shape.readings (FunctionDecl.shapes methods)).mapM Reading.method).bind (fun fs =>
      some (Stmt.classDecl (.ofLexeme name.lexeme)
        (some ⟨0, .ofLexeme superclass.name.lexeme⟩) fs)) = _
    rw [inner, worded.1.bare_name, parent]
    rfl

theorem Stmt.readings_shapes : ∀ {ss : List Stmt}, Stmt.WordedAll ss → Stmt.SymbolicAll ss →
    (Shape.readings (Stmt.shapes ss)).mapM Reading.stmt = some (Stmt.bares ss)
  | [], _, _ => rfl
  | s :: ss, worded, symbolic => by
    have first := Stmt.reading_shape worded.1 symbolic.1
    have others := Stmt.readings_shapes worded.2 symbolic.2
    rw [Stmt.shapes, Shape.readings, List.mapM_cons, first, others]
    rfl

end

end Lox
