import Lox.Proofs.PrintedTrees.Shape
import Lox.Proofs.Spelling

/-!
# The shapes of trees

What a tree prints is the text of its shape: `Stmt.text_shape`. The words of the shape are plain
where each token of the tree stands for its kind and no constant is a string or a number.
-/

namespace Lox

/-! ### Trees without places -/

def Token.bare (t : Token) : Token := { t with line := 0 }

def Use.bare (use : Use) : Use := ⟨0, use.name.bare⟩

mutual

/-- A tree without the numbers of uses and the lines of tokens. -/
def Expr.bare : Expr → Expr
  | .literal value => .literal value
  | .grouping inner => .grouping inner.bare
  | .unary operator operand => .unary operator.bare operand.bare
  | .binary left operator right => .binary left.bare operator.bare right.bare
  | .logical left operator right => .logical left.bare operator.bare right.bare
  | .variable use => .variable use.bare
  | .assign target value => .assign target.bare value.bare
  | .this use => .this use.bare
  | .super use method => .super use.bare method.bare
  | .call callee paren arguments => .call callee.bare paren.bare (Expr.bares arguments)
  | .get object name => .get object.bare name.bare
  | .set object name value => .set object.bare name.bare value.bare
  | .lambda params body => .lambda (params.map Token.bare) (Stmt.bares body)
termination_by structural e => e

def Expr.bares : List Expr → List Expr
  | [] => []
  | e :: es => e.bare :: Expr.bares es
termination_by structural es => es

def FunctionDecl.bare : FunctionDecl → FunctionDecl
  | ⟨name, params, body⟩ => ⟨name.bare, params.map Token.bare, Stmt.bares body⟩
termination_by structural f => f

def FunctionDecl.bares : List FunctionDecl → List FunctionDecl
  | [] => []
  | f :: fs => f.bare :: FunctionDecl.bares fs
termination_by structural fs => fs

def Stmt.bare : Stmt → Stmt
  | .expression e => .expression e.bare
  | .print e => .print e.bare
  | .var name none => .var name.bare none
  | .var name (some e) => .var name.bare (some e.bare)
  | .block body => .block (Stmt.bares body)
  | .ifElse condition thenBranch none => .ifElse condition.bare thenBranch.bare none
  | .ifElse condition thenBranch (some elseBranch) =>
    .ifElse condition.bare thenBranch.bare (some elseBranch.bare)
  | .whileLoop condition body => .whileLoop condition.bare body.bare
  | .breakLoop keyword => .breakLoop keyword.bare
  | .returnFrom keyword none => .returnFrom keyword.bare none
  | .returnFrom keyword (some e) => .returnFrom keyword.bare (some e.bare)
  | .function declaration => .function declaration.bare
  | .classDecl name superclass methods =>
    .classDecl name.bare (superclass.map Use.bare) (FunctionDecl.bares methods)
termination_by structural s => s

def Stmt.bares : List Stmt → List Stmt
  | [] => []
  | s :: ss => s.bare :: Stmt.bares ss
termination_by structural ss => ss

end

theorem Stmt.bares_eq_map (ss : List Stmt) : Stmt.bares ss = ss.map Stmt.bare := by
  induction ss with
  | nil => rfl
  | cons s ss ih => rw [Stmt.bares, ih, List.map_cons]

/-! ### Trees of words -/

/-- The operators between operands that are both evaluated. -/
def binaryTypes : List TokenType :=
  [.bangEqual, .equalEqual, .greater, .greaterEqual, .less, .lessEqual, .minus, .plus, .slash,
   .star]

/-- A token of one of these kinds that is spelled like its kind. -/
def Token.Stands (types : List TokenType) (t : Token) : Prop :=
  t.type ∈ types ∧ Lexeme t.type t.lexeme.toList

def spellings : List (String × TokenType) :=
  operators.map (fun p => (String.ofList p.1, p.2)) ++ TokenType.keywords

/-- The token that is spelled so, if it is neither a string nor a number. -/
def Token.ofLexeme (w : String) : Token :=
  ⟨(operators.lookup w.toList).getD (.ofWord w), w, 0⟩

theorem Lexeme.mem_spellings {type : TokenType} {cs : List Char} (h : Lexeme type cs)
    (fixed : type ∈ spellings.map Prod.snd) : (String.ofList cs, type) ∈ spellings := by
  cases h with
  | operator isOperator =>
    exact List.mem_append_left _ (List.mem_map_of_mem (f := fun p => (String.ofList p.1, p.2)) isOperator)
  | string => simp [spellings, operators, TokenType.keywords] at fixed
  | whole => simp [spellings, operators, TokenType.keywords] at fixed
  | decimal => simp [spellings, operators, TokenType.keywords] at fixed
  | keyword isKeyword =>
    rw [String.ofList_toList]
    exact List.mem_append_right _ isKeyword
  | name => simp [spellings, operators, TokenType.keywords] at fixed

/-- Names are letters and digits, and no keywords. -/
theorem Lexeme.of_name {cs : List Char} (h : Lexeme .identifier cs) :
    ∃ c rest, cs = c :: rest ∧ c.isAlpha = true ∧ (∀ d ∈ rest, d.isAlphanum = true ∨ d = '_') ∧
      String.ofList cs ∉ TokenType.keywords.map Prod.fst := by
  cases h with
  | operator isOperator => exact absurd isOperator (by simp [operators])
  | keyword isKeyword => exact absurd isKeyword (by simp [TokenType.keywords])
  | name letter others other => exact ⟨_, _, rfl, letter, others, other⟩

namespace Token.Stands

variable {types : List TokenType} {t : Token}

/-! Tokens that are all spelled in one way -/

section Fixed

variable (h : t.Stands types) (fixed : types ⊆ spellings.map Prod.snd)

include h fixed

theorem mem_spellings : (t.lexeme, t.type) ∈ spellings := by
  have mem := h.2.mem_spellings (fixed h.1)
  rwa [String.ofList_toList] at mem

theorem bare_mark : .ofLexeme t.lexeme = t.bare := by
  have all : ∀ p ∈ spellings, (operators.lookup p.1.toList).getD (.ofWord p.1) = p.2 := by decide
  have kind := all _ (h.mem_spellings fixed)
  dsimp only at kind
  rw [ofLexeme, kind, bare]

theorem plain_mark (opening : .leftParen ∉ types) (closing : .rightParen ∉ types) :
    isPlainWord t.lexeme = true := by
  have all : ∀ p ∈ spellings, p.2 ≠ .leftParen → p.2 ≠ .rightParen → isPlainWord p.1 = true := by
    decide
  exact all (t.lexeme, t.type) (h.mem_spellings fixed) (ne_of_mem_of_not_mem h.1 opening)
    (ne_of_mem_of_not_mem h.1 closing)

end Fixed

/-! Names -/

section Names

variable (h : t.Stands [.identifier])

include h

theorem name : ∃ c rest, t.lexeme.toList = c :: rest ∧ c.isAlpha = true ∧
    (∀ d ∈ rest, d.isAlphanum = true ∨ d = '_') ∧
      t.lexeme ∉ TokenType.keywords.map Prod.fst := by
  have lexeme := h.2
  rw [List.mem_singleton.mp h.1] at lexeme
  obtain ⟨c, rest, here, letter, others, other⟩ := lexeme.of_name
  rw [String.ofList_toList] at other
  exact ⟨c, rest, here, letter, others, other⟩

theorem bare_name : .ofLexeme t.lexeme = t.bare := by
  obtain ⟨c, rest, here, letter, -, other⟩ := h.name
  have marks : ∀ p ∈ operators, (p.1.head?.all fun c => !c.isAlpha) = true := by decide
  have none : operators.lookup (c :: rest) = .none := by
    refine List.lookup_eq_none_iff.mpr fun p mem => bne_iff_ne.mpr fun same => ?_
    have mark := marks p mem
    rw [← same, List.head?_cons, Option.all_some, letter] at mark
    cases mark
  have type := List.mem_singleton.mp h.1
  rw [ofLexeme, here, none, Option.getD_none, TokenType.ofWord_of_notMem other, bare, type]

theorem plain_name : isPlainWord t.lexeme = true := by
  obtain ⟨c, rest, here, letter, others, -⟩ := h.name
  have inside (d : Char) (h : d.isAlphanum = true ∨ d = '_') : endsWord d = false := by
    have ends : [' ', '(', ')', '\n'].all (fun c => !(c.isAlphanum || c == '_')) = true := rfl
    refine Bool.eq_false_iff.mpr fun ending => ?_
    have other := List.all_eq_true.mp ends d (List.contains_iff_mem.mp ending)
    obtain alphanum | rfl := h
    · rw [alphanum] at other
      cases other
    · cases other
  rw [isPlainWord, here]
  refine Bool.and_eq_true_iff.mpr ⟨rfl, List.all_eq_true.mpr fun d mem => ?_⟩
  obtain rfl | mem := List.mem_cons.mp mem
  · rw [inside d (.inl (by simp [Char.isAlphanum, letter]))]
    rfl
  · rw [inside d (others d mem)]
    rfl

end Names

end Token.Stands

mutual

/-- Each token of the tree is of a kind that may stand in its place, and spelled like it. -/
def Expr.Worded : Expr → Prop
  | .literal _ => True
  | .grouping inner => inner.Worded
  | .unary operator operand => operator.Stands [.bang, .minus] ∧ operand.Worded
  | .binary left operator right => left.Worded ∧ operator.Stands binaryTypes ∧ right.Worded
  | .logical left operator right => left.Worded ∧ operator.Stands [.kwAnd, .kwOr] ∧ right.Worded
  | .variable use => use.name.Stands [.identifier]
  | .assign target value => target.name.Stands [.identifier] ∧ value.Worded
  | .this use => use.name.Stands [.kwThis]
  | .super use method => use.name.Stands [.kwSuper] ∧ method.Stands [.identifier]
  | .call callee paren arguments =>
    callee.Worded ∧ paren.Stands [.rightParen] ∧ Expr.WordedAll arguments
  | .get object name => object.Worded ∧ name.Stands [.identifier]
  | .set object name value => object.Worded ∧ name.Stands [.identifier] ∧ value.Worded
  | .lambda params body => (∀ p ∈ params, p.Stands [.identifier]) ∧ Stmt.WordedAll body
termination_by structural e => e

def Expr.WordedAll : List Expr → Prop
  | [] => True
  | e :: es => e.Worded ∧ Expr.WordedAll es
termination_by structural es => es

def FunctionDecl.Worded : FunctionDecl → Prop
  | ⟨name, params, body⟩ =>
    name.Stands [.identifier] ∧ (∀ p ∈ params, p.Stands [.identifier]) ∧ Stmt.WordedAll body
termination_by structural f => f

def FunctionDecl.WordedAll : List FunctionDecl → Prop
  | [] => True
  | f :: fs => f.Worded ∧ FunctionDecl.WordedAll fs
termination_by structural fs => fs

def Stmt.Worded : Stmt → Prop
  | .expression e => e.Worded
  | .print e => e.Worded
  | .var name none => name.Stands [.identifier]
  | .var name (some e) => name.Stands [.identifier] ∧ e.Worded
  | .block body => Stmt.WordedAll body
  | .ifElse condition thenBranch none => condition.Worded ∧ thenBranch.Worded
  | .ifElse condition thenBranch (some elseBranch) =>
    condition.Worded ∧ thenBranch.Worded ∧ elseBranch.Worded
  | .whileLoop condition body => condition.Worded ∧ body.Worded
  | .breakLoop keyword => keyword.Stands [.kwBreak]
  | .returnFrom keyword none => keyword.Stands [.kwReturn]
  | .returnFrom keyword (some e) => keyword.Stands [.kwReturn] ∧ e.Worded
  | .function declaration => declaration.Worded
  | .classDecl name superclass methods =>
    name.Stands [.identifier] ∧ (∀ use ∈ superclass, use.name.Stands [.identifier]) ∧
      FunctionDecl.WordedAll methods
termination_by structural s => s

def Stmt.WordedAll : List Stmt → Prop
  | [] => True
  | s :: ss => s.Worded ∧ Stmt.WordedAll ss
termination_by structural ss => ss

end

mutual

/-- No constant of the tree is a string or a number. -/
def Expr.Symbolic : Expr → Prop
  | .literal (.string _) => False
  | .literal (.number _) => False
  | .literal _ => True
  | .grouping inner => inner.Symbolic
  | .unary _ operand => operand.Symbolic
  | .binary left _ right => left.Symbolic ∧ right.Symbolic
  | .logical left _ right => left.Symbolic ∧ right.Symbolic
  | .variable _ => True
  | .assign _ value => value.Symbolic
  | .this _ => True
  | .super _ _ => True
  | .call callee _ arguments => callee.Symbolic ∧ Expr.SymbolicAll arguments
  | .get object _ => object.Symbolic
  | .set object _ value => object.Symbolic ∧ value.Symbolic
  | .lambda _ body => Stmt.SymbolicAll body
termination_by structural e => e

def Expr.SymbolicAll : List Expr → Prop
  | [] => True
  | e :: es => e.Symbolic ∧ Expr.SymbolicAll es
termination_by structural es => es

def FunctionDecl.Symbolic : FunctionDecl → Prop
  | ⟨_, _, body⟩ => Stmt.SymbolicAll body
termination_by structural f => f

def FunctionDecl.SymbolicAll : List FunctionDecl → Prop
  | [] => True
  | f :: fs => f.Symbolic ∧ FunctionDecl.SymbolicAll fs
termination_by structural fs => fs

def Stmt.Symbolic : Stmt → Prop
  | .expression e => e.Symbolic
  | .print e => e.Symbolic
  | .var _ none => True
  | .var _ (some e) => e.Symbolic
  | .block body => Stmt.SymbolicAll body
  | .ifElse condition thenBranch none => condition.Symbolic ∧ thenBranch.Symbolic
  | .ifElse condition thenBranch (some elseBranch) =>
    condition.Symbolic ∧ thenBranch.Symbolic ∧ elseBranch.Symbolic
  | .whileLoop condition body => condition.Symbolic ∧ body.Symbolic
  | .breakLoop _ => True
  | .returnFrom _ none => True
  | .returnFrom _ (some e) => e.Symbolic
  | .function declaration => declaration.Symbolic
  | .classDecl _ _ methods => FunctionDecl.SymbolicAll methods
termination_by structural s => s

def Stmt.SymbolicAll : List Stmt → Prop
  | [] => True
  | s :: ss => s.Symbolic ∧ Stmt.SymbolicAll ss
termination_by structural ss => ss

end

/-! ### Shapes -/

def paramsShape (params : List Token) : Shape := .list (params.map fun p => .word p.lexeme)

mutual

def Expr.shape : Expr → Shape
  | .literal value => .word value.text
  | .grouping inner => .list [.word "group", inner.shape]
  | .unary operator operand => .list [.word operator.lexeme, operand.shape]
  | .binary left operator right => .list [.word operator.lexeme, left.shape, right.shape]
  | .logical left operator right => .list [.word operator.lexeme, left.shape, right.shape]
  | .variable use => .word use.name.lexeme
  | .assign target value => .list [.word "=", .word target.name.lexeme, value.shape]
  | .this _ => .word "this"
  | .super _ method => .list [.word "super", .word method.lexeme]
  | .call callee _ arguments => .list (.word "call" :: callee.shape :: Expr.shapes arguments)
  | .get object name => .list [.word ".", object.shape, .word name.lexeme]
  | .set object name value =>
    .list [.word "=", .list [.word ".", object.shape, .word name.lexeme], value.shape]
  | .lambda params body => .list (.word "fun" :: paramsShape params :: Stmt.shapes body)
termination_by structural e => e

def Expr.shapes : List Expr → List Shape
  | [] => []
  | e :: es => e.shape :: Expr.shapes es
termination_by structural es => es

def FunctionDecl.shape (tag : String) : FunctionDecl → Shape
  | ⟨name, params, body⟩ =>
    .list (.word tag :: .word name.lexeme :: paramsShape params :: Stmt.shapes body)
termination_by structural f => f

def FunctionDecl.shapes : List FunctionDecl → List Shape
  | [] => []
  | f :: fs => f.shape "method" :: FunctionDecl.shapes fs
termination_by structural fs => fs

def Stmt.shape : Stmt → Shape
  | .expression e => .list [.word ";", e.shape]
  | .print e => .list [.word "print", e.shape]
  | .var name none => .list [.word "var", .word name.lexeme]
  | .var name (some e) => .list [.word "var", .word name.lexeme, e.shape]
  | .block body => .list (.word "block" :: Stmt.shapes body)
  | .ifElse condition thenBranch none => .list [.word "if", condition.shape, thenBranch.shape]
  | .ifElse condition thenBranch (some elseBranch) =>
    .list [.word "if", condition.shape, thenBranch.shape, elseBranch.shape]
  | .whileLoop condition body => .list [.word "while", condition.shape, body.shape]
  | .breakLoop _ => .list [.word "break"]
  | .returnFrom _ none => .list [.word "return"]
  | .returnFrom _ (some e) => .list [.word "return", e.shape]
  | .function declaration => declaration.shape "fun"
  | .classDecl name none methods =>
    .list (.word "class" :: .word name.lexeme :: FunctionDecl.shapes methods)
  | .classDecl name (some superclass) methods =>
    .list (.word "class" :: .word name.lexeme :: .word "<" :: .word superclass.name.lexeme
      :: FunctionDecl.shapes methods)
termination_by structural s => s

def Stmt.shapes : List Stmt → List Shape
  | [] => []
  | s :: ss => s.shape :: Stmt.shapes ss
termination_by structural ss => ss

end

theorem text_paramsShape (params : List Token) : (paramsShape params).text = paramsText params := by
  rw [paramsShape, Shape.text, Shape.texts_eq_map, List.map_map]
  rfl

mutual

theorem Expr.text_shape : ∀ e : Expr, e.shape.text = e.text
  | .literal _ => rfl
  | .grouping inner => congrArg (fun i => parenthesized ["group", i]) inner.text_shape
  | .unary operator operand =>
    congrArg (fun o => parenthesized [operator.lexeme, o]) operand.text_shape
  | .binary left operator right =>
    congrArg₂ (fun l r => parenthesized [operator.lexeme, l, r]) left.text_shape right.text_shape
  | .logical left operator right =>
    congrArg₂ (fun l r => parenthesized [operator.lexeme, l, r]) left.text_shape right.text_shape
  | .variable _ => rfl
  | .assign target value =>
    congrArg (fun v => parenthesized ["=", target.name.lexeme, v]) value.text_shape
  | .this _ => rfl
  | .super _ _ => rfl
  | .call callee _ arguments =>
    congrArg₂ (fun c as => parenthesized ("call" :: c :: as)) callee.text_shape
      (Expr.texts_shapes arguments)
  | .get object name => congrArg (fun o => parenthesized [".", o, name.lexeme]) object.text_shape
  | .set object name value =>
    congrArg₂ (fun o v => parenthesized ["=", parenthesized [".", o, name.lexeme], v])
      object.text_shape value.text_shape
  | .lambda params body =>
    congrArg₂ (fun ps ss => parenthesized ("fun" :: ps :: ss)) (text_paramsShape params)
      (Stmt.texts_shapes body)

theorem Expr.texts_shapes : ∀ es : List Expr, Shape.texts (Expr.shapes es) = Expr.texts es
  | [] => rfl
  | e :: es => congrArg₂ List.cons e.text_shape (Expr.texts_shapes es)

theorem FunctionDecl.text_shape (tag : String) :
    ∀ f : FunctionDecl, (f.shape tag).text = f.text tag
  | ⟨name, params, body⟩ =>
    congrArg₂ (fun ps ss => parenthesized (tag :: name.lexeme :: ps :: ss))
      (text_paramsShape params) (Stmt.texts_shapes body)

theorem FunctionDecl.texts_shapes :
    ∀ fs : List FunctionDecl, Shape.texts (FunctionDecl.shapes fs) = FunctionDecl.texts fs
  | [] => rfl
  | f :: fs => congrArg₂ List.cons (f.text_shape "method") (FunctionDecl.texts_shapes fs)

/-- A statement prints its shape. -/
theorem Stmt.text_shape : ∀ s : Stmt, s.shape.text = s.text
  | .expression e => congrArg (fun e => parenthesized [";", e]) e.text_shape
  | .print e => congrArg (fun e => parenthesized ["print", e]) e.text_shape
  | .var _ none => rfl
  | .var name (some e) => congrArg (fun e => parenthesized ["var", name.lexeme, e]) e.text_shape
  | .block body => congrArg (fun ss => parenthesized ("block" :: ss)) (Stmt.texts_shapes body)
  | .ifElse condition thenBranch none =>
    congrArg₂ (fun c t => parenthesized ["if", c, t]) condition.text_shape thenBranch.text_shape
  | .ifElse condition thenBranch (some elseBranch) => by
    have branches := congrArg₂ (fun t e => [t, e]) thenBranch.text_shape elseBranch.text_shape
    exact congrArg₂ (fun c bs => parenthesized ("if" :: c :: bs)) condition.text_shape branches
  | .whileLoop condition body =>
    congrArg₂ (fun c b => parenthesized ["while", c, b]) condition.text_shape body.text_shape
  | .breakLoop _ => rfl
  | .returnFrom _ none => rfl
  | .returnFrom _ (some e) => congrArg (fun e => parenthesized ["return", e]) e.text_shape
  | .function declaration => declaration.text_shape "fun"
  | .classDecl name none methods =>
    congrArg (fun fs => parenthesized ("class" :: name.lexeme :: fs))
      (FunctionDecl.texts_shapes methods)
  | .classDecl name (some superclass) methods =>
    congrArg (fun fs => parenthesized
      ("class" :: name.lexeme :: "<" :: superclass.name.lexeme :: fs))
      (FunctionDecl.texts_shapes methods)

theorem Stmt.texts_shapes : ∀ ss : List Stmt, Shape.texts (Stmt.shapes ss) = Stmt.texts ss
  | [] => rfl
  | s :: ss => congrArg₂ List.cons s.text_shape (Stmt.texts_shapes ss)

end

/-! ### Plain words -/

theorem plain_names {params : List Token} (h : ∀ p ∈ params, p.Stands [.identifier]) :
    (paramsShape params).Plain := by
  change Shape.PlainAll (params.map fun p => .word p.lexeme)
  induction params with
  | nil => trivial
  | cons p ps ih =>
    exact ⟨(h p List.mem_cons_self).plain_name, ih fun q mem => h q (List.mem_cons_of_mem p mem)⟩

theorem plain_operation {types : List TokenType} {operator : Token} (h : operator.Stands types)
    (fixed : types ⊆ spellings.map Prod.snd) (opening : .leftParen ∉ types)
    (closing : .rightParen ∉ types) {operands : List Shape} (plain : Shape.PlainAll operands) :
    (Shape.list (.word operator.lexeme :: operands)).Plain :=
  ⟨h.plain_mark fixed opening closing, plain⟩

mutual

theorem Expr.plain_shape : ∀ {e : Expr}, e.Worded → e.Symbolic → e.shape.Plain
  | .literal .nil, _, _ => rfl
  | .literal (.bool true), _, _ => rfl
  | .literal (.bool false), _, _ => rfl
  | .literal (.number _), _, symbolic => symbolic.elim
  | .literal (.string _), _, symbolic => symbolic.elim
  | .grouping _, worded, symbolic => ⟨rfl, Expr.plain_shape worded symbolic, trivial⟩
  | .unary _ _, worded, symbolic =>
    plain_operation worded.1 (by decide) (by decide) (by decide)
      ⟨Expr.plain_shape worded.2 symbolic, trivial⟩
  | .binary _ _ _, worded, symbolic =>
    plain_operation worded.2.1 (by decide) (by decide) (by decide)
      ⟨Expr.plain_shape worded.1 symbolic.1, Expr.plain_shape worded.2.2 symbolic.2, trivial⟩
  | .logical _ _ _, worded, symbolic =>
    plain_operation worded.2.1 (by decide) (by decide) (by decide)
      ⟨Expr.plain_shape worded.1 symbolic.1, Expr.plain_shape worded.2.2 symbolic.2, trivial⟩
  | .variable _, worded, _ => worded.plain_name
  | .assign _ _, worded, symbolic =>
    ⟨rfl, worded.1.plain_name, Expr.plain_shape worded.2 symbolic, trivial⟩
  | .this _, _, _ => rfl
  | .super _ _, worded, _ => ⟨rfl, worded.2.plain_name, trivial⟩
  | .call _ _ _, worded, symbolic =>
    ⟨rfl, Expr.plain_shape worded.1 symbolic.1, Expr.plain_shapes worded.2.2 symbolic.2⟩
  | .get _ _, worded, symbolic =>
    ⟨rfl, Expr.plain_shape worded.1 symbolic, worded.2.plain_name, trivial⟩
  | .set _ _ _, worded, symbolic =>
    ⟨rfl, ⟨rfl, Expr.plain_shape worded.1 symbolic.1, worded.2.1.plain_name, trivial⟩,
      Expr.plain_shape worded.2.2 symbolic.2, trivial⟩
  | .lambda _ _, worded, symbolic =>
    ⟨rfl, plain_names worded.1, Stmt.plain_shapes worded.2 symbolic⟩

theorem Expr.plain_shapes : ∀ {es : List Expr}, Expr.WordedAll es → Expr.SymbolicAll es →
    Shape.PlainAll (Expr.shapes es)
  | [], _, _ => trivial
  | _ :: _, worded, symbolic =>
    ⟨Expr.plain_shape worded.1 symbolic.1, Expr.plain_shapes worded.2 symbolic.2⟩

theorem FunctionDecl.plain_shape {tag : String} (plain : isPlainWord tag = true) :
    ∀ {f : FunctionDecl}, f.Worded → f.Symbolic → (f.shape tag).Plain
  | ⟨_, _, _⟩, worded, symbolic =>
    ⟨plain, worded.1.plain_name, plain_names worded.2.1, Stmt.plain_shapes worded.2.2 symbolic⟩

theorem FunctionDecl.plain_shapes : ∀ {fs : List FunctionDecl}, FunctionDecl.WordedAll fs →
    FunctionDecl.SymbolicAll fs → Shape.PlainAll (FunctionDecl.shapes fs)
  | [], _, _ => trivial
  | _ :: _, worded, symbolic =>
    ⟨FunctionDecl.plain_shape rfl worded.1 symbolic.1,
      FunctionDecl.plain_shapes worded.2 symbolic.2⟩

/-- The words of a tree are plain. -/
theorem Stmt.plain_shape : ∀ {s : Stmt}, s.Worded → s.Symbolic → s.shape.Plain
  | .expression _, worded, symbolic => ⟨rfl, Expr.plain_shape worded symbolic, trivial⟩
  | .print _, worded, symbolic => ⟨rfl, Expr.plain_shape worded symbolic, trivial⟩
  | .var _ none, worded, _ => ⟨rfl, worded.plain_name, trivial⟩
  | .var _ (some _), worded, symbolic =>
    ⟨rfl, worded.1.plain_name, Expr.plain_shape worded.2 symbolic, trivial⟩
  | .block _, worded, symbolic => ⟨rfl, Stmt.plain_shapes worded symbolic⟩
  | .ifElse _ _ none, worded, symbolic =>
    ⟨rfl, Expr.plain_shape worded.1 symbolic.1, Stmt.plain_shape worded.2 symbolic.2, trivial⟩
  | .ifElse _ _ (some _), worded, symbolic =>
    ⟨rfl, Expr.plain_shape worded.1 symbolic.1, Stmt.plain_shape worded.2.1 symbolic.2.1,
      Stmt.plain_shape worded.2.2 symbolic.2.2, trivial⟩
  | .whileLoop _ _, worded, symbolic =>
    ⟨rfl, Expr.plain_shape worded.1 symbolic.1, Stmt.plain_shape worded.2 symbolic.2, trivial⟩
  | .breakLoop _, _, _ => ⟨rfl, trivial⟩
  | .returnFrom _ none, _, _ => ⟨rfl, trivial⟩
  | .returnFrom _ (some _), worded, symbolic =>
    ⟨rfl, Expr.plain_shape worded.2 symbolic, trivial⟩
  | .function _, worded, symbolic => FunctionDecl.plain_shape rfl worded symbolic
  | .classDecl _ none _, worded, symbolic =>
    ⟨rfl, worded.1.plain_name, FunctionDecl.plain_shapes worded.2.2 symbolic⟩
  | .classDecl _ (some _) _, worded, symbolic =>
    ⟨rfl, worded.1.plain_name, rfl, (worded.2.1 _ rfl).plain_name,
      FunctionDecl.plain_shapes worded.2.2 symbolic⟩

theorem Stmt.plain_shapes : ∀ {ss : List Stmt}, Stmt.WordedAll ss → Stmt.SymbolicAll ss →
    Shape.PlainAll (Stmt.shapes ss)
  | [], _, _ => trivial
  | _ :: _, worded, symbolic =>
    ⟨Stmt.plain_shape worded.1 symbolic.1, Stmt.plain_shapes worded.2 symbolic.2⟩

end

end Lox
