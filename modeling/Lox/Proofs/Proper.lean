import Lox.Proofs.Spelling
import Lox.Syntax.Uses

/-!
# Proper trees

What the parser promises of its trees: names are no keywords, `this` and `super` are spelled so,
declarations stand only where a body holds them, and each use has a number of its own.
-/

namespace Lox

/-- A name that is no keyword. -/
def Token.IsName (t : Token) : Prop := TokenType.keywords.lookup t.lexeme = none

theorem Token.IsName.ne {t : Token} (h : t.IsName) {word : String}
    (keyword : (TokenType.keywords.lookup word).isSome = true) : t.lexeme ≠ word := by
  rintro rfl
  rw [show TokenType.keywords.lookup t.lexeme = none from h] at keyword
  cases keyword

def Stmt.declared? : Stmt → Option String
  | .var name _ => some name.lexeme
  | .function declaration => some declaration.name.lexeme
  | .classDecl name _ _ => some name.lexeme
  | _ => none

mutual

def Expr.Proper : Expr → Prop
  | .literal _ => True
  | .grouping inner => inner.Proper
  | .unary _ operand => operand.Proper
  | .binary left _ right => left.Proper ∧ right.Proper
  | .logical left _ right => left.Proper ∧ right.Proper
  | .variable use => use.name.IsName
  | .assign target value => target.name.IsName ∧ value.Proper
  | .this use => use.name.lexeme = "this"
  | .super use _ => use.name.lexeme = "super"
  | .call callee _ arguments => callee.Proper ∧ Expr.ProperAll arguments
  | .get object _ => object.Proper
  | .set object _ value => object.Proper ∧ value.Proper
  | .lambda params body => (∀ p ∈ params, p.IsName) ∧ Stmt.ProperAll body
termination_by structural e => e

def Expr.ProperAll : List Expr → Prop
  | [] => True
  | e :: es => e.Proper ∧ Expr.ProperAll es
termination_by structural es => es

def FunctionDecl.Proper : FunctionDecl → Prop
  | ⟨name, params, body⟩ => name.IsName ∧ (∀ p ∈ params, p.IsName) ∧ Stmt.ProperAll body
termination_by structural f => f

def FunctionDecl.ProperAll : List FunctionDecl → Prop
  | [] => True
  | f :: fs => f.Proper ∧ FunctionDecl.ProperAll fs
termination_by structural fs => fs

def Stmt.Proper : Stmt → Prop
  | .expression e => e.Proper
  | .print e => e.Proper
  | .var name none => name.IsName
  | .var name (some e) => name.IsName ∧ e.Proper
  | .block body => Stmt.ProperAll body
  | .ifElse condition thenBranch none =>
    condition.Proper ∧ thenBranch.Proper ∧ thenBranch.declared? = none
  | .ifElse condition thenBranch (some elseBranch) =>
    condition.Proper ∧ (thenBranch.Proper ∧ thenBranch.declared? = none) ∧
      elseBranch.Proper ∧ elseBranch.declared? = none
  | .whileLoop condition body => condition.Proper ∧ body.Proper ∧ body.declared? = none
  | .breakLoop _ => True
  | .returnFrom _ none => True
  | .returnFrom _ (some e) => e.Proper
  | .function declaration => declaration.Proper
  | .classDecl name none methods => name.IsName ∧ FunctionDecl.ProperAll methods
  | .classDecl name (some superclass) methods =>
    name.IsName ∧ superclass.name.IsName ∧ FunctionDecl.ProperAll methods
termination_by structural s => s

def Stmt.ProperAll : List Stmt → Prop
  | [] => True
  | s :: ss => s.Proper ∧ Stmt.ProperAll ss
termination_by structural ss => ss

end

/-- The uses have different numbers from `i` to below `j`. -/
structure Ids (i j : Nat) (us : List (UseKind × Use)) : Prop where
  le : i ≤ j
  within : ∀ u ∈ us, i ≤ u.2.id ∧ u.2.id < j
  distinct : (us.map (·.2.id)).Nodup

namespace Ids

variable {i j k : Nat} {us vs : List (UseKind × Use)}

theorem nil (i : Nat) : Ids i i [] := ⟨Nat.le_refl i, nofun, List.nodup_nil⟩

theorem single (kind : UseKind) (name : Token) : Ids i (i + 1) [(kind, ⟨i, name⟩)] :=
  ⟨Nat.le_succ i,
    fun u hu => by cases List.mem_singleton.mp hu; exact ⟨Nat.le_refl i, Nat.lt_succ_self i⟩,
    List.nodup_cons.mpr ⟨nofun, List.nodup_nil⟩⟩

theorem append (h : Ids i j us) (h' : Ids j k vs) : Ids i k (us ++ vs) := by
  refine ⟨Nat.le_trans h.le h'.le, fun u hu => ?_, ?_⟩
  · have := h.le
    have := h'.le
    obtain hu | hu := List.mem_append.mp hu
    · have := h.within u hu
      omega
    · have := h'.within u hu
      omega
  · rw [List.map_append, List.nodup_append]
    refine ⟨h.distinct, h'.distinct, fun a ha b hb => ?_⟩
    obtain ⟨u, hu, rfl⟩ := List.mem_map.mp ha
    obtain ⟨v, hv, rfl⟩ := List.mem_map.mp hb
    have := h.within u hu
    have := h'.within v hv
    omega

theorem starts (h : Ids j k us) (same : i = j) : Ids i k us := same ▸ h

/-- Numbers do not ask for an order. -/
theorem perm (h : Ids i j us) (same : us.Perm vs) : Ids i j vs :=
  ⟨h.le, fun u hu => h.within u (same.mem_iff.mpr hu), (same.map _).nodup_iff.mp h.distinct⟩

theorem append_swap (h : Ids i j us) (h' : Ids j k vs) : Ids i k (vs ++ us) :=
  (h.append h').perm List.perm_append_comm

end Ids

end Lox
