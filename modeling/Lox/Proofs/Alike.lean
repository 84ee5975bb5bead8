import Mathlib.Logic.Equiv.Basic
import Mathlib.Data.List.Forall2
import Lox.Resolution

/-!
# Programs, values and machines that are alike

Two programs are alike if they differ at most in the numbers of uses, in the lines of tokens and in
the names of variables, which are renamed scope by scope. Values and machines are alike if their code
is, and if a name stands for the same in a frame as its new name does.
-/

namespace Lox

/-! ### Renamings -/

abbrev Renaming := String ≃ String

/-- The renamings of the scopes around a place, the innermost first. -/
def Renamings := Nat → Renaming

namespace Renamings

def plain : Renamings := fun _ => Equiv.refl String

def push (Γ : Renamings) (ρ : Renaming) : Renamings
  | 0 => ρ
  | d + 1 => Γ d

theorem push_plain : plain.push (Equiv.refl String) = plain := by
  funext d
  cases d <;> rfl

/-- The renaming of the scope at a distance; globals keep their names. -/
def at? (Γ : Renamings) : Option Nat → Renaming
  | none => Equiv.refl String
  | some d => Γ d

theorem at?_plain (d : Option Nat) : plain.at? d = Equiv.refl String := by
  cases d <;> rfl

def tail (Γ : Renamings) : Renamings := fun d => Γ (d + 1)

end Renamings

structure Pairing where
  /-- The lines of the same token. -/
  lines : Nat → Nat → Prop
  /-- The numbers of the same use. -/
  ids : Nat → Nat → Prop
  /-- The distances that a use of the first program may have. -/
  distances : Nat → Option Nat → Prop
  /-- The names of variables in the first program. -/
  names : String → Prop
  /-- How a scope may be renamed. -/
  renames : Renaming → Prop

/-- A pairing in which keywords are not renamed. -/
structure Pairing.Lawful (P : Pairing) : Prop where
  refl : P.renames (Equiv.refl String)
  this : ∀ ρ, P.renames ρ → ρ "this" = "this"
  super : ∀ ρ, P.renames ρ → ρ "super" = "super"

/-- What is alike under the first pairing is so under the second. -/
structure Pairing.Le (P Q : Pairing) : Prop where
  lines : ∀ l l', P.lines l l' → Q.lines l l'
  ids : ∀ i i', P.ids i i' → Q.ids i i'
  distances : ∀ i i' d, P.ids i i' → Q.distances i d → P.distances i d
  names : ∀ x, P.names x → Q.names x
  renames : ∀ ρ, P.renames ρ → Q.renames ρ

/-! ### Code -/

namespace Pairing

variable (P : Pairing)

/-- Two tokens that differ at most in their lines. -/
structure Tokens (t t' : Token) : Prop where
  type : t'.type = t.type
  lexeme : t'.lexeme = t.lexeme
  line : P.lines t.line t'.line

structure Named (ρ : Renaming) (t t' : Token) : Prop where
  type : t'.type = t.type
  lexeme : t'.lexeme = ρ t.lexeme
  known : P.names t.lexeme
  line : P.lines t.line t'.line

/-- The same use, whose name is that of the variable that it refers to. -/
structure Uses (Γ : Renamings) (u u' : Use) : Prop where
  ids : P.ids u.id u'.id
  type : u'.name.type = u.name.type
  lexeme : ∀ d, P.distances u.id d → u'.name.lexeme = Γ.at? d u.name.lexeme
  known : P.names u.name.lexeme
  line : P.lines u.name.line u'.name.line

end Pairing

mutual

inductive Expr.Alike (P : Pairing) : Renamings → Expr → Expr → Prop
  | literal {Γ value} : Expr.Alike P Γ (.literal value) (.literal value)
  | grouping {Γ e e'} : Expr.Alike P Γ e e' → Expr.Alike P Γ (.grouping e) (.grouping e')
  | unary {Γ t t' e e'} : P.Tokens t t' → Expr.Alike P Γ e e' →
    Expr.Alike P Γ (.unary t e) (.unary t' e')
  | binary {Γ l l' t t' r r'} : Expr.Alike P Γ l l' → P.Tokens t t' → Expr.Alike P Γ r r' →
    Expr.Alike P Γ (.binary l t r) (.binary l' t' r')
  | logical {Γ l l' t t' r r'} : Expr.Alike P Γ l l' → P.Tokens t t' → Expr.Alike P Γ r r' →
    Expr.Alike P Γ (.logical l t r) (.logical l' t' r')
  | variable {Γ u u'} : P.Uses Γ u u' → Expr.Alike P Γ (.variable u) (.variable u')
  | assign {Γ u u' e e'} : P.Uses Γ u u' → Expr.Alike P Γ e e' →
    Expr.Alike P Γ (.assign u e) (.assign u' e')
  | this {Γ u u'} : P.Uses Γ u u' → Expr.Alike P Γ (.this u) (.this u')
  | super {Γ u u' t t'} : P.Uses Γ u u' → P.Tokens t t' →
    Expr.Alike P Γ (.super u t) (.super u' t')
  | call {Γ e e' t t' es es'} : Expr.Alike P Γ e e' → P.Tokens t t' → Expr.AllAlike P Γ es es' →
    Expr.Alike P Γ (.call e t es) (.call e' t' es')
  | get {Γ e e' t t'} : Expr.Alike P Γ e e' → P.Tokens t t' →
    Expr.Alike P Γ (.get e t) (.get e' t')
  | set {Γ e e' t t' v v'} : Expr.Alike P Γ e e' → P.Tokens t t' → Expr.Alike P Γ v v' →
    Expr.Alike P Γ (.set e t v) (.set e' t' v')
  | lambda {Γ ρ ps ps' ss ss'} : P.renames ρ → List.Forall₂ (P.Named ρ) ps ps' →
    Stmt.AllAlike P (Γ.push ρ) ss ss' → Expr.Alike P Γ (.lambda ps ss) (.lambda ps' ss')

inductive Expr.AllAlike (P : Pairing) : Renamings → List Expr → List Expr → Prop
  | nil {Γ} : Expr.AllAlike P Γ [] []
  | cons {Γ e e' es es'} : Expr.Alike P Γ e e' → Expr.AllAlike P Γ es es' →
    Expr.AllAlike P Γ (e :: es) (e' :: es')

/-- The name of a function is shown, so it stays. -/
inductive FunctionDecl.Alike (P : Pairing) : Renamings → FunctionDecl → FunctionDecl → Prop
  | mk {Γ ρ name name' ps ps' ss ss'} : P.Tokens name name' → P.renames ρ →
    List.Forall₂ (P.Named ρ) ps ps' → Stmt.AllAlike P (Γ.push ρ) ss ss' →
    FunctionDecl.Alike P Γ ⟨name, ps, ss⟩ ⟨name', ps', ss'⟩

inductive FunctionDecl.AllAlike (P : Pairing) :
    Renamings → List FunctionDecl → List FunctionDecl → Prop
  | nil {Γ} : FunctionDecl.AllAlike P Γ [] []
  | cons {Γ f f' fs fs'} : FunctionDecl.Alike P Γ f f' → FunctionDecl.AllAlike P Γ fs fs' →
    FunctionDecl.AllAlike P Γ (f :: fs) (f' :: fs')

/-- The body of a method stands in a scope that holds `this`, and that of a derived class in one
that holds `super` as well. -/
inductive Stmt.Alike (P : Pairing) : Renamings → Stmt → Stmt → Prop
  | expression {Γ e e'} : Expr.Alike P Γ e e' → Stmt.Alike P Γ (.expression e) (.expression e')
  | print {Γ e e'} : Expr.Alike P Γ e e' → Stmt.Alike P Γ (.print e) (.print e')
  | var {Γ t t'} : P.Named (Γ 0) t t' → Stmt.Alike P Γ (.var t none) (.var t' none)
  | varWith {Γ t t' e e'} : P.Named (Γ 0) t t' → Expr.Alike P Γ e e' →
    Stmt.Alike P Γ (.var t (some e)) (.var t' (some e'))
  | block {Γ ρ ss ss'} : P.renames ρ → Stmt.AllAlike P (Γ.push ρ) ss ss' →
    Stmt.Alike P Γ (.block ss) (.block ss')
  | ifThen {Γ e e' s s'} : Expr.Alike P Γ e e' → Stmt.Alike P Γ s s' →
    Stmt.Alike P Γ (.ifElse e s none) (.ifElse e' s' none)
  | ifElse {Γ e e' s s' t t'} : Expr.Alike P Γ e e' → Stmt.Alike P Γ s s' → Stmt.Alike P Γ t t' →
    Stmt.Alike P Γ (.ifElse e s (some t)) (.ifElse e' s' (some t'))
  | whileLoop {Γ e e' s s'} : Expr.Alike P Γ e e' → Stmt.Alike P Γ s s' →
    Stmt.Alike P Γ (.whileLoop e s) (.whileLoop e' s')
  | breakLoop {Γ t t'} : P.Tokens t t' → Stmt.Alike P Γ (.breakLoop t) (.breakLoop t')
  | returnFrom {Γ t t'} : P.Tokens t t' →
    Stmt.Alike P Γ (.returnFrom t none) (.returnFrom t' none)
  | returnWith {Γ t t' e e'} : P.Tokens t t' → Expr.Alike P Γ e e' →
    Stmt.Alike P Γ (.returnFrom t (some e)) (.returnFrom t' (some e'))
  | function {Γ f f'} : P.Named (Γ 0) f.name f'.name → FunctionDecl.Alike P Γ f f' →
    Stmt.Alike P Γ (.function f) (.function f')
  | base {Γ t t' fs fs'} : P.Tokens t t' → P.Named (Γ 0) t t' →
    FunctionDecl.AllAlike P (Γ.push (Equiv.refl String)) fs fs' →
    Stmt.Alike P Γ (.classDecl t none fs) (.classDecl t' none fs')
  | derived {Γ t t' u u' fs fs'} : P.Tokens t t' → P.Named (Γ 0) t t' → P.Uses Γ u u' →
    FunctionDecl.AllAlike P ((Γ.push (Equiv.refl String)).push (Equiv.refl String)) fs fs' →
    Stmt.Alike P Γ (.classDecl t (some u) fs) (.classDecl t' (some u') fs')

inductive Stmt.AllAlike (P : Pairing) : Renamings → List Stmt → List Stmt → Prop
  | nil {Γ} : Stmt.AllAlike P Γ [] []
  | cons {Γ s s' ss ss'} : Stmt.Alike P Γ s s' → Stmt.AllAlike P Γ ss ss' →
    Stmt.AllAlike P Γ (s :: ss) (s' :: ss')

end

/-- Programs whose statements and last expressions are alike; globals keep their names. -/
structure Program.Alike (P : Pairing) (p p' : Program) : Prop where
  statements : Stmt.AllAlike P .plain p.statements p'.statements
  trailing : Option.Rel (Expr.Alike P .plain) p.trailing p'.trailing

theorem FunctionDecl.Alike.name {P : Pairing} {Γ : Renamings} {f f' : FunctionDecl}
    (alike : f.Alike P Γ f') : P.Tokens f.name f'.name := by
  obtain @⟨_, ρ, name, name', ps, ps', ss, ss', tokens, renames, params, body⟩ := alike
  exact tokens

theorem FunctionDecl.Alike.isInitializer {P : Pairing} {Γ : Renamings} {f f' : FunctionDecl}
    (alike : f.Alike P Γ f') : f'.isInitializer = f.isInitializer :=
  congrArg (· == "init") alike.name.lexeme

/-! ### Larger pairings -/

section Mono

variable {P Q : Pairing} (le : P.Le Q)

include le

theorem Pairing.Tokens.mono {t t' : Token} (h : P.Tokens t t') : Q.Tokens t t' :=
  ⟨h.type, h.lexeme, le.lines _ _ h.line⟩

theorem Pairing.Named.mono {ρ : Renaming} {t t' : Token} (h : P.Named ρ t t') : Q.Named ρ t t' :=
  ⟨h.type, h.lexeme, le.names _ h.known, le.lines _ _ h.line⟩

theorem Pairing.Uses.mono {Γ : Renamings} {u u' : Use} (h : P.Uses Γ u u') : Q.Uses Γ u u' :=
  ⟨le.ids _ _ h.ids, h.type, fun d known => h.lexeme d (le.distances _ _ d h.ids known),
    le.names _ h.known, le.lines _ _ h.line⟩

theorem Pairing.named_mono {ρ : Renaming} {ts ts' : List Token}
    (h : List.Forall₂ (P.Named ρ) ts ts') : List.Forall₂ (Q.Named ρ) ts ts' :=
  h.imp fun _ _ h => h.mono le

omit le

mutual

theorem Expr.Alike.mono (le : P.Le Q) {Γ : Renamings} {e e' : Expr} : e.Alike P Γ e' → e.Alike Q Γ e'
  | .literal => .literal
  | .grouping h => .grouping (h.mono le)
  | .unary t h => .unary (t.mono le) (h.mono le)
  | .binary h t h' => .binary (h.mono le) (t.mono le) (h'.mono le)
  | .logical h t h' => .logical (h.mono le) (t.mono le) (h'.mono le)
  | .variable u => .variable (u.mono le)
  | .assign u h => .assign (u.mono le) (h.mono le)
  | .this u => .this (u.mono le)
  | .super u t => .super (u.mono le) (t.mono le)
  | .call h t hs => .call (h.mono le) (t.mono le) (hs.mono le)
  | .get h t => .get (h.mono le) (t.mono le)
  | .set h t h' => .set (h.mono le) (t.mono le) (h'.mono le)
  | .lambda r ps hs => .lambda (le.renames _ r) (Pairing.named_mono le ps) (hs.mono le)

theorem Expr.AllAlike.mono (le : P.Le Q) {Γ : Renamings} {es es' : List Expr} :
    Expr.AllAlike P Γ es es' → Expr.AllAlike Q Γ es es'
  | .nil => .nil
  | .cons h hs => .cons (h.mono le) (hs.mono le)

theorem FunctionDecl.Alike.mono (le : P.Le Q) {Γ : Renamings} {f f' : FunctionDecl} :
    f.Alike P Γ f' → f.Alike Q Γ f'
  | .mk name r ps hs => .mk (name.mono le) (le.renames _ r) (Pairing.named_mono le ps) (hs.mono le)

theorem FunctionDecl.AllAlike.mono (le : P.Le Q) {Γ : Renamings} {fs fs' : List FunctionDecl} :
    FunctionDecl.AllAlike P Γ fs fs' → FunctionDecl.AllAlike Q Γ fs fs'
  | .nil => .nil
  | .cons h hs => .cons (h.mono le) (hs.mono le)

theorem Stmt.Alike.mono (le : P.Le Q) {Γ : Renamings} {s s' : Stmt} : s.Alike P Γ s' → s.Alike Q Γ s'
  | .expression h => .expression (h.mono le)
  | .print h => .print (h.mono le)
  | .var t => .var (t.mono le)
  | .varWith t h => .varWith (t.mono le) (h.mono le)
  | .block r hs => .block (le.renames _ r) (hs.mono le)
  | .ifThen h hs => .ifThen (h.mono le) (hs.mono le)
  | .ifElse h hs ht => .ifElse (h.mono le) (hs.mono le) (ht.mono le)
  | .whileLoop h hs => .whileLoop (h.mono le) (hs.mono le)
  | .breakLoop t => .breakLoop (t.mono le)
  | .returnFrom t => .returnFrom (t.mono le)
  | .returnWith t h => .returnWith (t.mono le) (h.mono le)
  | .function name h => .function (name.mono le) (h.mono le)
  | .base t name hs => .base (t.mono le) (name.mono le) (hs.mono le)
  | .derived t name u hs => .derived (t.mono le) (name.mono le) (u.mono le) (hs.mono le)

theorem Stmt.AllAlike.mono (le : P.Le Q) {Γ : Renamings} {ss ss' : List Stmt} :
    Stmt.AllAlike P Γ ss ss' → Stmt.AllAlike Q Γ ss ss'
  | .nil => .nil
  | .cons h hs => .cons (h.mono le) (hs.mono le)

end

end Mono

end Lox
