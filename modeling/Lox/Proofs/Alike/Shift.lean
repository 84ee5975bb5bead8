import Lox.Proofs.Alike.Session

/-!
# Texts that are read with other numbers

The number from which the uses of names are counted has no other part in what is read:
`parse_shift`.
-/

namespace Lox

/-- Nothing differs but the numbers of uses, which are counted from `i` and from `j`. -/
def Pairing.shift (i j : Nat) : Pairing := .plain Eq fun a b => ∃ k, a = i + k ∧ b = j + k

namespace Syntax

theorem alike_shift (ts : TokenStream) (i j : Nat) : TokenStream.Alike (.shift i j) ts ts :=
  ⟨List.forall₂_same.mpr fun _ _ => ⟨⟨rfl, rfl, rfl⟩, trivial⟩, rfl⟩

theorem Parsed.Alike.errors_eq {i j : Nat} {R : α → β → Prop} {p : Parsed α} {p' : Parsed β}
    (h : Parsed.Alike (.shift i j) i j R p p') : p'.errors = p.errors :=
  eq_of_forall₂ (fun _ _ => Pairing.Mistakes.eq) h.errors

/-- A program is read as the same statements with the same errors, whatever its first number. -/
theorem parse_shift (ts : TokenStream) (i j : Nat) :
    Parsed.Alike (.shift i j) i j (Stmt.AllAlike (.shift i j) .plain) (parse ts i) (parse ts j) :=
  have counted (k : Nat) : (Pairing.shift i j).ids (i + k) (j + k) := ⟨k, rfl, rfl⟩
  parse_alike Pairing.plain_lawful counted (alike_shift ts i j)

end Syntax

end Lox
