import Lox.Proofs.Joining.Scanning
import Lox.Proofs.LongestMatch

/-!
# Spelling tokens back

The lexemes of a text with a blank between any two make a text with the same tokens and no lexical
error, and a lexeme settles the kind and the value of its token: `tokens_respelled`.
-/

namespace Lox

/-- The lexemes of all tokens, the empty one of the end among them, with a blank between any two. -/
def TokenStream.respelled (ts : TokenStream) : String :=
  " ".intercalate (ts.toList.map Token.lexeme)

def Token.withoutLine (t : Token) : TokenType × String := (t.type, t.lexeme)

/-! ### Lexemes before blanks -/

section Blanks

variable {type : TokenType} {cs : List Char}

/-- A lexeme by itself is cut off as one token, also before a blank. -/
theorem Lexeme.first_before_blank (h : Lexeme type cs) (ds : List Char) :
    Piece.First (.token type cs) (' ' :: ds) := by
  have alone : Piece.First (.token type cs) [] := by
    cases cs with
    | nil => exact absurd rfl h.ne_nil
    | cons c cs =>
      have first := Piece.first_split c cs
      rwa [Piece.split_lexeme h] at first
  exact alone.token_before rfl ds

namespace Piece

def respelled (t : Token) : List Piece := [.token t.type t.lexeme.toList, .trivia [' ']]

theorem cuts_respelled {ts : List Token} (lexemes : ∀ t ∈ ts, Lexeme t.type t.lexeme.toList) :
    Cuts (ts.flatMap fun t => t.lexeme.toList ++ [' ']) (ts.flatMap respelled) := by
  induction ts with
  | nil => exact .nil
  | cons t ts ih =>
    obtain ⟨here, others⟩ := List.forall_mem_cons.mp lexemes
    have blank : Cuts ([' '] ++ ts.flatMap fun t => t.lexeme.toList ++ [' '])
        (.trivia [' '] :: ts.flatMap respelled) :=
      .cons (p := .trivia [' ']) (.trivia (.blank (by decide))) (ih others)
    rw [List.flatMap_cons, List.append_assoc]
    exact .cons (here.first_before_blank _) blank

def token? : Piece → Option (TokenType × String)
  | token type cs => some (type, String.ofList cs)
  | _ => none

theorem tokens_numberPieces (line : Nat) (ps : List Piece) :
    ((numberPieces line ps).filterMap Item.token?).map Token.withoutLine = ps.filterMap token? := by
  induction ps generalizing line with
  | nil => rfl
  | cons p ps ih =>
    cases p with
    | trivia cs => exact ih _
    | token type cs => exact congrArg ((type, String.ofList cs) :: ·) (ih _)
    | stray c => exact ih _
    | unclosed cs => exact ih _

theorem tokens_respelledPieces (ts : List Token) :
    (ts.flatMap respelled).filterMap token? = ts.map Token.withoutLine := by
  induction ts with
  | nil => rfl
  | cons t ts ih =>
    rw [List.flatMap_cons, List.filterMap_append, ih]
    simp [respelled, token?, Token.withoutLine, String.ofList_toList]

theorem sound_respelled (ts : List Token) : ∀ p ∈ ts.flatMap respelled, p.isFault = false := by
  intro p mem
  obtain ⟨t, -, mem⟩ := List.mem_flatMap.mp mem
  simp only [respelled, List.mem_cons, List.not_mem_nil, or_false] at mem
  rcases mem with rfl | rfl <;> rfl

end Piece

end Blanks

/-! ### Tokens of a text -/

theorem toList_intercalate_blank (words : List String) :
    (" ".intercalate (words ++ [""])).toList = words.flatMap (·.toList ++ [' ']) := by
  induction words with
  | nil => rfl
  | cons word words ih =>
    have blank : " ".toList = [' '] := rfl
    rw [List.flatMap_cons, ← ih]
    cases words with
    | nil => simp [blank]
    | cons next words =>
      rw [List.cons_append, List.cons_append, String.intercalate_cons_cons]
      simp [blank]

theorem TokenStream.toList_respelled (ts : TokenStream) :
    ts.respelled.toList = ts.body.flatMap fun t => t.lexeme.toList ++ [' '] := by
  have words : ts.toList.map Token.lexeme = ts.body.map Token.lexeme ++ [""] := List.map_append
  rw [respelled, words, toList_intercalate_blank, List.flatMap_map]

theorem TokenStream.withoutLine_toList (ts : TokenStream) :
    ts.toList.map Token.withoutLine = ts.body.map Token.withoutLine ++ [(.eof, "")] :=
  List.map_append

section Scanned

variable {source : String} {t t' : Token}

/-- A token of a text belongs to its kind, or is the end. -/
theorem scanned_cases (mem : t ∈ (scan source).tokens.toList) :
    Lexeme t.type t.lexeme.toList ∨ t.type = .eof ∧ t.lexeme = "" := by
  rcases List.mem_append.mp mem with inside | last
  · exact .inl (lexeme_of_mem_body inside)
  · obtain rfl := List.mem_singleton.mp last
    exact .inr ⟨rfl, rfl⟩

theorem type_of_lexeme {source' : String} (mem : t ∈ (scan source).tokens.toList)
    (mem' : t' ∈ (scan source').tokens.toList) (same : t.lexeme = t'.lexeme) :
    t.type = t'.type := by
  rcases scanned_cases mem with lexeme | ⟨type, empty⟩ <;>
    rcases scanned_cases mem' with lexeme' | ⟨type', empty'⟩
  · exact lexeme.unique (same ▸ lexeme')
  · exact absurd (by rw [same, empty']; rfl) lexeme.ne_nil
  · exact absurd (by rw [← same, empty]; rfl) lexeme'.ne_nil
  · exact type.trans type'.symm

/-- The text of the lexemes is scanned without an error to the same words. -/
theorem scan_respelled (source : String) :
    (scan (scan source).tokens.respelled).faults = [] ∧
      (scan (scan source).tokens.respelled).tokens.body.map Token.withoutLine =
        (scan source).tokens.body.map Token.withoutLine := by
  have cuts := Piece.cuts_respelled fun t (mem : t ∈ (scan source).tokens.body) =>
    lexeme_of_mem_body mem
  rw [← TokenStream.toList_respelled] at cuts
  have pieces := Piece.cuts_iff.mp cuts
  generalize (scan source).tokens = ts at pieces ⊢
  rw [scan_eq]
  dsimp only
  rw [← pieces]
  exact ⟨Piece.faults_eq_nil_iff.mpr (Piece.sound_respelled _),
    (Piece.tokens_numberPieces _ _).trans (Piece.tokens_respelledPieces _)⟩

end Scanned

/-- The lexemes of a text with a blank between any two are scanned without an error to tokens of the
same kinds, values and lexemes. Tokens with the same lexeme have the same kind and value, also in
two texts, so tokens that compare as equal are equal. -/
theorem tokens_respelled :
    (∀ source, (scan (scan source).tokens.respelled).faults = [] ∧
      (scan (scan source).tokens.respelled).tokens.toList.map Token.withoutLine =
        (scan source).tokens.toList.map Token.withoutLine) ∧
    ∀ source source', ∀ t ∈ (scan source).tokens.toList, ∀ t' ∈ (scan source').tokens.toList,
      (t.lexeme = t'.lexeme → t.type = t'.type) ∧ (t.same t' = true ↔ t = t') := by
  refine ⟨fun source => ?_, fun source source' t mem t' mem' => ?_⟩
  · obtain ⟨clean, words⟩ := scan_respelled source
    refine ⟨clean, ?_⟩
    rw [TokenStream.withoutLine_toList, TokenStream.withoutLine_toList, words]
  · refine ⟨type_of_lexeme mem mem', fun same => ?_, fun same => same ▸ t.same_refl⟩
    simp only [Token.same, Bool.and_eq_true, beq_iff_eq] at same
    obtain ⟨⟨-, lexeme⟩, line⟩ := same
    have type := type_of_lexeme mem mem' lexeme
    cases t
    cases t'
    simp_all

end Lox
