import Lox.Proofs.Alike.Shift
import Lox.Proofs.Recovery.Stops
import Lox.Proofs.Surroundings.Rules

/-!
# Recovery at a semicolon

What is read up to a semicolon, however malformed, has no part in what is read after it, unless a
brace or a `for` is open there: `parse_recovers`.
-/

namespace Lox.Syntax

open Grammar

variable {c : Surroundings} {n n' : Nat} {s : ParseState}

theorem Terminated.append {semicolon : Token} (type : semicolon.type = .semicolon) {ts : List Token}
    (plain : ∀ t ∈ ts, t.type ≠ .semicolon ∧ t.type ≠ .leftBrace ∧ t.type ≠ .kwFor) :
    Terminated (ts ++ [semicolon]) := by
  induction ts with
  | nil => exact .last type
  | cons t ts ih =>
    obtain ⟨other, brace, «for»⟩ := plain t List.mem_cons_self
    exact .cons other brace «for» (ih fun t mem => plain t (List.mem_cons_of_mem _ mem))

/-! ### What is skipped -/

theorem toBoundary_semicolon {semicolon : Token} (type : semicolon.type = .semicolon)
    (ts : List Token) : toBoundary semicolon ts = ts := by
  cases ts with
  | nil => rfl
  | cons t rest =>
    unfold toBoundary
    rw [type]
    rfl

theorem Terminated.toBoundary_append {ts : List Token} (h : Terminated ts) (previous : Token)
    (more : List Token) : toBoundary previous (ts ++ more) = toBoundary previous ts ++ more := by
  induction h generalizing previous with
  | @last semicolon type =>
    rw [List.singleton_append]
    unfold toBoundary
    split
    · rfl
    · rw [toBoundary_semicolon type, toBoundary_semicolon type]
      rfl
  | cons _ _ _ _ ih =>
    rw [List.cons_append]
    unfold toBoundary
    split
    · rfl
    · exact ih _

theorem Terminated.synchronize_append {ts : List Token} (h : Terminated ts) (more : List Token) :
    synchronize (ts ++ more) = synchronize ts ++ more := by
  cases h with
  | @last semicolon type =>
    change toBoundary semicolon more = toBoundary semicolon [] ++ more
    rw [toBoundary_semicolon type, toBoundary_semicolon type]
    rfl
  | cons _ _ _ rest => exact rest.toBoundary_append _ more

/-! ### One declaration -/

/-- What is read up to the semicolon is read alike in the longer text, and nothing after it is
read. -/
theorem Terminated.declaration (h : Terminated s.rest) (apart : c.Apart) (short : s.rest.length ≤ n)
    (short' : (s.amid c).rest.length ≤ n') :
    (rules n').declaration (s.amid c) =
        (((rules n).declaration s).1, ((rules n).declaration s).2.amid c) ∧
      (((rules n).declaration s).2.rest = [] ∨ Terminated ((rules n).declaration s).2.rest) := by
  have le : s.rest.length ≤ n' := by
    rw [ParseState.amid, List.length_append] at short'
    omega
  rw [← recover_declaration short, ← recover_declaration short']
  have ends := settles_declaration (stops_rules n) s h
  have same := (agree_declaration (agree_rules (c := c) n n' short le)).same s (Nat.le_succ _)
  unfold recover
  cases run : Syntax.declaration (rules n) s with
  | ok d t =>
    rw [run] at ends
    rw [AgreeAt, run] at same
    rw [same (.inr (.inr apart))]
    exact ⟨rfl, ends⟩
  | error e t =>
    rw [run] at ends
    rw [AgreeAt, run] at same
    rw [same (.inl ends.ne_nil)]
    refine ⟨?_, ends.of_suffix (synchronize_suffix t.rest)⟩
    have skipped : synchronize (t.amid c).rest = synchronize t.rest ++ c.more :=
      ends.synchronize_append c.more
    change (none, { (t.amid c).report e with rest := synchronize (t.amid c).rest }) = _
    rw [skipped, ← ParseState.amid_report]
    rfl

/-! ### Declarations in a row -/

/-- Rounds enough for both texts read the first, and leave enough for the second. -/
theorem declarations_row (apart : c.Apart) (h : s.rest = [] ∨ Terminated s.rest) {rounds : Nat}
    (short : s.rest.length ≤ rounds) (le : rounds ≤ n) {rounds' : Nat}
    (enough : s.rest.length + c.more.length ≤ rounds') (le' : rounds' ≤ n') :
    (declarations (rules n) ParseState.atEnd rounds s).2.rest = [] ∧
      ∃ left, c.more.length ≤ left ∧
        declarations (rules n') ParseState.atEnd rounds' (s.amid c) =
          ((declarations (rules n) ParseState.atEnd rounds s).1 ++
            (declarations (rules n') ParseState.atEnd left
              ((declarations (rules n) ParseState.atEnd rounds s).2.amid c)).1,
            (declarations (rules n') ParseState.atEnd left
              ((declarations (rules n) ParseState.atEnd rounds s).2.amid c)).2) := by
  induction rounds generalizing s rounds' with
  | zero =>
    have ended : s.rest = [] := List.eq_nil_of_length_eq_zero (Nat.le_zero.mp short)
    exact ⟨ended, rounds', by omega, rfl⟩
  | succ rounds ih =>
    obtain ended | more := h
    · rw [declarations_ended ended]
      exact ⟨ended, rounds', by omega, rfl⟩
    · have some := List.length_pos_iff.mpr more.ne_nil
      have less := (advance_rules n).declaration s more.ne_nil
      have there : (s.amid c).rest ≠ [] := List.append_ne_nil_of_left_ne_nil more.ne_nil _
      have whole : (s.amid c).rest.length = s.rest.length + c.more.length := List.length_append
      have short : s.rest.length ≤ n := by omega
      have short' : (s.amid c).rest.length ≤ n' := by omega
      obtain ⟨first, after⟩ := more.declaration apart short short'
      obtain ⟨rounds', rfl⟩ := Nat.exists_eq_add_of_le' (show 1 ≤ rounds' by omega)
      have rest : ((rules n).declaration s).2.rest.length + c.more.length ≤ rounds' := by omega
      -- A round of the text is one of the longer text; those that remain read the second text.
      obtain ⟨ended, left, enough, others⟩ := ih after (by omega) (by omega) rest (by omega)
      rw [declarations_more more.ne_nil, declarations_more there, first]
      refine ⟨ended, left, enough, ?_⟩
      rw [others, List.append_assoc]

/-! ### Whole texts -/

/-- Declarations are read after errors as they are read without, whatever rounds are left over. -/
theorem declarations_anew (ts : TokenStream) (errors : List SyntaxError) (firstId : Nat) {left : Nat}
    (enough : ts.body.length ≤ left) (le : ts.body.length ≤ n) :
    let read := declarations (rules n) ParseState.atEnd left
      { rest := ts.body, endLine := ts.endLine, nextId := firstId, errors }
    read.1 = (parse ts firstId).result ∧ read.2.errors = errors ++ (parse ts firstId).errors := by
  let c : Surroundings := ⟨errors, [], ts.endLine⟩
  let s : ParseState := { rest := ts.body, endLine := ts.endLine, nextId := firstId }
  let m := ts.body.length
  have same (s : ParseState) (hidden : c.Hidden False s) : (s.amid c).atEnd = s.atEnd :=
    ParseState.atEnd_amid hidden
  have agree := agree_declarations (agree_rules m n (Nat.le_refl m) le) same
    (fun _ ended => List.isEmpty_iff.mpr ended) m left (Nat.le_refl m) (Nat.le_refl m) enough
  have respects := (advance_rules m).respects
  have line := (onward.respects_declarations respects ParseState.atEnd m s).endLine
  have same := agree.of_total (s := s) (Nat.le_refl m) (.inr (.inl ⟨rfl, line.symm⟩))
  have start : s.amid c = { rest := ts.body, endLine := ts.endLine, nextId := firstId, errors } := by
    simp only [ParseState.amid, s, c, List.append_nil]
  rw [start] at same
  dsimp only
  rw [same]
  exact ⟨rfl, rfl⟩

/-- The statements before a semicolon and after it are read apart, with their errors, if no brace
and no `for` comes before it and no `else` after it. Only the numbers of uses go on. -/
theorem parse_recovers {before : List Token} {semicolon : Token} (after : TokenStream)
    (plain : ∀ t ∈ before, t.type ≠ .semicolon ∧ t.type ≠ .leftBrace ∧ t.type ≠ .kwFor)
    (type : semicolon.type = .semicolon) (apart : beginsElse after.body = false)
    (endLine i j k : Nat) :
    let first := parse ⟨before ++ [semicolon], endLine⟩
    let whole := parse ⟨before ++ semicolon :: after.body, after.endLine⟩ i
    whole.errors = (first j).errors ++ (parse after k).errors ∧
      ∃ xs ys, whole.result = xs ++ ys ∧
        Stmt.AllAlike (.shift i j) .plain xs (first j).result ∧
        Stmt.AllAlike (.shift (first i).nextId k) .plain ys (parse after k).result := by
  intro first whole
  let c : Surroundings := ⟨[], after.body, after.endLine⟩
  let s : ParseState := { rest := before ++ [semicolon], endLine, nextId := i }
  let n := (before ++ [semicolon]).length
  let n' := (before ++ semicolon :: after.body).length
  have total : n' = n + after.body.length := by
    simp only [n, n', List.length_append, List.length_cons, List.length_nil]
    omega
  have quiet : c.Apart := by
    intro word rest split
    have here : beginsElse (word :: rest) = false := split ▸ apart
    exact here
  -- The first text is read with the second one behind it.
  obtain ⟨ended, left, enough, row⟩ := declarations_row (n := n) (s := s) quiet
    (.inr (.append type plain)) (Nat.le_refl n) (Nat.le_refl n) (Nat.le_of_eq total.symm)
    (Nat.le_refl n')
  have respects := (advance_rules n).respects
  have depth := (onward.respects_declarations respects ParseState.atEnd n s).loopDepth
  have read : first i = ⟨(declarations (rules n) ParseState.atEnd n s).1,
    (declarations (rules n) ParseState.atEnd n s).2.errors,
    (declarations (rules n) ParseState.atEnd n s).2.nextId⟩ := rfl
  revert row ended depth read
  generalize declarations (rules n) ParseState.atEnd n s = d
  obtain ⟨xs, t⟩ := d
  intro ended row depth read
  -- Then nothing is left of the first text, and no loop is open.
  have mid : t.amid c =
      { rest := after.body, endLine := after.endLine, nextId := t.nextId, errors := t.errors } := by
    obtain ⟨rest, endLine, loopDepth, nextId, errors⟩ := t
    obtain rfl : rest = [] := ended
    obtain rfl : loopDepth = 0 := depth
    rfl
  obtain ⟨results, errors⟩ := declarations_anew (n := n') after t.errors t.nextId enough (by omega)
  have start : s.amid c =
      { rest := before ++ semicolon :: after.body, endLine := after.endLine, nextId := i } := by
    simp only [ParseState.amid, s, c, List.append_assoc, List.singleton_append, List.append_nil]
  rw [mid, start] at row
  -- Each text by itself is read alike from other numbers.
  have shifted : Parsed.Alike (.shift i j) i j (Stmt.AllAlike (.shift i j) .plain) (first i)
    (first j) := parse_shift ⟨before ++ [semicolon], endLine⟩ i j
  have next := parse_shift after t.nextId k
  rw [read] at shifted ⊢
  refine ⟨?_, xs, (parse after t.nextId).result, ?_, shifted.result, next.result⟩
  · rw [shifted.errors_eq, next.errors_eq]
    exact (congrArg (fun read => read.2.errors) row).trans errors
  · exact (congrArg Prod.fst row).trans (congrArg (xs ++ ·) results)

/-- A `print` without an expression leaves the next statement as it is. -/
theorem parse_recovers_print :
    let keyword : Token := ⟨.kwPrint, "print", 1⟩
    let name : Token := ⟨.identifier, "x", 2⟩
    let semicolon : Token := ⟨.semicolon, ";", 2⟩
    let first := parse ⟨[keyword] ++ [semicolon], 2⟩
    let whole := parse ⟨[keyword] ++ semicolon :: [name, semicolon], 3⟩ 0
    (∀ t ∈ [keyword], t.type ≠ .semicolon ∧ t.type ≠ .leftBrace ∧ t.type ≠ .kwFor) ∧
    semicolon.type = .semicolon ∧ beginsElse [name, semicolon] = false ∧
    whole.errors = (first 0).errors ++ (parse ⟨[name, semicolon], 3⟩ 0).errors ∧
      ∃ xs ys, whole.result = xs ++ ys ∧
        Stmt.AllAlike (.shift 0 0) .plain xs (first 0).result ∧
        Stmt.AllAlike (.shift (first 0).nextId 0) .plain ys (parse ⟨[name, semicolon], 3⟩ 0).result := by
  intro keyword name semicolon first whole
  have plain : ∀ t ∈ [keyword], t.type ≠ .semicolon ∧ t.type ≠ .leftBrace ∧ t.type ≠ .kwFor := by
    rintro _ (_ | ⟨_, ⟨⟩⟩)
    exact ⟨nofun, nofun, nofun⟩
  exact ⟨plain, rfl, rfl, parse_recovers ⟨[name, semicolon], 3⟩ plain rfl rfl 2 0 0 0⟩

end Lox.Syntax
